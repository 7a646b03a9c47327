import QuizFormula.Binary64.Reading
import QuizFormula.Proofs.Meaning.Rounding

/-!
# How near a number is read

A quotient is read within half a step of its significand, and a step is at most a unit or
the `2 ^ 52`th part of the quotient (`significandStep_le`). So a quotient that reads as
infinite is greater than one, a quotient of `2 ^ 1025` and above does read as infinite, and
one that reads as a finite number is off by no more than half a unit or its `2 ^ 53`th part
(`Binary64.abs_value_sub_le`). The exponent of a numeral is read in full unless digits
follow when the ceiling is reached (`Exponent.saturated_eq`).
-/

namespace QuizFormula

namespace Binary64

/-- The distance of two neighbouring numbers around a quotient. -/
def significandStep (num den : Nat) : Nat :=
  Nat.pow 2 ((num / den).log2 - significandBits)

theorem significandStep_pos (num den : Nat) : 0 < significandStep num den :=
  Nat.pow_pos (by decide)

/-- A step is a unit, or fits `2 ^ 52` times into the quotient. -/
theorem significandStep_le (num den : Nat) :
    significandStep num den = 1 ∨ 2 ^ 52 * significandStep num den * den ≤ num := by
  rw [significandStep, significandBits, Nat.pow_eq]
  rcases Nat.le_total (num / den).log2 52 with h | h
  · rw [Nat.sub_eq_zero_of_le h]
    exact Or.inl rfl
  · refine Or.inr ?_
    have hne : num / den ≠ 0 := by
      intro hzero
      rw [hzero, Nat.log2_zero] at h
      omega
    rw [← pow_add, Nat.add_sub_cancel' h]
    calc 2 ^ (num / den).log2 * den
        ≤ num / den * den := Nat.mul_le_mul_right den (Nat.log2_self_le hne)
      _ ≤ num := Nat.div_mul_le_self num den

theorem roundSignificand_mul (num den : Nat) :
    roundSignificand num den * den = roundDiv num (den * significandStep num den) *
      (den * significandStep num den) := by
  rw [roundSignificand, ← significandStep]
  ring

theorem two_mul_roundSignificand_le (num den : Nat) :
    2 * (roundSignificand num den * den) ≤ 2 * num + den * significandStep num den := by
  rw [roundSignificand_mul]
  exact two_mul_roundDiv_mul_le num (den * significandStep num den)

theorem two_mul_le_two_mul_roundSignificand (num : Nat) {den : Nat} (hden : 0 < den) :
    2 * num ≤ 2 * (roundSignificand num den * den) + den * significandStep num den := by
  rw [roundSignificand_mul]
  exact two_mul_le_two_mul_roundDiv_mul num _ (Nat.mul_pos hden (significandStep_pos num den))

/-- A step is no greater than the divisor and the dividend together. -/
theorem mul_significandStep_le (num den : Nat) :
    den * significandStep num den ≤ num + den := by
  rcases significandStep_le num den with h | h
  · rw [h]
    omega
  · calc den * significandStep num den
        ≤ 2 ^ 52 * (den * significandStep num den) := Nat.le_mul_of_pos_left _ (by decide)
      _ = 2 ^ 52 * significandStep num den * den := by ring
      _ ≤ num + den := Nat.le_trans h (Nat.le_add_right num den)

/-! ### Finite and infinite numbers -/

section Bounds

variable {negative sign : Bool} {num den : Nat}

/-- The bound of finite numbers is at least four, and at most half of `10 ^ 309`. -/
theorem unitsBound_bounds :
    0 < Nat.pow 2 unitExponent ∧ 4 * Nat.pow 2 unitExponent ≤ unitsBound ∧
      2 * unitsBound ≤ 10 ^ 309 * Nat.pow 2 unitExponent := by
  decide +kernel

/-- What reads as infinite is greater than one. -/
theorem lt_of_ofRatio_eq_infinite (hden : 0 < den)
    (h : ofRatio negative num den = .infinite sign) : den < num := by
  by_contra hle
  have hbound : unitsBound ≤ roundSignificand (num * Nat.pow 2 unitExponent) den := by
    by_contra hlt
    rw [ofRatio, if_pos (Nat.not_le.1 hlt)] at h
    cases h
  have hround := two_mul_roundSignificand_le (num * Nat.pow 2 unitExponent) den
  have hstep := mul_significandStep_le (num * Nat.pow 2 unitExponent) den
  obtain ⟨hunit, hone, -⟩ := unitsBound_bounds
  generalize Nat.pow 2 unitExponent = unit at *
  have hnum : num * unit ≤ unit * den := by
    rw [Nat.mul_comm]
    exact Nat.mul_le_mul_left unit (Nat.not_lt.1 hle)
  have hlarge : 4 * unit * den ≤ roundSignificand (num * unit) den * den :=
    Nat.mul_le_mul_right den (Nat.le_trans hone hbound)
  have hpos : 1 * den ≤ unit * den := Nat.mul_le_mul_right den hunit
  rw [Nat.mul_assoc] at hlarge
  omega

/-- From twice the bound of finite numbers on, a quotient reads as infinite. -/
theorem ofRatio_eq_infinite (hden : 0 < den)
    (h : 2 * (unitsBound * den) ≤ num * Nat.pow 2 unitExponent) :
    ofRatio negative num den = .infinite negative := by
  have hround := two_mul_le_two_mul_roundSignificand (num * Nat.pow 2 unitExponent) hden
  have hstep := mul_significandStep_le (num * Nat.pow 2 unitExponent) den
  have hunits : ¬ roundSignificand (num * Nat.pow 2 unitExponent) den < unitsBound := by
    intro hlt
    have hmul : (roundSignificand (num * Nat.pow 2 unitExponent) den + 1) * den ≤
        unitsBound * den := Nat.mul_le_mul_right den hlt
    rw [Nat.add_mul, Nat.one_mul] at hmul
    omega
  rw [ofRatio]
  exact if_neg hunits

theorem abs_roundSignificand_sub_le (num : Nat) {den : Nat} (hden : 0 < den) :
    |(roundSignificand num den : ℚ) - num / den| ≤ significandStep num den / 2 := by
  have hpos : (0 : ℚ) < den := by exact_mod_cast hden
  have hup : (2 * (roundSignificand num den * den) : ℚ) ≤
      2 * num + den * significandStep num den := by
    exact_mod_cast two_mul_roundSignificand_le num den
  have hlow : (2 * num : ℚ) ≤
      2 * (roundSignificand num den * den) + den * significandStep num den := by
    exact_mod_cast two_mul_le_two_mul_roundSignificand num hden
  have hscaled : (roundSignificand num den : ℚ) - num / den =
      (roundSignificand num den * den - num) / den := by
    rw [sub_div, mul_div_cancel_right₀ _ hpos.ne']
  rw [hscaled, abs_div, abs_of_pos hpos, div_le_iff₀ hpos, abs_le]
  constructor <;> linarith

/-- Half a step is at most half a unit or the `2 ^ 53`th part of the quotient. -/
theorem significandStep_div_two_le (num : Nat) {den : Nat} (hden : 0 < den) :
    (significandStep num den : ℚ) / 2 ≤ max (1 / 2) ((num : ℚ) / den / 2 ^ 53) := by
  have hpos : (0 : ℚ) < den := by exact_mod_cast hden
  rcases significandStep_le num den with h | h
  · rw [h, Nat.cast_one]
    exact le_max_left _ _
  · have hq : (2 ^ 52 * significandStep num den * den : ℚ) ≤ num := by exact_mod_cast h
    refine le_max_of_le_right ?_
    rw [div_div, le_div_iff₀ (by positivity)]
    linarith

theorem ofRatio_eq_finite_iff {units : Nat} :
    ofRatio negative num den = .finite sign units ↔
      negative = sign ∧ roundSignificand (num * Nat.pow 2 unitExponent) den = units ∧
        units < unitsBound := by
  rw [ofRatio]
  split
  · rename_i hlt
    rw [Binary64.finite.injEq]
    refine and_congr_right fun _ => ⟨?_, And.left⟩
    rintro rfl
    exact ⟨rfl, hlt⟩
  · rename_i hle
    refine ⟨nofun, ?_⟩
    rintro ⟨-, rfl, hlt⟩
    exact absurd hlt hle

/-- What reads as a finite number is within half a unit or the `2 ^ 53`th part of it. -/
theorem abs_value_sub_le {units : Nat} (hden : 0 < den)
    (h : ofRatio negative num den = .finite sign units) :
    |value sign units - Decimal.signFactor negative * (num / den)| ≤
      max (1 / 2 / 2 ^ unitExponent) ((num : ℚ) / den / 2 ^ 53) := by
  obtain ⟨rfl, rfl, -⟩ := ofRatio_eq_finite_iff.1 h
  have hunit : (0 : ℚ) < 2 ^ unitExponent := by positivity
  have hdist := (abs_roundSignificand_sub_le (num * Nat.pow 2 unitExponent) hden).trans
    (significandStep_div_two_le _ hden)
  have hquotient : ((num * Nat.pow 2 unitExponent : Nat) : ℚ) / den =
      num / den * 2 ^ unitExponent := by
    rw [Nat.pow_eq, Nat.cast_mul, Nat.cast_pow, Nat.cast_ofNat, mul_div_right_comm]
  rw [hquotient] at hdist
  rw [value, ← mul_sub, abs_mul, Decimal.abs_signFactor, one_mul]
  generalize roundSignificand (num * Nat.pow 2 unitExponent) den = units at *
  have hscaled : (units : ℚ) / 2 ^ unitExponent - num / den =
      (units - num / den * 2 ^ unitExponent) / 2 ^ unitExponent := by
    rw [sub_div, mul_div_cancel_right₀ _ hunit.ne']
  rw [hscaled, abs_div, abs_of_pos hunit, div_le_iff₀ hunit, max_mul_of_nonneg _ _ hunit.le,
    div_mul_cancel₀ _ hunit.ne', div_mul_eq_mul_div (num / den : ℚ)]
  exact hdist

end Bounds

end Binary64

/-! ### Exponents with many digits -/

namespace Exponent

theorem le_ofDigitChars (s : Text) (n : Nat) : n ≤ Nat.ofDigitChars 10 s n := by
  induction s generalizing n with
  | nil => exact Nat.le_refl n
  | cons c s ih =>
      rw [Nat.ofDigitChars_cons]
      exact Nat.le_trans (by omega) (ih _)

/-- Digits all count as long as the ceiling is reached with the last one only. -/
theorem foldl_digits_eq {s : Text} {n : Nat} (h : Nat.ofDigitChars 10 s n < 10 * ceiling) :
    s.foldl (fun n c => if n < ceiling then 10 * n + (c.toNat - '0'.toNat) else n) n =
      Nat.ofDigitChars 10 s n := by
  induction s generalizing n with
  | nil => rfl
  | cons c s ih =>
      rw [Nat.ofDigitChars_cons] at h ⊢
      have hle := le_ofDigitChars s (10 * n + (c.toNat - '0'.toNat))
      rw [List.foldl_cons, if_pos (by omega)]
      exact ih h

/-- An exponent is read in full as long as its magnitude is less than ten times the
ceiling. -/
theorem saturated_eq {e : Exponent} (h : e.value.natAbs < 10 * ceiling) :
    e.saturated = e.value := by
  have hmagnitude : e.value.natAbs = Nat.ofDigitChars 10 e.digits 0 := by
    rw [value, signed]
    split <;> omega
  rw [hmagnitude] at h
  rw [saturated, value, foldl_digits_eq h]

end Exponent

theorem Binary64.ofNumeral_eq {n : Numeral} {e : Exponent} (he : n.exponent = some e)
    (h : e.value.natAbs < 10 * Exponent.ceiling) :
    ofNumeral n = ofDecimal (n.toDecimal e.value) := by
  rw [ofNumeral, he, Option.map_some, Option.getD_some, Exponent.saturated_eq h]

end QuizFormula

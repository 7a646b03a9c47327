import Mathlib.Tactic.FieldSimp
import Mathlib.Tactic.Linarith
import QuizFormula.Binary64.Basic
import QuizFormula.Proofs.Meaning.Plain

/-!
# Rounding to a number of places

`IsNearest x k` says that the integer `k` is nearest to the rational number `x`, and even
where another integer is just as near; `RoundsTo places x y` says that `y` is `x` rounded
to so many digits after the point. There is one such `y` only (`RoundsTo.unique`), and the
rounding of quotients and of decimals finds it (`isNearest_roundDiv`,
`Decimal.roundsTo_roundTo`).
-/

namespace QuizFormula

/-- The integer is nearest to the number; halfway between two integers, the even one. -/
def IsNearest (x : ℚ) (k : ℤ) : Prop := |x - k| ≤ 1 / 2 ∧ (|x - k| = 1 / 2 → Even k)

/-- The number `y` is `x` rounded to so many digits after the point. -/
def RoundsTo (places : Nat) (x y : ℚ) : Prop :=
  ∃ k : ℤ, IsNearest (x * 10 ^ places) k ∧ y = k / 10 ^ places

theorem isNearest_intCast (k : ℤ) : IsNearest k k := by
  rw [IsNearest, sub_self, abs_zero]
  norm_num

theorem IsNearest.neg {x : ℚ} {k : ℤ} (h : IsNearest x k) : IsNearest (-x) (-k) := by
  have hdist : |-x - ((-k : ℤ) : ℚ)| = |x - k| := by
    rw [← abs_neg, Int.cast_neg]
    congr 1
    ring
  rw [IsNearest, hdist, even_neg]
  exact h

theorem IsNearest.unique {x : ℚ} {k l : ℤ} (hk : IsNearest x k) (hl : IsNearest x l) :
    k = l := by
  obtain ⟨hkle, hkeven⟩ := hk
  obtain ⟨hlle, hleven⟩ := hl
  by_contra hne
  -- The two integers are next to each other, so both are half a unit away.
  have hstep : (1 : ℚ) ≤ |(k : ℚ) - l| := by
    exact_mod_cast Int.one_le_abs (sub_ne_zero.2 hne)
  have htriangle : |(k : ℚ) - l| ≤ |x - k| + |x - l| := by
    rw [abs_sub_comm x k]
    exact abs_sub_le _ _ _
  have hke : Even k := hkeven (by linarith)
  have hle : Even l := hleven (by linarith)
  have hdist : |k - l| = 1 := by
    have hone : |(k : ℚ) - l| = 1 := by linarith
    exact_mod_cast hone
  have hsub : Even |k - l| := even_abs.2 (hke.sub hle)
  rw [hdist] at hsub
  exact absurd hsub (by decide)

theorem RoundsTo.unique {places : Nat} {x y z : ℚ} (hy : RoundsTo places x y)
    (hz : RoundsTo places x z) : y = z := by
  obtain ⟨k, hk, rfl⟩ := hy
  obtain ⟨l, hl, rfl⟩ := hz
  rw [hk.unique hl]

theorem roundsTo_self {places : Nat} {x : ℚ} {k : ℤ} (h : x * 10 ^ places = k) :
    RoundsTo places x x := by
  have hne : (10 : ℚ) ^ places ≠ 0 := pow_ne_zero _ (by norm_num)
  refine ⟨k, h ▸ isNearest_intCast k, ?_⟩
  rw [← h, mul_div_cancel_right₀ _ hne]

/-! ### Rounding of quotients -/

theorem even_roundDiv_of_half {num den : Nat} (h : 2 * (num % den) = den) :
    Even (roundDiv num den) := by
  have hround : roundDiv num den = num / den + num / den % 2 := by
    rw [roundDiv, if_neg (by omega), if_neg (by omega)]
  rw [hround, Nat.even_iff]
  omega

theorem isNearest_roundDiv (num : Nat) {den : Nat} (hden : 0 < den) :
    IsNearest ((num : ℚ) / den) (roundDiv num den) := by
  have hpos : (0 : ℚ) < den := by exact_mod_cast hden
  have hup : (2 * (roundDiv num den * den) : ℚ) ≤ 2 * num + den := by
    exact_mod_cast two_mul_roundDiv_mul_le num den
  have hlow : (2 * num : ℚ) ≤ 2 * (roundDiv num den * den) + den := by
    exact_mod_cast two_mul_le_two_mul_roundDiv_mul num den hden
  have hscaled : |(num : ℚ) / den - (roundDiv num den : ℤ)| =
      |(num : ℚ) - roundDiv num den * den| / den := by
    rw [← abs_of_pos hpos, ← abs_div, abs_of_pos hpos, sub_div, Int.cast_natCast,
      mul_div_cancel_right₀ _ hpos.ne']
  rw [IsNearest, hscaled]
  constructor
  · rw [div_le_iff₀ hpos, abs_le]
    constructor <;> linarith
  · intro hhalf
    rw [div_eq_iff hpos.ne', abs_eq (by linarith)] at hhalf
    -- The quotient lies halfway between two natural numbers.
    have hties : 2 * num = 2 * (roundDiv num den * den) + den ∨
        2 * num + den = 2 * (roundDiv num den * den) := by
      rcases hhalf with h | h
      · refine Or.inl ?_
        have hq : (2 * num : ℚ) = 2 * (roundDiv num den * den) + den := by linarith
        exact_mod_cast hq
      · refine Or.inr ?_
        have hq : (2 * num + den : ℚ) = 2 * (roundDiv num den * den) := by linarith
        exact_mod_cast hq
    have hrest : 2 * (num % den) = den := by
      have hsplit := Nat.div_add_mod num den
      have hcomm := Nat.mul_comm den (num / den)
      have hlt := Nat.mod_lt num hden
      rcases roundDiv_eq_or num den with h | h <;> rw [h] at hties
      · rcases hties with hties | hties <;> omega
      · rw [Nat.add_mul, Nat.one_mul] at hties
        rcases hties with hties | hties <;> omega
    exact_mod_cast even_roundDiv_of_half hrest

/-! ### Rounding of decimals -/

namespace Decimal

theorem value_mul_pow_of_places_le {d : Decimal} {n : Nat} (h : d.places ≤ n) :
    ∃ k : ℤ, d.value * 10 ^ n = k := by
  have hne : (10 : ℚ) ^ d.places ≠ 0 := pow_ne_zero _ (by norm_num)
  have hpow : (10 : ℚ) ^ n = 10 ^ d.places * 10 ^ (n - d.places) := by
    rw [← pow_add, Nat.add_sub_cancel' h]
  have hnumber : d.value * 10 ^ n =
      signFactor d.negative * (d.scaled * 10 ^ (n - d.places)) := by
    rw [value_eq, hpow]
    field_simp
  rw [hnumber, signFactor]
  split
  · exact ⟨-(d.scaled * 10 ^ (n - d.places)), by push_cast; ring⟩
  · exact ⟨d.scaled * 10 ^ (n - d.places), by push_cast; ring⟩

theorem isNearest_signFactor {x : ℚ} {k : ℤ} (h : IsNearest x k) (negative : Bool) :
    ∃ l : ℤ, IsNearest (signFactor negative * x) l ∧ (l : ℚ) = signFactor negative * k := by
  cases negative with
  | false => exact ⟨k, by simpa [signFactor] using h, by simp [signFactor]⟩
  | true => exact ⟨-k, by simpa [signFactor] using h.neg, by simp [signFactor]⟩

/-- A decimal is rounded to the nearest one with so many places. -/
theorem roundsTo_roundTo (n : Nat) (d : Decimal) : RoundsTo n d.value (d.roundTo n).value := by
  by_cases h : d.places ≤ n
  · obtain ⟨k, hk⟩ := value_mul_pow_of_places_le h
    rw [roundTo_eq_self n d h]
    exact roundsTo_self hk
  · have hne : (10 : ℚ) ^ n ≠ 0 := pow_ne_zero _ (by norm_num)
    have hne' : (10 : ℚ) ^ (d.places - n) ≠ 0 := pow_ne_zero _ (by norm_num)
    have hpow : (10 : ℚ) ^ d.places = 10 ^ n * 10 ^ (d.places - n) := by
      rw [← pow_add, Nat.add_sub_cancel' (by omega)]
    have hwhole : d.scaled = d.coefficient := by
      have hexponent : d.exponent.toNat = 0 := by
        rw [places] at h
        omega
      rw [scaled, hexponent, Nat.pow_eq, Nat.pow_zero, Nat.mul_one]
    have hvalue : d.value * 10 ^ n = signFactor d.negative *
        ((d.coefficient : ℚ) / (Nat.pow 10 (d.places - n) : Nat)) := by
      rw [value_eq, hwhole, hpow, Nat.pow_eq]
      push_cast
      field_simp
    have hnearest := isNearest_roundDiv d.coefficient
      (Nat.pow_pos (by decide) : 0 < Nat.pow 10 (d.places - n))
    obtain ⟨l, hl, hsign⟩ := isNearest_signFactor hnearest d.negative
    refine ⟨l, hvalue ▸ hl, ?_⟩
    rw [hsign, roundTo, if_neg h, value, zpow_neg, zpow_natCast, ← div_eq_mul_inv,
      Int.cast_natCast, mul_div_assoc, signFactor]
    rfl

end Decimal

/-! ### The exact value of a double precision number -/

/-- The exact value of a finite number. -/
def Binary64.value (negative : Bool) (units : Nat) : ℚ :=
  Decimal.signFactor negative * (units / 2 ^ unitExponent)

theorem Binary64.value_exactDecimal (negative : Bool) (units : Nat) :
    (exactDecimal negative units).value = value negative units := by
  have htwo : (2 : ℚ) ^ unitExponent ≠ 0 := pow_ne_zero _ (by norm_num)
  have hfive : (5 : ℚ) ^ unitExponent ≠ 0 := pow_ne_zero _ (by norm_num)
  have hten : (10 : ℚ) ^ unitExponent = 2 ^ unitExponent * 5 ^ unitExponent := by
    rw [← mul_pow]
    norm_num
  rw [Decimal.value, exactDecimal, value, Decimal.signFactor, zpow_neg, zpow_natCast, hten,
    Nat.pow_eq, Nat.cast_mul, Nat.cast_pow, Nat.cast_ofNat]
  congr 1
  field_simp

/-- A finite number is written rounded to the given places. -/
theorem Literal.value?_fixed (precision : Nat) (negative : Bool) (units : Nat) :
    ∃ q, value? (fixed precision negative units) = some q ∧
      RoundsTo precision (Binary64.value negative units) q := by
  refine ⟨_, value?_toPlain _, ?_⟩
  rw [← Binary64.value_exactDecimal]
  exact Decimal.roundsTo_roundTo precision _

end QuizFormula

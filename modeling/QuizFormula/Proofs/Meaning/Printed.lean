import QuizFormula.Binary64.Shortest
import QuizFormula.Proofs.Meaning.Threshold

/-!
# Printed numbers read back

A number that has been rounded is a multiple of the step at its own size, also where
rounding has carried it to the next power of two (`Binary64.step_dvd_roundSignificand`). So
its exact decimal reads as the number itself, and a shorter one is only taken if it does:
whatever has been read is printed as a decimal that reads back as the same number
(`Binary64.ofDecimal_shortest`).
-/

namespace QuizFormula

namespace Binary64

/-- A significand has 53 binary digits, or is the next power of two. -/
theorem roundDiv_significandStep_le (num den : Nat) :
    roundDiv num (den * significandStep num den) ≤ 2 ^ 53 := by
  have hlt : num / den / significandStep num den < 2 ^ 53 := by
    rw [Nat.div_lt_iff_lt_mul (significandStep_pos num den), significandStep, Nat.pow_eq,
      ← pow_add]
    refine Nat.lt_log2_self.trans_le (Nat.pow_le_pow_right (by decide) ?_)
    rw [significandBits]
    omega
  rw [Nat.div_div_eq_div_mul] at hlt
  rcases roundDiv_eq_or num (den * significandStep num den) with h | h <;> omega

/-- A rounded number is a multiple of the step at its own size. -/
theorem step_dvd_roundSignificand (num den : Nat) :
    2 ^ ((roundSignificand num den).log2 - significandBits) ∣ roundSignificand num den := by
  have hle := roundDiv_significandStep_le num den
  rw [roundSignificand, ← significandStep]
  generalize roundDiv num (den * significandStep num den) = q at hle ⊢
  obtain ⟨e, he⟩ : ∃ e, significandStep num den = 2 ^ e := ⟨_, rfl⟩
  rw [he]
  rcases Nat.lt_or_eq_of_le hle with hlt | rfl
  · -- The size is that of the quotient, so the step is the same or less.
    have hsize : (q * 2 ^ e).log2 - significandBits ≤ e := by
      rcases Nat.eq_zero_or_pos (q * 2 ^ e) with hzero | hpos
      · rw [hzero, Nat.log2_zero]
        omega
      · have hlog : (q * 2 ^ e).log2 < 53 + e := by
          rw [Nat.log2_lt hpos.ne', pow_add]
          exact Nat.mul_lt_mul_of_pos_right hlt (Nat.two_pow_pos e)
        rw [significandBits]
        omega
    exact (pow_dvd_pow 2 hsize).trans (Nat.dvd_mul_left _ q)
  · rw [← pow_add, Nat.log2_two_pow]
    exact pow_dvd_pow 2 (Nat.sub_le _ _)

/-- A multiple of the step at its own size is not rounded. -/
theorem roundSignificand_mul_self {units den : Nat} (hden : 0 < den)
    (h : 2 ^ (units.log2 - significandBits) ∣ units) :
    roundSignificand (units * den) den = units := by
  have hdvd : significandStep (units * den) den ∣ units := by
    rwa [significandStep, Nat.mul_div_cancel units hden, Nat.pow_eq]
  exact Nat.le_antisymm (roundSignificand_le hden hdvd (Nat.le_refl _))
    (le_roundSignificand hden hdvd (Nat.le_refl _))

/-- The exact decimal of a number that has been read reads back as the number. -/
theorem readsBack_exact {negative sign : Bool} {num den units : Nat}
    (h : ofRatio negative num den = .finite sign units) :
    readsBack units (units * Nat.pow 5 unitExponent) = true := by
  obtain ⟨-, hunits, hlt⟩ := ofRatio_eq_finite_iff.1 h
  have hdvd := step_dvd_roundSignificand (num * Nat.pow 2 unitExponent) den
  rw [hunits] at hdvd
  have hten : ∀ n, Nat.pow 10 n = Nat.pow 5 n * Nat.pow 2 n := Nat.mul_pow 5 2
  have hpos : ∀ n, 0 < Nat.pow 10 n := fun n => Nat.pow_pos (by decide)
  have hscaled : units * Nat.pow 5 unitExponent * Nat.pow 2 unitExponent =
      units * Nat.pow 10 unitExponent := by
    rw [hten, Nat.mul_assoc]
  rw [readsBack, decide_eq_true_eq, ofRatio_eq_finite_iff, hscaled]
  exact ⟨rfl, roundSignificand_mul_self (hpos _) hdvd, hlt⟩

theorem readsBack_shortest {units : Nat}
    (h : readsBack units (units * Nat.pow 5 unitExponent) = true) (negative : Bool) :
    readsBack units (shortest negative units).coefficient = true := by
  unfold shortest
  dsimp only
  cases hfound : (List.range maxShortestDigits).findSome? fun n =>
      gridNeighbour? units (units * Nat.pow 5 unitExponent)
        (Nat.pow 10 ((Nat.toDigits 10 (units * Nat.pow 5 unitExponent)).length - (n + 1))) with
  | none => exact h
  | some c =>
      obtain ⟨n, -, hn⟩ := List.exists_of_findSome?_eq_some hfound
      exact readsBack_of_gridNeighbour? hn

/-- The decimal that is printed for a number that has been read reads back as the number. -/
theorem ofDecimal_shortest {d : Decimal} {negative : Bool} {units : Nat}
    (h : ofDecimal d = .finite negative units) :
    ofDecimal (shortest negative units) = .finite negative units := by
  have hread := readsBack_shortest (readsBack_exact h) negative
  rw [readsBack, decide_eq_true_eq, ofRatio_eq_finite_iff] at hread
  have hscaled : (shortest negative units).scaled = (shortest negative units).coefficient :=
    Nat.mul_one _
  rw [ofDecimal, ofRatio_eq_finite_iff, hscaled]
  exact ⟨rfl, hread.2⟩

end Binary64

end QuizFormula

/-!
# Rounding a quotient

`roundDiv num den` is the natural number nearest to `num / den`, a half going to
the even neighbour. Binary numbers and decimals with a fixed number of places are
both rounded by it. Its laws: multiples of the divisor are kept, and the result is
within half a unit of the quotient.
-/

namespace QuizFormula

/-- The natural number nearest to `num / den`; halfway between two, the even one. -/
def roundDiv (num den : Nat) : Nat :=
  let q := num / den
  let r := num % den
  if 2 * r < den then q
  else if den < 2 * r then q + 1
  else q + q % 2

theorem roundDiv_mul (q den : Nat) (h : 0 < den) : roundDiv (q * den) den = q := by
  simp [roundDiv, Nat.mul_div_cancel q h, h]

/-- The result is one of the two natural numbers around the quotient. -/
theorem roundDiv_eq_or (num den : Nat) :
    roundDiv num den = num / den ∨ roundDiv num den = num / den + 1 := by
  have hmod := Nat.mod_two_eq_zero_or_one (num / den)
  simp only [roundDiv]
  split
  · exact Or.inl rfl
  · split
    · exact Or.inr rfl
    · omega

/-- The result is at most half a unit above the quotient. -/
theorem two_mul_roundDiv_mul_le (num den : Nat) :
    2 * (roundDiv num den * den) ≤ 2 * num + den := by
  have hsplit := Nat.div_add_mod num den
  have hcomm := Nat.mul_comm den (num / den)
  have hmod := Nat.mod_two_eq_zero_or_one (num / den)
  simp only [roundDiv]
  split
  · omega
  · split
    · rw [Nat.add_mul, Nat.one_mul]
      omega
    · rcases hmod with h | h <;> rw [h]
      · rw [Nat.add_zero]
        omega
      · rw [Nat.add_mul, Nat.one_mul]
        omega

/-- The result is at most half a unit below the quotient. -/
theorem two_mul_le_two_mul_roundDiv_mul (num den : Nat) (hden : 0 < den) :
    2 * num ≤ 2 * (roundDiv num den * den) + den := by
  have hsplit := Nat.div_add_mod num den
  have hcomm := Nat.mul_comm den (num / den)
  have hmod := Nat.mod_two_eq_zero_or_one (num / den)
  have hlt := Nat.mod_lt num hden
  simp only [roundDiv]
  split
  · omega
  · split
    · rw [Nat.add_mul, Nat.one_mul]
      omega
    · rcases hmod with h | h <;> rw [h]
      · rw [Nat.add_zero]
        omega
      · rw [Nat.add_mul, Nat.one_mul]
        omega

end QuizFormula

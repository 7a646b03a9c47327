import Mathlib.Algebra.Order.Field.Basic
import Mathlib.Data.Rat.Cast.Defs
import QuizFormula.Proofs.Grammar.Plain

/-!
# The exact value of a literal

A literal denotes a rational number, whatever number a computer reads it as. An
exponent counts with all its digits here.
-/

namespace QuizFormula

def Decimal.value (d : Decimal) : ℚ :=
  (if d.negative then -1 else 1) * (d.coefficient * 10 ^ d.exponent)

def Numeral.value (n : Numeral) : ℚ :=
  (n.toDecimal ((n.exponent.map Exponent.value).getD 0)).value

theorem Numeral.value_of_exponent {n : Numeral} {e : Exponent} (he : n.exponent = some e) :
    n.value = (n.toDecimal e.value).value := by
  rw [value, he, Option.map_some, Option.getD_some]

/-- The rational number that a literal denotes. -/
def Literal.value? (l : Text) : Option ℚ := (Numeral.ofText? l).map Numeral.value

/-- A number is its own numeral. -/
theorem Numeral.ofText?_text {n : Numeral} (hn : n.WellFormed) (hne : n.whole ≠ []) :
    ofText? n.text = some n :=
  (ofText?_eq_some_iff _ _).2 ⟨hn, by simp [digits, hne], rfl⟩

theorem Literal.value?_toDigits (n : Nat) : value? (Nat.toDigits 10 n) = some (n : ℚ) := by
  have hwf : (⟨none, Nat.toDigits 10 n, none, none⟩ : Numeral).WellFormed := by
    constructor
    · exact digits_toDigits n
    · simp
    · simp
  have hread := Numeral.ofText?_text hwf Nat.toDigits_ne_nil
  have htext : (⟨none, Nat.toDigits 10 n, none, none⟩ : Numeral).text = Nat.toDigits 10 n := by
    simp [Numeral.text, signText, fractionText, exponentText]
  rw [htext] at hread
  simp [value?, hread, Numeral.value, Numeral.toDecimal, Numeral.digits, Decimal.value,
    digitsValue_eq]

end QuizFormula

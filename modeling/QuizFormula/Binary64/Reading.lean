import QuizFormula.Binary64.Basic
import QuizFormula.Numeral

/-!
# Reading double precision numbers

A text reads as a double precision number when the whole of it is a numeral with a
digit on either side of its point, or one of the words `inf`, `infinity` and `nan`
in any letter case after an optional sign. A numeral reads as the number nearest to
its value.
-/

namespace QuizFormula

namespace Binary64

/-- The number named by a word. -/
def ofWord? (negative : Bool) (word : Text) : Option Binary64 :=
  let lower := word.map Char.toLower
  if lower = "inf".toList ∨ lower = "infinity".toList then some (.infinite negative)
  else if lower = "nan".toList then some .nan
  else none

/-- The number nearest to the value of a numeral. -/
def ofNumeral (n : Numeral) : Binary64 :=
  ofDecimal (n.toDecimal ((n.exponent.map Exponent.saturated).getD 0))

/-- The number that a text reads as. -/
def ofText? (s : Text) : Option Binary64 :=
  match Numeral.ofText? s with
  | some n => some (ofNumeral n)
  | none =>
    let (sign, word) := scanSign s
    ofWord? (sign = some .minus) word

theorem ofText?_eq_ofNumeral {s : Text} {n : Numeral} (h : Numeral.ofText? s = some n) :
    ofText? s = some (ofNumeral n) := by
  simp [ofText?, h]

end Binary64

end QuizFormula

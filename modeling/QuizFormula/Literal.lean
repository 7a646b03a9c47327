import QuizFormula.Binary64.Reading
import QuizFormula.Diagnostic
import QuizFormula.Options

/-!
# Number literals for `fp`

`fp` reads plain decimals only, so a literal with an exponent is expanded. If it
reads as a finite double precision number, that number is written with a fixed
number of places; if it lies beyond that range, the decimal itself is written out,
as long as it stays short. Any other text is kept. A literal whose magnitude exceeds
the limit is reported, whether or not it is rewritten: the text depends on the
precision alone, the report on the limit alone.
-/

namespace QuizFormula

namespace Literal

/-- How far the point of an expanded decimal may stand from the start of its
digits. -/
def maxExpandedDigits : Nat := 1024

def fitsWord (e : Int) : Bool := -Nat.pow 2 63 ≤ e && e < Nat.pow 2 63

/-- A finite number written with at most `precision` places. -/
def fixed (precision : Nat) (negative : Bool) (units : Nat) : Text :=
  ((Binary64.exactDecimal negative units).roundTo precision).toPlain

/-- The digits before and after a point that stands `point` places after the start of
the digits. Zeros are put between the digits and a point that lies outside of them. -/
def splitAtPoint (digits : Text) (point : Int) : Text × Text :=
  if point ≤ 0 then (['0'], List.replicate point.natAbs '0' ++ digits)
  else
    let n := point.toNat
    (digits.take n ++ List.replicate (n - digits.length) '0', digits.drop n)

/-- A numeral written out without its exponent `e`, by moving its point. It is refused
when the point would stand too far from the start of the digits. -/
def expanded? (n : Numeral) (e : Int) : Option Text :=
  let point := n.whole.length + e
  if fitsWord e ∧ point.natAbs ≤ maxExpandedDigits then
    let (whole, fraction) := splitAtPoint n.digits point
    some (Decimal.plainText (n.sign = some .minus) whole fraction)
  else none

/-- A literal with an exponent in a form that `fp` reads, whenever there is one, from
the number that the literal reads as. -/
def writtenOut (precision : Nat) (literal : Text) (n : Numeral) (e : Exponent) :
    Binary64 → Text
  | .finite negative units => fixed precision negative units
  | _ => (expanded? n e.value).getD literal

/-- The literal in a form that `fp` reads, whenever there is one. -/
def text (precision : Nat) (literal : Text) : Text :=
  match Numeral.ofText? literal with
  | none => literal
  | some n =>
    match n.exponent with
    | none => literal
    | some e => writtenOut precision literal n e (Binary64.ofNumeral n)

/-- The report of a literal whose magnitude exceeds the limit. -/
def warning? (limit : Binary64) (literal : Text) : Option Diagnostic :=
  match Binary64.ofText? literal with
  | none => none
  | some x => if limit.lt x.abs then some (.overflow literal) else none

/-- The literal in a form that `fp` reads, and the report if there is one. -/
def normalize (o : Options) (literal : Text) : Text × Option Diagnostic :=
  (text o.fixedPrecision literal, warning? o.overflowLimit literal)

theorem text_of_ofText?_eq_none (precision : Nat) {literal : Text}
    (h : Numeral.ofText? literal = none) : text precision literal = literal := by
  simp [text, h]

theorem text_of_exponent_eq_none (precision : Nat) {literal : Text} {n : Numeral}
    (h : Numeral.ofText? literal = some n) (he : n.exponent = none) :
    text precision literal = literal := by
  simp [text, h, he]

theorem text_of_exponent_eq_some (precision : Nat) {literal : Text} {n : Numeral}
    {e : Exponent} (h : Numeral.ofText? literal = some n) (he : n.exponent = some e) :
    text precision literal = writtenOut precision literal n e (Binary64.ofNumeral n) := by
  simp [text, h, he]

end Literal

end QuizFormula

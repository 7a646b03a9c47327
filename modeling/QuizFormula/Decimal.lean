import QuizFormula.Rounding
import QuizFormula.Text

/-!
# Decimals and their plain notation

A decimal is a signed natural number times a power of ten. `toPlain` writes it
without an exponent: no superfluous zero in front, no zero at the end of the
fraction, no dangling point. The sign is written whenever the decimal carries one,
so zero may be written `-0`. `roundTo` keeps a given number of places after the
point, a half going to the even neighbour.
-/

namespace QuizFormula

/-- The number `±coefficient * 10 ^ exponent`. The sign is kept apart from the
coefficient, since zero may carry one. -/
structure Decimal where
  negative : Bool
  coefficient : Nat
  exponent : Int
deriving DecidableEq, Repr

/-- The digits of a fraction without the zeros at its end. -/
def dropTrailingZeros (digits : Text) : Text :=
  (digits.reverse.dropWhile (· = '0')).reverse

/-- The digits of a whole number without the zeros in front; for zero, one of them. -/
def dropLeadingZeros (digits : Text) : Text :=
  match digits.dropWhile (· = '0') with
  | [] => ['0']
  | c :: s => c :: s

/-- The fraction `n / 10 ^ places` after its point: `places` digits, less the zeros
at the end. -/
def fractionDigits (places n : Nat) : Text :=
  dropTrailingZeros ((Nat.toDigits 10 n).leftpad places '0')

namespace Decimal

/-- Digits before and after a point, without superfluous zeros and without a dangling
point. -/
def plainText (negative : Bool) (whole fraction : Text) : Text :=
  let sign : Text := if negative then ['-'] else []
  let fraction := dropTrailingZeros fraction
  sign ++ dropLeadingZeros whole ++ (if fraction.isEmpty then [] else '.' :: fraction)

/-- How many digits stand after the point when nothing is dropped. -/
def places (d : Decimal) : Nat := (-d.exponent).toNat

/-- The magnitude of the decimal as a multiple of `10 ^ (-places)`. -/
def scaled (d : Decimal) : Nat := d.coefficient * Nat.pow 10 d.exponent.toNat

def toPlain (d : Decimal) : Text :=
  let sign : Text := if d.negative then ['-'] else []
  let whole := Nat.toDigits 10 (d.scaled / Nat.pow 10 d.places)
  let fraction := fractionDigits d.places (d.scaled % Nat.pow 10 d.places)
  sign ++ whole ++ (if fraction.isEmpty then [] else '.' :: fraction)

/-- The nearest decimal with at most `n` digits after the point. -/
def roundTo (n : Nat) (d : Decimal) : Decimal :=
  if d.places ≤ n then d
  else ⟨d.negative, roundDiv d.coefficient (Nat.pow 10 (d.places - n)), -n⟩

theorem roundTo_eq_self (n : Nat) (d : Decimal) (h : d.places ≤ n) : d.roundTo n = d := by
  simp [roundTo, h]

theorem places_roundTo_le (n : Nat) (d : Decimal) : (d.roundTo n).places ≤ n := by
  unfold roundTo
  split
  · assumption
  · simp [places]

@[simp] theorem negative_roundTo (n : Nat) (d : Decimal) :
    (d.roundTo n).negative = d.negative := by
  unfold roundTo
  split <;> rfl

end Decimal

end QuizFormula

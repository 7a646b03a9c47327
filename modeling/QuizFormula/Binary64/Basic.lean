import QuizFormula.Decimal

/-!
# Double precision numbers

A finite double precision number is a whole multiple of `2 ^ (-1074)`, the smallest
positive one. It is therefore kept as a sign and a natural number of these units,
and reading, rounding, comparing and printing are exact arithmetic on natural
numbers. A quotient is rounded to the nearest number with a significand of 53 binary
digits, a half going to the even one (`ofRatio`); at `2 ^ 1024` and above lies
infinity.
-/

namespace QuizFormula

/-- A number in the binary64 format. Zero carries a sign; the payload of a NaN is
not kept. -/
inductive Binary64 where
  | nan
  | infinite (negative : Bool)
  | finite (negative : Bool) (units : Nat)
deriving DecidableEq, Repr

namespace Binary64

/-- One unit is `2 ^ (-unitExponent)`. -/
def unitExponent : Nat := 1074

/-- The number of binary digits of a significand, less one. -/
def significandBits : Nat := 52

/-- The number of units in `2 ^ 1024`, the least magnitude that is not finite. -/
def unitsBound : Nat := Nat.pow 2 2098

/-- The quotient `num / den` rounded to a natural number of at most 53 significant
binary digits. -/
def roundSignificand (num den : Nat) : Nat :=
  let step := Nat.pow 2 ((num / den).log2 - significandBits)
  roundDiv num (den * step) * step

/-- The number nearest to `±num / den`. -/
def ofRatio (negative : Bool) (num den : Nat) : Binary64 :=
  let units := roundSignificand (num * Nat.pow 2 unitExponent) den
  if units < unitsBound then .finite negative units else .infinite negative

def ofDecimal (d : Decimal) : Binary64 := ofRatio d.negative d.scaled (Nat.pow 10 d.places)

/-- The exact value of a finite number, as a decimal: a unit is
`5 ^ 1074 / 10 ^ 1074`. -/
def exactDecimal (negative : Bool) (units : Nat) : Decimal :=
  ⟨negative, units * Nat.pow 5 unitExponent, -unitExponent⟩

def signedUnits (negative : Bool) (units : Nat) : Int :=
  if negative then -units else units

/-- Whether one number is less than another. A NaN is not comparable, and the two
zeros are equal. -/
def lt : Binary64 → Binary64 → Bool
  | .nan, _ => false
  | _, .nan => false
  | .infinite a, .infinite b => a && !b
  | .infinite a, .finite _ _ => a
  | .finite _ _, .infinite b => !b
  | .finite a m, .finite b n => signedUnits a m < signedUnits b n

def abs : Binary64 → Binary64
  | .nan => .nan
  | .infinite _ => .infinite false
  | .finite _ m => .finite false m

def zero : Binary64 := .finite false 0

/-- The whole number `n`, for an `n` of at most 53 significant binary digits. -/
def ofNat (n : Nat) : Binary64 := ofRatio false n 1

@[simp] theorem lt_nan (x : Binary64) : lt x .nan = false := by
  cases x <;> rfl

end Binary64

end QuizFormula

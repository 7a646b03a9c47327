import QuizFormula.Binary64.Basic

/-!
# The shortest decimal of a double precision number

A double precision number is printed with the fewest digits that read back as the
same number, and never with an exponent. For 1, 2, … digits the two decimals around
the number on the grid of that many digits are tried; the first grid with a decimal
that reads back wins, of two such decimals the nearer one, and halfway the upper
one. Seventeen digits always suffice, and the exact decimal stands in should they
not.
-/

namespace QuizFormula

namespace Binary64

/-- The most digits that are needed to tell double precision numbers apart. -/
def maxShortestDigits : Nat := 17

/-- Whether the decimal `c * 10 ^ (-1074)` reads as the number of the given units. -/
def readsBack (units c : Nat) : Bool :=
  ofRatio false c (Nat.pow 10 unitExponent) = .finite false units

/-- Of two neighbours of `x` the one that is admitted; if both are, the nearer one, and
halfway the upper one. -/
def nearerAdmitted? (admitted : Nat → Bool) (x lower upper : Nat) : Option Nat :=
  match admitted lower, admitted upper with
  | true, true => some (if 2 * x < lower + upper then lower else upper)
  | true, false => some lower
  | false, true => some upper
  | false, false => none

theorem admitted_of_nearerAdmitted? {admitted : Nat → Bool} {x lower upper c : Nat}
    (h : nearerAdmitted? admitted x lower upper = some c) : admitted c = true := by
  unfold nearerAdmitted? at h
  split at h
  · split at h <;> simp_all
  · simp_all
  · simp_all
  · simp at h

/-- The multiple of `step` next to `exact` that reads back as `units`, if there is
one. -/
def gridNeighbour? (units exact step : Nat) : Option Nat :=
  let lower := exact / step * step
  nearerAdmitted? (readsBack units) exact lower (lower + step)

/-- The shortest decimal that reads back as the finite number. -/
def shortest (negative : Bool) (units : Nat) : Decimal :=
  let exact := units * Nat.pow 5 unitExponent
  let length := (Nat.toDigits 10 exact).length
  let found := (List.range maxShortestDigits).findSome? fun n =>
    gridNeighbour? units exact (Nat.pow 10 (length - (n + 1)))
  ⟨negative, found.getD exact, -unitExponent⟩

/-- The printed form of a number. -/
def toText : Binary64 → Text
  | .nan => "NaN".toList
  | .infinite false => "inf".toList
  | .infinite true => "-inf".toList
  | .finite negative units => (shortest negative units).toPlain

theorem readsBack_of_gridNeighbour? {units exact step c : Nat}
    (h : gridNeighbour? units exact step = some c) : readsBack units c = true := by
  unfold gridNeighbour? at h
  exact admitted_of_nearerAdmitted? h

end Binary64

end QuizFormula

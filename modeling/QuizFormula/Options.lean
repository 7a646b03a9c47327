import QuizFormula.Error

/-!
# Options for number literals

The options say how number literals are prepared for `fp`: from which magnitude on
they are reported, and how many fractional digits are written. By default they are
the limits of `fp` itself, which keeps 18 digits on either side of the point.
-/

namespace QuizFormula

/-- Options for number literals. -/
structure Options where
  /-- Literals of a greater magnitude are reported. -/
  overflowLimit : Binary64 := Binary64.ofNat (Nat.pow 10 18)
  /-- The most digits that are written after the point of an expanded literal. -/
  fixedPrecision : Nat := Error.maxPrecision
deriving DecidableEq, Repr

namespace Options

def default : Options := {}

/-- Options that a translator can be made with. -/
def Valid (o : Options) : Prop :=
  Binary64.lt .zero o.overflowLimit = true ∧
    1 ≤ o.fixedPrecision ∧ o.fixedPrecision ≤ Error.maxPrecision

instance (o : Options) : Decidable o.Valid := by
  unfold Valid
  infer_instance

/-- Options are refused for their limit first, then for their precision. A NaN is no
positive number. -/
def check (o : Options) : Except Error Unit :=
  if Binary64.lt .zero o.overflowLimit = false then .error (.overflowLimit o.overflowLimit)
  else if o.fixedPrecision = 0 ∨ Error.maxPrecision < o.fixedPrecision then
    .error (.fixedPrecision o.fixedPrecision)
  else .ok ()

theorem check_eq_ok_iff (o : Options) : o.check = .ok () ↔ o.Valid := by
  unfold check Valid
  split
  · simp_all
  · split
    · simp_all
      omega
    · simp_all
      omega

end Options

end QuizFormula

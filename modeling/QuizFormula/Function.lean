import QuizFormula.Diagnostic

/-!
# Functions that both dialects have

Some functions exist in both dialects and differ in their name at most. A call of
such a function is renamed, a call of any other one is kept and reported; the report
tells apart the functions that the target is known to lack. Calls that need more
than a new name (`pow`, `sqrt`, `root`, `pi`, `neg`, `clip`) are left to the two
directions.
-/

namespace QuizFormula

/-- A function that both dialects have. -/
inductive SharedFunction where
  | sin
  | cos
  | tan
  | arcsin
  | arccos
  | arctan
  | abs
  | exp
  | ln
  | min
  | max
deriving DecidableEq, Repr

namespace SharedFunction

def all : List SharedFunction :=
  [sin, cos, tan, arcsin, arccos, arctan, abs, exp, ln, min, max]

def moodleName : SharedFunction → Text
  | sin => "sin".toList
  | cos => "cos".toList
  | tan => "tan".toList
  | arcsin => "asin".toList
  | arccos => "acos".toList
  | arctan => "atan".toList
  | abs => "abs".toList
  | exp => "exp".toList
  | ln => "log".toList
  | min => "min".toList
  | max => "max".toList

def fpName : SharedFunction → Text
  | sin => "sin".toList
  | cos => "cos".toList
  | tan => "tan".toList
  | arcsin => "arcsin".toList
  | arccos => "arccos".toList
  | arctan => "arctan".toList
  | abs => "abs".toList
  | exp => "exp".toList
  | ln => "ln".toList
  | min => "min".toList
  | max => "max".toList

def name : Dialect → SharedFunction → Text
  | .moodle => moodleName
  | .fp => fpName

/-- The function of this name in a dialect. -/
def ofName? (d : Dialect) (s : Text) : Option SharedFunction :=
  all.find? fun f => f.name d = s

theorem mem_all (f : SharedFunction) : f ∈ all := by
  cases f <;> decide

/-- In either dialect different functions have different names. -/
@[simp] theorem ofName?_name (d : Dialect) (f : SharedFunction) :
    ofName? d (f.name d) = some f := by
  cases d <;> cases f <;> decide

theorem name_of_ofName? {d : Dialect} {s : Text} {f : SharedFunction}
    (h : ofName? d s = some f) : f.name d = s := by
  have hs := List.find?_some h
  simpa using hs

end SharedFunction

namespace Dialect

/-- The dialect that formulas of a given dialect are translated to. -/
def opposite : Dialect → Dialect
  | moodle => fp
  | fp => moodle

/-- Functions of the opposite dialect that a dialect is known to lack. -/
def lacking : Dialect → List Text
  | moodle =>
    ["round", "trunc", "cot", "arccot", "random", "seed"].map String.toList
  | fp =>
    ["atan2", "atanh", "bindec", "decbin", "decoct", "deg2rad", "expm1", "fmod",
      "is_finite", "is_infinite", "is_nan", "log10", "log1p", "octdec", "rad2deg", "rand",
      "cosh", "sinh", "tanh", "acosh", "asinh", "ceil", "floor"].map String.toList

/-- The name in the target dialect of a function that both dialects have. -/
def rename? (target : Dialect) (s : Text) : Option Text :=
  (SharedFunction.ofName? target.opposite s).map fun f => f.name target

/-- The name that a call has in the target dialect; unknown names are kept. -/
def rename (target : Dialect) (s : Text) : Text := (target.rename? s).getD s

/-- The report of a call of a function that is not shared. -/
def refusal (target : Dialect) (s : Text) : Diagnostic :=
  if s ∈ target.lacking then .unsupported s target else .unknown s

/-- What is reported of a call that is renamed or kept. -/
def renameReport (target : Dialect) (s : Text) : List Diagnostic :=
  if (target.rename? s).isSome then [] else [target.refusal s]

theorem rename?_name (target : Dialect) (f : SharedFunction) :
    target.rename? (f.name target.opposite) = some (f.name target) := by
  simp [rename?]

/-- Renaming there and back gives the first name again. -/
theorem rename?_opposite_of_rename? {target : Dialect} {s t : Text}
    (h : target.rename? s = some t) : target.opposite.rename? t = some s := by
  obtain ⟨f, hf, rfl⟩ := Option.map_eq_some_iff.1 h
  have hs := SharedFunction.name_of_ofName? hf
  subst hs
  cases target with
  | moodle => exact rename?_name .fp f
  | fp => exact rename?_name .moodle f

end Dialect

end QuizFormula

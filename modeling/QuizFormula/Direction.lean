import QuizFormula.Dialect

/-!
# The directions of translation

A translation goes from one dialect to the other. Each direction is registered
under a name, by which users choose it.
-/

namespace QuizFormula

/-- A direction of translation. -/
inductive Direction where
  /-- From Moodle blocks to `fp` expressions. -/
  | toFp
  /-- From `fp` blocks to Moodle blocks. -/
  | toMoodle
deriving DecidableEq, Repr

namespace Direction

/-- All directions, in the order in which they are listed to the user. -/
def all : List Direction := [toFp, toMoodle]

def name : Direction → Text
  | toFp => "xml2fp".toList
  | toMoodle => "fp2xml".toList

/-- The direction registered under exactly this name. -/
def ofName? (s : Text) : Option Direction := all.find? fun d => d.name = s

def source : Direction → Dialect
  | toFp => .moodle
  | toMoodle => .fp

@[simp] theorem ofName?_name (d : Direction) : ofName? d.name = some d := by
  cases d <;> decide

end Direction

end QuizFormula

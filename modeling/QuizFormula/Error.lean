import QuizFormula.Binary64.Shortest
import QuizFormula.Direction

/-!
# Errors

A translator is refused for three causes only: its name is not registered, or one of
its two options is out of range. Nothing inside a document is an error of this kind;
what goes wrong there is reported as a diagnostic.
-/

namespace QuizFormula

/-- Why a translator cannot be made. -/
inductive Error where
  /-- No direction is registered under the name. -/
  | unknownName (name : Text)
  /-- The overflow limit is not a positive number. -/
  | overflowLimit (limit : Binary64)
  /-- The number of fractional digits is out of range. -/
  | fixedPrecision (digits : Nat)
deriving DecidableEq, Repr

namespace Error

/-- The greatest number of fractional digits that `fp` keeps. -/
def maxPrecision : Nat := 18

def message : Error → Text
  | unknownName name =>
    "Unknown calculated parser '".toList ++ name ++ "', expected one of: ".toList ++
      List.intercalate ", ".toList (Direction.all.map Direction.name)
  | overflowLimit limit =>
    "Invalid option: overflow limit must be a positive number, got ".toList ++ limit.toText
  | fixedPrecision digits =>
    "Invalid option: fixed precision must be between 1 and ".toList ++
      Nat.toDigits 10 maxPrecision ++ ", got ".toList ++ Nat.toDigits 10 digits

end Error

def Direction.ofName (s : Text) : Except Error Direction :=
  match Direction.ofName? s with
  | some d => .ok d
  | none => .error (.unknownName s)

end QuizFormula

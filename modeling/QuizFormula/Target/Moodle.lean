import QuizFormula.Binary64.Reading
import QuizFormula.Expr.Rendering
import QuizFormula.Expr.Survey
import QuizFormula.Function

/-!
# Formulas for Moodle

How a formula of an `fp` block is written for Moodle. Numbers are kept as they are
written. The bare name `pi` is the constant and not a wildcard. Moodle has no root of
any degree: a root of degree two becomes a square root, any other one a power. A
power has the base first, `neg` becomes a minus sign, and `clip` is left out, its
parentheses being kept.
-/

namespace QuizFormula

namespace Moodle

def pi : Text := "pi()".toList

/-- The name that is pi when it stands alone. -/
def piName : Text := "pi".toList

/-- Whether a written degree reads as the number two. -/
def isTwo (degree : Text) : Bool := Binary64.ofText? degree = some (Binary64.ofNat 2)

/-- A root of the given degree, both written. -/
def root (degree radicand : Text) : Text :=
  if isTwo degree then callText "sqrt".toList [radicand]
  else callText "pow".toList [radicand, "1/(".toList ++ (degree ++ [')'])]

/-- How a call is written for Moodle. The arguments of `pi` are left out. -/
def call (name : Text) (args : List Text) : Text :=
  if name = "root".toList then
    match args with
    | [degree, radicand] => root degree radicand
    | _ => callText name args
  else if name = "pow".toList then callText name (exchangePair args)
  else if name = "neg".toList then '-' :: callText [] args
  else if name = "clip".toList then callText [] args
  else if name = "pi".toList then pi
  else callText (Dialect.moodle.rename name) args

/-- The functions whose calls need more than a new name, whatever their number of
arguments is. -/
def rewritten : List Text := ["pow", "neg", "clip", "pi"].map String.toList

/-- Whether a call with so many arguments needs more than a new name. -/
def isRewritten (name : Text) (arity : Nat) : Bool :=
  name ∈ rewritten || (name = "root".toList && arity = 2)

/-- How formulas are written for Moodle. -/
def rendering : Rendering where
  number l := l
  wildcard n := if n = piName then pi else '{' :: (n ++ ['}'])
  minus a := '-' :: a
  call := call

def report : Survey Diagnostic where
  number _ := []
  wildcard _ := []
  call name arity := if isRewritten name arity then [] else Dialect.moodle.renameReport name

/-- The wildcards of a formula, for which Moodle needs values. -/
def wildcards (e : Expr) : List Text := (e.survey wildcardSurvey).filter (· ≠ piName)

def block (e : Expr) : Text :=
  Dialect.moodle.opener ++ (e.render rendering ++ ['}'])

end Moodle

end QuizFormula

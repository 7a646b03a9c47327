import QuizFormula.Expr.Rendering
import QuizFormula.Expr.Survey
import QuizFormula.Function
import QuizFormula.Literal
import QuizFormula.Name

/-!
# Formulas for `fp`

How a formula of a Moodle block is written for `fp`. A wildcard becomes a TeX macro,
whose name has letters only: underscores are left out, and what else is no letter is
reported. `fp` has no minus sign in front of an atom, no square root, a power with
the exponent first, and a macro for pi; everything else is a number or a renamed
call.
-/

namespace QuizFormula

/-- The name of the TeX macro of a wildcard: the name without its underscores. -/
def texName (name : Text) : Text := name.filter (· ≠ '_')

/-- Whether TeX takes the whole name as the name of one macro. -/
def isTexName (name : Text) : Bool := name.all Char.isAlpha

/-- The TeX macro of a wildcard. The blank ends its name. -/
def texMacro (name : Text) : Text := '\\' :: (texName name ++ [' '])

def namingReport (name : Text) : List Diagnostic :=
  if isTexName (texName name) then [] else [.naming (texName name)]

namespace Fp

/-- The text `root(2, x)`, which stands for a square root whatever the number of its
arguments is. -/
def squareRoot (args : List Text) : Text :=
  "root(2, ".toList ++ (commaSeparated args ++ [')'])

def pi : Text := '\\' :: piMacro

/-- How a call is written for `fp`. The arguments of `pi` are left out. -/
def call (name : Text) (args : List Text) : Text :=
  if name = "sqrt".toList then squareRoot args
  else if name = "pow".toList then callText name (exchangePair args)
  else if name = "pi".toList then pi
  else callText (Dialect.fp.rename name) args

/-- The functions whose calls need more than a new name. -/
def rewritten : List Text := ["sqrt", "pow", "pi"].map String.toList

/-- How formulas are written for `fp`. -/
def rendering (precision : Nat) : Rendering where
  number := Literal.text precision
  wildcard := texMacro
  minus a := "neg(".toList ++ (a ++ [')'])
  call := call

def report (limit : Binary64) : Survey Diagnostic where
  number l := (Literal.warning? limit l).toList
  wildcard := namingReport
  call name _ := if name ∈ rewritten then [] else Dialect.fp.renameReport name

/-- The LaTeX text before a formula, which opens its evaluation. -/
def blockOpening : Text := r"\FPprint{\FPeval{\out}{clip(".toList

/-- The LaTeX text after a formula, which prints the result. -/
def blockClosing : Text := r")}\out}".toList

/-- The LaTeX text that evaluates a formula and prints the result. -/
def block (precision : Nat) (e : Expr) : Text :=
  blockOpening ++ (e.render (rendering precision) ++ blockClosing)

/-- The LaTeX text that prints the value of a wildcard. -/
def standalone (name : Text) : Text :=
  r"\FPprint{".toList ++ (texMacro name ++ r"}".toList)

end Fp

end QuizFormula

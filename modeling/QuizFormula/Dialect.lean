import QuizFormula.Text

/-!
# The two dialects of formulas

Moodle keeps the formulas of calculated questions in blocks `{=…}` and writes a
variable in braces, `{x}`. LaTeX documents with the `fp` package keep them in
blocks `fp{…}` and write a variable as its bare name. Once such a formula is handed
to `fp`, its variables are TeX macros. Operators, numbers, groups and calls look the
same everywhere, so the way of writing wildcards is all that a reader needs to know.
-/

namespace QuizFormula

/-- A way of writing wildcards inside formulas. -/
inductive WildcardStyle where
  /-- The name in braces, `{x}`. -/
  | braced
  /-- The bare name, `x`. -/
  | bare
  /-- A TeX macro, `\x ` with a blank that ends its name. -/
  | tex
deriving DecidableEq, Repr

/-- A way of writing formulas. -/
inductive Dialect where
  /-- Blocks `{=…}` with variables in braces. -/
  | moodle
  /-- Blocks `fp{…}` with bare variables. -/
  | fp
deriving DecidableEq, Repr

namespace Dialect

def opener : Dialect → Text
  | moodle => ['{', '=']
  | fp => ['f', 'p', '{']

def wildcardStyle : Dialect → WildcardStyle
  | moodle => .braced
  | fp => .bare

/-- The name of the program that evaluates the formulas of the dialect. -/
def evaluator : Dialect → Text
  | moodle => "Moodle".toList
  | fp => "`fp` package".toList

theorem opener_ne_nil (d : Dialect) : d.opener ≠ [] := by
  cases d <;> simp [opener]

end Dialect

end QuizFormula

import QuizFormula.Dialect

/-!
# Formulas

A formula is a chain of atoms with operators between them; precedence is left to
whoever evaluates it. An atom is a number, a wildcard, a formula in parentheses, a
function call, or an atom with a minus sign in front. Numbers keep the text in which
they are written, their own sign included, so `1--2` is a difference whose second
atom is the number `-2`.
-/

namespace QuizFormula

inductive Operator where
  | add
  | sub
  | mul
  | div
deriving DecidableEq, Repr

def Operator.char : Operator → Char
  | add => '+'
  | sub => '-'
  | mul => '*'
  | div => '/'

mutual

/-- A formula: one atom, or an atom, an operator and a formula. -/
inductive Expr where
  | last (a : Atom)
  | chain (a : Atom) (op : Operator) (e : Expr)

/-- A part of a formula between operators. -/
inductive Atom where
  | number (literal : Text)
  | wildcard (name : Text)
  | group (e : Expr)
  | call (name : Text) (args : Args)
  | minus (a : Atom)

inductive Args where
  | nil
  | cons (e : Expr) (args : Args)

end

deriving instance DecidableEq for Expr, Atom, Args

def Args.length : Args → Nat
  | .nil => 0
  | .cons _ args => args.length + 1

end QuizFormula

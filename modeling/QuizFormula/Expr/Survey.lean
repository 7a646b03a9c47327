import QuizFormula.Expr.Basic

/-!
# Collecting from formulas

A survey says what to note of each number, wildcard and call of a formula. The notes
are collected from left to right, those of the arguments of a call before those of
the call itself. Diagnostics and names of wildcards are surveys.
-/

namespace QuizFormula

/-- What is noted of the parts of a formula. -/
structure Survey (β : Type) where
  /-- The notes on a number, from its literal. -/
  number : Text → List β
  /-- The notes on a wildcard, from its name. -/
  wildcard : Text → List β
  /-- The notes on a call, from its name and the number of its arguments. -/
  call : Text → Nat → List β

mutual

/-- All notes on a formula. -/
def Expr.survey {β : Type} (v : Survey β) : Expr → List β
  | .last a => a.survey v
  | .chain a _ e => a.survey v ++ e.survey v

def Atom.survey {β : Type} (v : Survey β) : Atom → List β
  | .number l => v.number l
  | .wildcard n => v.wildcard n
  | .group e => e.survey v
  | .call n args => args.survey v ++ v.call n args.length
  | .minus a => a.survey v

def Args.survey {β : Type} (v : Survey β) : Args → List β
  | .nil => []
  | .cons e args => e.survey v ++ args.survey v

end

def wildcardSurvey : Survey Text where
  number _ := []
  wildcard n := [n]
  call _ _ := []

/-- The survey of the names of functions, each with its number of arguments. -/
def callSurvey : Survey (Text × Nat) where
  number _ := []
  wildcard _ := []
  call n arity := [(n, arity)]

end QuizFormula

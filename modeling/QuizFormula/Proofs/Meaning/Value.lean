import QuizFormula.Expr.Survey

/-!
# The value of a formula

An interpretation says what numbers, wildcards, operators and functions mean. The
value of a formula follows from it by the usual rules: products and quotients before
sums and differences, and both from left to right. A formula is a plain chain of
atoms, so its value is found by going along the chain once, with what stands on the
left waiting for its right operand.
-/

namespace QuizFormula

/-- What the parts of formulas mean. -/
structure Interpretation (V : Type) where
  number : Text → V
  wildcard : Text → V
  /-- The value of an atom with a minus sign, from the value of the atom. -/
  minus : V → V
  /-- The value of two operands and the operator between them. -/
  operate : Operator → V → V → V
  /-- The value of a call, from the name of the function and the values of its
  arguments. -/
  call : Text → List V → V

variable {V : Type}

mutual

/-- The value of a formula on the right of a sum and, in its last summand, of a
product. Both wait for their right operand. -/
def Expr.valueAfter (I : Interpretation V) (sum product : V → V) : Expr → V
  | .last a => sum (product (a.value I))
  | .chain a .add e => e.valueAfter I (I.operate .add (sum (product (a.value I)))) id
  | .chain a .sub e => e.valueAfter I (I.operate .sub (sum (product (a.value I)))) id
  | .chain a .mul e => e.valueAfter I sum (I.operate .mul (product (a.value I)))
  | .chain a .div e => e.valueAfter I sum (I.operate .div (product (a.value I)))

def Atom.value (I : Interpretation V) : Atom → V
  | .number l => I.number l
  | .wildcard n => I.wildcard n
  | .group e => e.valueAfter I id id
  | .call n args => I.call n (args.values I)
  | .minus a => I.minus (a.value I)

def Args.values (I : Interpretation V) : Args → List V
  | .nil => []
  | .cons e args => e.valueAfter I id id :: args.values I

end

def Expr.value (I : Interpretation V) (e : Expr) : V := e.valueAfter I id id

@[simp] theorem Expr.value_last (I : Interpretation V) (a : Atom) :
    (Expr.last a).value I = a.value I := rfl

@[simp] theorem Atom.value_group (I : Interpretation V) (e : Expr) :
    (Atom.group e).value I = e.value I := rfl

@[simp] theorem Atom.value_call (I : Interpretation V) (n : Text) (args : Args) :
    (Atom.call n args).value I = I.call n (args.values I) := rfl

@[simp] theorem Args.values_nil (I : Interpretation V) : Args.nil.values I = [] := rfl

@[simp] theorem Args.values_cons (I : Interpretation V) (e : Expr) (args : Args) :
    (Args.cons e args).values I = e.value I :: args.values I := rfl

/-- `a - b * c / d - e` is `(a - ((b * c) / d)) - e`. -/
example (I : Interpretation V) (a b c d e : Atom) :
    (Expr.chain a .sub (.chain b .mul (.chain c .div (.chain d .sub (.last e))))).value I =
      I.operate .sub (I.operate .sub (a.value I)
        (I.operate .div (I.operate .mul (b.value I) (c.value I)) (d.value I))) (e.value I) :=
  rfl

end QuizFormula

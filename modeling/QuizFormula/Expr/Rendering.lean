import QuizFormula.Expr.Basic

/-!
# Writing formulas

A rendering says how a dialect writes numbers, wildcards, minus signs and calls. What
all dialects write alike is fixed here: operators and parentheses, with no blanks
between them. The text of a formula is built from the texts of its parts.
-/

namespace QuizFormula

/-- How a dialect writes the parts of a formula, from the written smaller parts. -/
structure Rendering where
  /-- A number, from its literal. -/
  number : Text → Text
  /-- A wildcard, from its name. -/
  wildcard : Text → Text
  /-- An atom with a minus sign, from the written atom. -/
  minus : Text → Text
  /-- A call, from its name and its written arguments. -/
  call : Text → List Text → Text

mutual

def Expr.render (w : Rendering) : Expr → Text
  | .last a => a.render w
  | .chain a op e => a.render w ++ op.char :: e.render w

def Atom.render (w : Rendering) : Atom → Text
  | .number l => w.number l
  | .wildcard n => w.wildcard n
  | .group e => '(' :: (e.render w ++ [')'])
  | .call n args => w.call n (args.render w)
  | .minus a => w.minus (a.render w)

def Args.render (w : Rendering) : Args → List Text
  | .nil => []
  | .cons e args => e.render w :: args.render w

end

def commaSeparated (texts : List Text) : Text := List.intercalate [','] texts

theorem commaSeparated_cons_cons (t u : Text) (ts : List Text) :
    commaSeparated (t :: u :: ts) = t ++ ',' :: commaSeparated (u :: ts) := by
  rw [commaSeparated, List.intercalate_cons_cons, List.append_assoc]
  rfl

theorem commaSeparated_cons_append (c : Char) (t : Text) (ts : List Text) :
    commaSeparated ((c :: t) :: ts) = c :: commaSeparated (t :: ts) := by
  cases ts with
  | nil => simp [commaSeparated]
  | cons u ts => rw [commaSeparated_cons_cons, commaSeparated_cons_cons, List.cons_append]

def callText (name : Text) (args : List Text) : Text :=
  name ++ '(' :: (commaSeparated args ++ [')'])

theorem callText_singleton (name t : Text) :
    callText name [t] = name ++ '(' :: (t ++ [')']) := by
  rw [callText, commaSeparated, List.intercalate_singleton]

/-- The arguments of a power, exchanged: one dialect has the base first, the other one
the exponent. Any other number of arguments is kept as it is. -/
def exchangePair {α : Type} : List α → List α
  | [a, b] => [b, a]
  | args => args

@[simp] theorem exchangePair_exchangePair {α : Type} (args : List α) :
    exchangePair (exchangePair args) = args := by
  match args with
  | [] => rfl
  | [_] => rfl
  | [_, _] => rfl
  | _ :: _ :: _ :: _ => rfl

@[simp] theorem length_render_args (w : Rendering) (args : Args) :
    (args.render w).length = args.length := by
  induction args using Args.rec (motive_1 := fun _ => True) (motive_2 := fun _ => True) with
  | nil => rfl
  | cons e args _ ih => simp [Args.render, Args.length, ih]
  | _ => trivial

end QuizFormula

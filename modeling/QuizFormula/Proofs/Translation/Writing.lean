import QuizFormula.Proofs.Grammar.Induction
import QuizFormula.Proofs.Translation.Rewriting

/-!
# What is written after two translations

A formula that is translated there and back is rewritten as a tree by the first
translation and rendered by the second one. `Writing` says what comes out in the end,
part by part of the formula that it began with. Unlike a rendering, a writing may look
at the arguments of a call as formulas, since the first translation does.
-/

namespace QuizFormula

/-- How the parts of a formula are written, from the written smaller parts. A call is
written from its name, its arguments and its written arguments. -/
structure Writing where
  number : Text → Text
  wildcard : Text → Text
  minus : Text → Text
  call : Text → Args → List Text → Text

mutual

def Expr.write (y : Writing) : Expr → Text
  | .last a => a.write y
  | .chain a op e => a.write y ++ op.char :: e.write y

def Atom.write (y : Writing) : Atom → Text
  | .number l => y.number l
  | .wildcard n => y.wildcard n
  | .group e => '(' :: (e.write y ++ [')'])
  | .call n args => y.call n args (args.write y)
  | .minus a => y.minus (a.write y)

def Args.write (y : Writing) : Args → List Text
  | .nil => []
  | .cons e args => e.write y :: args.write y

end

/-- Rewriting with `f` and rendering with `x` writes each part as `y` does; for wildcards
and calls, as far as they satisfy `W` and `Q`. -/
structure Rewriting.WritesAs (f : Rewriting) (x : Rendering) (y : Writing)
    (W : Text → Prop) (Q : Text → Args → Prop) : Prop where
  number : ∀ l, x.number (f.number l) = y.number l
  wildcard : ∀ n, W n → (f.wildcard n).render x = y.wildcard n
  minus : ∀ a, (f.minus a).render x = y.minus (a.render x)
  call : ∀ n args, Q n args →
    (f.call n (args.rewrite f)).render x = y.call n args ((args.rewrite f).render x)

/-- What a rewritten formula is rendered as is what the writing writes. -/
theorem Rewriting.WritesAs.render_rewrite {f : Rewriting} {x : Rendering} {y : Writing}
    {W : Text → Prop} {Q : Text → Args → Prop} (h : f.WritesAs x y W Q) {e : Expr}
    (he : e.WellFormed) (hw : ∀ n ∈ e.survey wildcardSurvey, W n)
    (hc : ∀ c ∈ e.calls, Q c.1 c.2) : (e.rewrite f).render x = e.write y := by
  have hind : FormulaInduction (fun e => (e.rewrite f).render x = e.write y)
      (fun a => (a.rewrite f).render x = a.write y)
      (fun args => (args.rewrite f).render x = args.write y) W Q :=
    { last := fun a ha => ha
      chain := fun a op e ha he => by
        rw [Expr.rewrite, Expr.render, Expr.write, ha, he]
      number := fun l _ => h.number l
      wildcard := fun n _ hn => h.wildcard n hn
      group := fun e he => by
        rw [Atom.rewrite, Atom.render, Atom.write, he]
      call := fun n args _ _ hc hargs => by
        rw [Atom.rewrite, h.call n args hc, hargs, Atom.write]
      minus := fun a ha => by
        rw [Atom.rewrite, h.minus, ha, Atom.write]
      nil := rfl
      cons := fun e args he hargs => by
        rw [Args.rewrite, Args.render, Args.write, he, hargs] }
  exact hind.formula he hw hc

/-! ### Exchanged arguments -/

theorem Args.render_exchange (x : Rendering) (args : Args) :
    args.exchange.render x = exchangePair (args.render x) := by
  match args with
  | .nil | .cons _ .nil | .cons _ (.cons _ .nil) | .cons _ (.cons _ (.cons _ _)) => rfl

@[simp] theorem Args.depth_exchange (args : Args) : args.exchange.depth = args.depth := by
  match args with
  | .nil => rfl
  | .cons _ .nil => rfl
  | .cons e (.cons e' .nil) =>
      simp only [Args.exchange, Args.depth, Nat.max_zero]
      exact Nat.max_comm _ _
  | .cons _ (.cons _ (.cons _ _)) => rfl

end QuizFormula

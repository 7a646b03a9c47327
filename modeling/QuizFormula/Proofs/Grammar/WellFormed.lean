import QuizFormula.Expr.Rendering
import QuizFormula.Proofs.Grammar.Block

/-!
# Well-formed formulas

The formulas that blocks have: every number and every name in them is a token of the
grammar, and no minus sign stands right before a number, since that sign would be part
of the number. Whatever holds of the written parts of such formulas, and is kept when
they are put together, holds of the written formulas (`Rendering.Preserves.render`).
-/

namespace QuizFormula

def Atom.isNumber : Atom → Bool
  | .number _ => true
  | _ => false

mutual

/-- Every token of the formula is one of the grammar. -/
def Expr.WellFormed : Expr → Prop
  | .last a => a.WellFormed
  | .chain a _ e => a.WellFormed ∧ e.WellFormed

/-- Every token of the atom is one of the grammar, and no minus sign stands before a
number. -/
def Atom.WellFormed : Atom → Prop
  | .number l => IsNumber l
  | .wildcard n => IsName n
  | .group e => e.WellFormed
  | .call n args => IsName n ∧ args.WellFormed
  | .minus a => a.WellFormed ∧ a.isNumber = false

def Args.WellFormed : Args → Prop
  | .nil => True
  | .cons e args => e.WellFormed ∧ args.WellFormed

end

theorem WildcardAt.isName {d : Dialect} {n s r : Text}
    (h : WildcardAt d.wildcardStyle n s r) : IsName n := by
  cases d with
  | moodle => cases h with | braced hn => exact hn
  | fp => cases h with | bare hn => exact hn

theorem SignedAt.isNumber_eq_false {w : WildcardStyle} {a : Atom} {s r : Text}
    (h : SignedAt w a s r) : a.isNumber = false := by
  cases h <;> rfl

mutual

theorem FormulaAt.wellFormed {d : Dialect} : ∀ {e : Expr} {s r : Text},
    FormulaAt d.wildcardStyle e s r → e.WellFormed
  | .last a, _, _, h => by
      cases h with
      | last ha =>
          cases ha with
          | number hb hl => exact hl
          | signed hb ha => exact ha.wellFormed
  | .chain a op e, _, _, h => by
      cases h with
      | chain ha hb he =>
          refine ⟨?_, he.wellFormed⟩
          cases ha with
          | number hb hl => exact hl
          | signed hb ha => exact ha.wellFormed

theorem SignedAt.wellFormed {d : Dialect} : ∀ {a : Atom} {s r : Text},
    SignedAt d.wildcardStyle a s r → a.WellFormed
  | .number l, _, _, h => nomatch h
  | .wildcard n, _, _, h => by
      cases h with
      | wildcard hn => exact hn.isName
  | .group e, _, _, h => by
      cases h with
      | group he hb => exact he.wellFormed
  | .call n args, _, _, h => by
      cases h with
      | call hn hb hargs => exact ⟨hn, hargs.wellFormed⟩
  | .minus a, _, _, h => by
      cases h with
      | minus hb ha => exact ⟨ha.wellFormed, ha.isNumber_eq_false⟩

theorem ArgumentsAt.wellFormed {d : Dialect} : ∀ {args : Args} {s r : Text},
    ArgumentsAt d.wildcardStyle args s r → args.WellFormed
  | .nil, _, _, _ => trivial
  | .cons e .nil, _, _, h => by
      cases h with
      | one he hb => exact ⟨he.wellFormed, trivial⟩
  | .cons e (.cons e' args), _, _, h => by
      cases h with
      | more he hb hargs => exact ⟨he.wellFormed, hargs.wellFormed⟩

end

theorem BlockAt.wellFormed {d : Dialect} {e : Expr} {s r : Text} (h : BlockAt d e s r) :
    e.WellFormed := by
  cases h with
  | block he hb => exact he.wellFormed

theorem wellFormed_of_block? {d : Dialect} {e : Expr} {s r : Text}
    (h : block? d s = some (e, r)) : e.WellFormed :=
  ((block?_eq_some_iff d s r e).1 h).1.wellFormed

/-- The property `P` holds of the written tokens and is kept when the written parts of
formulas are put together. -/
structure Rendering.Preserves (w : Rendering) (P : Text → Prop) : Prop where
  number : ∀ l, IsNumber l → P (w.number l)
  wildcard : ∀ n, IsName n → P (w.wildcard n)
  group : ∀ t, P t → P ('(' :: (t ++ [')']))
  minus : ∀ t, P t → P (w.minus t)
  call : ∀ n ts, IsName n → (∀ t ∈ ts, P t) → P (w.call n ts)
  chain : ∀ t op u, P t → P u → P (t ++ Operator.char op :: u)

section Preserves

variable {w : Rendering} {P : Text → Prop}

mutual

theorem Rendering.Preserves.render (h : w.Preserves P) :
    ∀ {e : Expr}, e.WellFormed → P (e.render w)
  | .last _, he => h.render_atom he
  | .chain _ op _, he => h.chain _ op _ (h.render_atom he.1) (h.render he.2)

theorem Rendering.Preserves.render_atom (h : w.Preserves P) :
    ∀ {a : Atom}, a.WellFormed → P (a.render w)
  | .number l, ha => h.number l ha
  | .wildcard n, ha => h.wildcard n ha
  | .group _, ha => h.group _ (h.render ha)
  | .call n _, ha => h.call n _ ha.1 (h.render_args ha.2)
  | .minus _, ha => h.minus _ (h.render_atom ha.1)

theorem Rendering.Preserves.render_args (h : w.Preserves P) :
    ∀ {args : Args}, args.WellFormed → ∀ t ∈ args.render w, P t
  | .nil, _, t, ht => absurd ht (List.not_mem_nil)
  | .cons e args, hargs, t, ht => by
      rcases List.mem_cons.1 ht with rfl | ht
      · exact h.render hargs.1
      · exact h.render_args hargs.2 t ht

end

end Preserves

end QuizFormula

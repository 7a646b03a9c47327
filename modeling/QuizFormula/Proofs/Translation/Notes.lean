import QuizFormula.Proofs.Grammar.Induction
import QuizFormula.Proofs.Translation.Rewriting

/-!
# What is noted of a translated formula

A survey of a formula that a rewriting has built goes part by part as the rewriting does.
So it is enough to know of single tokens and calls that all notes satisfy a predicate
(`Rewriting.IsNotedAs`), or that the notes are those of another survey of the formula
before (`Rewriting.KeepsSurvey`), where the order may change with the order of arguments.
-/

namespace QuizFormula

/-! ### Surveys of wildcards -/

/-- The survey that notes wildcards only. -/
def Survey.ofWildcards {β : Type} (g : Text → List β) : Survey β where
  number _ := []
  wildcard := g
  call _ _ := []

section OfWildcards

variable {β : Type} (g : Text → List β)

mutual

theorem Expr.survey_ofWildcards : ∀ e : Expr,
    e.survey (.ofWildcards g) = (e.survey wildcardSurvey).flatMap g
  | .last a => a.survey_ofWildcards
  | .chain a _ e => by
      rw [Expr.survey, Expr.survey, List.flatMap_append, a.survey_ofWildcards,
        e.survey_ofWildcards]

theorem Atom.survey_ofWildcards : ∀ a : Atom,
    a.survey (.ofWildcards g) = (a.survey wildcardSurvey).flatMap g
  | .number _ => rfl
  | .wildcard n => (List.flatMap_singleton g n).symm
  | .group e => e.survey_ofWildcards
  | .call _ args => by
      rw [Atom.survey, Atom.survey, List.flatMap_append, args.survey_ofWildcards]
      rfl
  | .minus a => a.survey_ofWildcards

theorem Args.survey_ofWildcards : ∀ args : Args,
    args.survey (.ofWildcards g) = (args.survey wildcardSurvey).flatMap g
  | .nil => rfl
  | .cons e args => by
      rw [Args.survey, Args.survey, List.flatMap_append, e.survey_ofWildcards,
        args.survey_ofWildcards]

end

end OfWildcards

/-! ### Surveys of rewritten formulas -/

/-- What the survey `v` notes of the parts that the rewriting builds satisfies `D`, if it
does for the smaller parts; for wildcards and calls, as far as they satisfy `W` and `Q`. -/
structure Rewriting.IsNotedAs {β : Type} (f : Rewriting) (v : Survey β) (D : β → Prop)
    (W : Text → Prop) (Q : Text → Args → Prop) : Prop where
  number : ∀ l, ∀ d ∈ v.number (f.number l), D d
  wildcard : ∀ n, W n → ∀ d ∈ (f.wildcard n).survey v, D d
  minus : ∀ a, (∀ d ∈ a.survey v, D d) → ∀ d ∈ (f.minus a).survey v, D d
  call : ∀ n args, Q n args → (∀ d ∈ (args.rewrite f).survey v, D d) →
    ∀ d ∈ (f.call n (args.rewrite f)).survey v, D d

theorem Rewriting.IsNotedAs.survey_rewrite {β : Type} {f : Rewriting} {v : Survey β}
    {D : β → Prop} {W : Text → Prop} {Q : Text → Args → Prop} (h : f.IsNotedAs v D W Q)
    {e : Expr} (he : e.WellFormed) (hw : ∀ n ∈ e.survey wildcardSurvey, W n)
    (hc : ∀ c ∈ e.calls, Q c.1 c.2) : ∀ d ∈ (e.rewrite f).survey v, D d := by
  have hind : FormulaInduction (fun e => ∀ d ∈ (e.rewrite f).survey v, D d)
      (fun a => ∀ d ∈ (a.rewrite f).survey v, D d)
      (fun args => ∀ d ∈ (args.rewrite f).survey v, D d) W Q :=
    { last := fun a ha => ha
      chain := fun a op e ha he => List.forall_mem_append.2 ⟨ha, he⟩
      number := fun l _ => h.number l
      wildcard := fun n _ hn => h.wildcard n hn
      group := fun e he => he
      call := fun n args _ _ hc hargs => h.call n args hc hargs
      minus := fun a ha => h.minus _ ha
      nil := fun d hd => absurd hd List.not_mem_nil
      cons := fun e args he hargs => List.forall_mem_append.2 ⟨he, hargs⟩ }
  exact hind.formula he hw hc

/-- The survey `v` of what the rewriting builds notes what `v'` notes of the parts in whose
place it stands, up to the order; for calls, as far as they satisfy `Q`. -/
structure Rewriting.KeepsSurvey {β : Type} (f : Rewriting) (v v' : Survey β)
    (Q : Text → Args → Prop) : Prop where
  number : ∀ l, v.number (f.number l) = v'.number l
  wildcard : ∀ n, (f.wildcard n).survey v = v'.wildcard n
  minus : ∀ a, (f.minus a).survey v = a.survey v
  call : ∀ n args, Q n args → ((f.call n (args.rewrite f)).survey v).Perm
    ((args.rewrite f).survey v ++ v'.call n args.length)

theorem Rewriting.KeepsSurvey.survey_rewrite {β : Type} {f : Rewriting} {v v' : Survey β}
    {Q : Text → Args → Prop} (h : f.KeepsSurvey v v' Q) {e : Expr} (he : e.WellFormed)
    (hc : ∀ c ∈ e.calls, Q c.1 c.2) : ((e.rewrite f).survey v).Perm (e.survey v') := by
  have hind : FormulaInduction (fun e => ((e.rewrite f).survey v).Perm (e.survey v'))
      (fun a => ((a.rewrite f).survey v).Perm (a.survey v'))
      (fun args => ((args.rewrite f).survey v).Perm (args.survey v')) (fun _ => True) Q :=
    { last := fun a ha => ha
      chain := fun a op e ha he => ha.append he
      number := fun l _ => .of_eq (h.number l)
      wildcard := fun n _ _ => .of_eq (h.wildcard n)
      group := fun e he => he
      call := fun n args _ _ hc hargs => (h.call n args hc).trans (hargs.append_right _)
      minus := fun a ha => (List.Perm.of_eq (h.minus _)).trans ha
      nil := .refl _
      cons := fun e args he hargs => he.append hargs }
  exact hind.formula he (fun _ _ => trivial) hc

theorem Args.survey_exchange_perm {β : Type} (v : Survey β) (args : Args) :
    (args.exchange.survey v).Perm (args.survey v) := by
  match args with
  | .nil => exact .refl _
  | .cons _ .nil => exact .refl _
  | .cons e (.cons e' .nil) =>
      simpa [Args.exchange, Args.survey] using List.perm_append_comm
  | .cons _ (.cons _ (.cons _ _)) => exact .refl _

end QuizFormula

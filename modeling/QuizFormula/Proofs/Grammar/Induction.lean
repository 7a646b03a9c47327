import QuizFormula.Proofs.Grammar.WellFormed
import QuizFormula.Proofs.Translation.Calls

/-!
# Induction over formulas

Formulas, atoms and arguments are built from one another, so what is shown of formulas
is shown of all three at once. The cases of such an induction are the fields of
`FormulaInduction`: the tokens are those of the grammar, the wildcards satisfy `W`, and
the calls satisfy `Q`.
-/

namespace QuizFormula

/-- The cases of an induction that shows `P` of formulas, `A` of atoms and `R` of
arguments. -/
structure FormulaInduction (P : Expr → Prop) (A : Atom → Prop) (R : Args → Prop)
    (W : Text → Prop) (Q : Text → Args → Prop) : Prop where
  last : ∀ a, A a → P (.last a)
  chain : ∀ a op e, A a → P e → P (.chain a op e)
  number : ∀ l, IsNumber l → A (.number l)
  wildcard : ∀ n, IsName n → W n → A (.wildcard n)
  group : ∀ e, P e → A (.group e)
  call : ∀ n args, IsName n → args.WellFormed → Q n args → R args → A (.call n args)
  minus : ∀ a, A a → A (.minus a)
  nil : R .nil
  cons : ∀ e args, P e → R args → R (.cons e args)

section

variable {P : Expr → Prop} {A : Atom → Prop} {R : Args → Prop} {W : Text → Prop}
  {Q : Text → Args → Prop}

mutual

theorem FormulaInduction.formula (h : FormulaInduction P A R W Q) :
    ∀ {e : Expr}, e.WellFormed → (∀ n ∈ e.survey wildcardSurvey, W n) →
      (∀ c ∈ e.calls, Q c.1 c.2) → P e
  | .last a, he, hw, hc => h.last a (h.atom he hw hc)
  | .chain a op e, he, hw, hc => by
      obtain ⟨hwa, hwe⟩ := List.forall_mem_append.1 hw
      obtain ⟨hca, hce⟩ := List.forall_mem_append.1 hc
      exact h.chain a op e (h.atom he.1 hwa hca) (h.formula he.2 hwe hce)

theorem FormulaInduction.atom (h : FormulaInduction P A R W Q) :
    ∀ {a : Atom}, a.WellFormed → (∀ n ∈ a.survey wildcardSurvey, W n) →
      (∀ c ∈ a.calls, Q c.1 c.2) → A a
  | .number l, ha, _, _ => h.number l ha
  | .wildcard n, ha, hw, _ => h.wildcard n ha (hw n (List.mem_singleton_self n))
  | .group e, ha, hw, hc => h.group e (h.formula ha hw hc)
  | .call n args, ha, hw, hc => by
      obtain ⟨hwargs, -⟩ := List.forall_mem_append.1 hw
      obtain ⟨hcargs, hcall⟩ := List.forall_mem_append.1 hc
      exact h.call n args ha.1 ha.2 (hcall _ (List.mem_singleton_self _))
        (h.args ha.2 hwargs hcargs)
  | .minus a, ha, hw, hc => h.minus a (h.atom ha.1 hw hc)

theorem FormulaInduction.args (h : FormulaInduction P A R W Q) :
    ∀ {args : Args}, args.WellFormed → (∀ n ∈ args.survey wildcardSurvey, W n) →
      (∀ c ∈ args.calls, Q c.1 c.2) → R args
  | .nil, _, _, _ => h.nil
  | .cons e args, hargs, hw, hc => by
      obtain ⟨hwe, hwargs⟩ := List.forall_mem_append.1 hw
      obtain ⟨hce, hcargs⟩ := List.forall_mem_append.1 hc
      exact h.cons e args (h.formula hargs.1 hwe hce) (h.args hargs.2 hwargs hcargs)

end

end

/-- What a survey notes of a formula is noted of one of its numbers, wildcards or
calls. -/
theorem Expr.forall_mem_survey {β : Type} {v : Survey β} {D : β → Prop} {W : Text → Prop}
    {Q : Text → Args → Prop} (number : ∀ l, IsNumber l → ∀ d ∈ v.number l, D d)
    (wildcard : ∀ n, IsName n → W n → ∀ d ∈ v.wildcard n, D d)
    (call : ∀ n args, Q n args → ∀ d ∈ v.call n args.length, D d) {e : Expr}
    (he : e.WellFormed) (hw : ∀ n ∈ e.survey wildcardSurvey, W n)
    (hc : ∀ c ∈ e.calls, Q c.1 c.2) : ∀ d ∈ e.survey v, D d := by
  have hind : FormulaInduction (fun e => ∀ d ∈ e.survey v, D d)
      (fun a => ∀ d ∈ a.survey v, D d) (fun args => ∀ d ∈ args.survey v, D d) W Q :=
    { last := fun a ha => ha
      chain := fun a op e ha he => List.forall_mem_append.2 ⟨ha, he⟩
      number := number
      wildcard := wildcard
      group := fun e he => he
      call := fun n args _ _ hc hargs =>
        List.forall_mem_append.2 ⟨hargs, call n args hc⟩
      minus := fun a ha => ha
      nil := fun d hd => absurd hd List.not_mem_nil
      cons := fun e args he hargs => List.forall_mem_append.2 ⟨he, hargs⟩ }
  exact hind.formula he hw hc

theorem Expr.WellFormed.isName_of_mem_survey {e : Expr} (he : e.WellFormed) :
    ∀ n ∈ e.survey wildcardSurvey, IsName n :=
  Expr.forall_mem_survey (W := fun _ => True) (Q := fun _ _ => True)
    (fun _ _ _ hn => absurd hn List.not_mem_nil)
    (fun _ hn _ => List.forall_mem_singleton.2 hn)
    (fun _ _ _ _ hn => absurd hn List.not_mem_nil) he (fun _ _ => trivial) (fun _ _ => trivial)

/-- The calls that a survey notes are those of the formula. -/
theorem Expr.WellFormed.exists_call_of_mem_survey {e : Expr} (he : e.WellFormed) :
    ∀ d ∈ e.survey callSurvey, ∃ c ∈ e.calls, d = (c.1, c.2.length) :=
  Expr.forall_mem_survey (W := fun _ => True) (Q := fun n args => (n, args) ∈ e.calls)
    (fun _ _ _ hd => absurd hd List.not_mem_nil) (fun _ _ _ _ hd => absurd hd List.not_mem_nil)
    (fun _ _ hc _ hd => ⟨_, hc, List.mem_singleton.1 hd⟩) he (fun _ _ => trivial) fun _ hc => hc

/-- The arguments of the calls in a formula have tokens of the grammar. -/
theorem Expr.WellFormed.of_mem_calls {e : Expr} (he : e.WellFormed) :
    ∀ c ∈ e.calls, c.2.WellFormed := by
  have hind : FormulaInduction (fun e => ∀ c ∈ e.calls, c.2.WellFormed)
      (fun a => ∀ c ∈ a.calls, c.2.WellFormed) (fun args => ∀ c ∈ args.calls, c.2.WellFormed)
      (fun _ => True) (fun _ _ => True) :=
    { last := fun _ ha => ha
      chain := fun _ _ _ ha he => List.forall_mem_append.2 ⟨ha, he⟩
      number := fun _ _ _ hc => absurd hc List.not_mem_nil
      wildcard := fun _ _ _ _ hc => absurd hc List.not_mem_nil
      group := fun _ he => he
      call := fun _ _ _ hwell _ hargs =>
        List.forall_mem_append.2 ⟨hargs, List.forall_mem_singleton.2 hwell⟩
      minus := fun _ ha => ha
      nil := fun _ hc => absurd hc List.not_mem_nil
      cons := fun _ _ he hargs => List.forall_mem_append.2 ⟨he, hargs⟩ }
  exact hind.formula he (fun _ _ => trivial) (fun _ _ => trivial)

/-- What a survey notes is among the notes of another one on the same formula, if it is so
part by part. -/
theorem Expr.mem_survey_of_mem {β γ : Type} {v : Survey β} {w : Survey γ} {d : β} {x : γ}
    (number : ∀ l, x ∈ w.number l → d ∈ v.number l)
    (wildcard : ∀ n, x ∈ w.wildcard n → d ∈ v.wildcard n)
    (call : ∀ n arity, x ∈ w.call n arity → d ∈ v.call n arity) {e : Expr}
    (he : e.WellFormed) : x ∈ e.survey w → d ∈ e.survey v := by
  have hind : FormulaInduction (fun e => x ∈ e.survey w → d ∈ e.survey v)
      (fun a => x ∈ a.survey w → d ∈ a.survey v)
      (fun args => x ∈ args.survey w → d ∈ args.survey v) (fun _ => True) (fun _ _ => True) :=
    { last := fun _ ha => ha
      chain := fun _ _ _ ha he h => List.mem_append.2 ((List.mem_append.1 h).imp ha he)
      number := fun l _ => number l
      wildcard := fun n _ _ => wildcard n
      group := fun _ he => he
      call := fun n args _ _ _ hargs h =>
        List.mem_append.2 ((List.mem_append.1 h).imp hargs (call n args.length))
      minus := fun _ ha => ha
      nil := fun h => absurd h List.not_mem_nil
      cons := fun _ _ he hargs h => List.mem_append.2 ((List.mem_append.1 h).imp he hargs) }
  exact hind.formula he (fun _ _ => trivial) (fun _ _ => trivial)

/-- What a survey notes of a wildcard is among its notes on the formula. -/
theorem Expr.mem_survey_of_mem_wildcards {β : Type} {v : Survey β} {n : Text} {d : β}
    (hd : d ∈ v.wildcard n) {e : Expr} (he : e.WellFormed)
    (hn : n ∈ e.survey wildcardSurvey) : d ∈ e.survey v := by
  refine Expr.mem_survey_of_mem (fun _ h => absurd h List.not_mem_nil) ?_
    (fun _ _ h => absurd h List.not_mem_nil) he hn
  intro m hm
  rwa [← List.mem_singleton.1 hm]

end QuizFormula

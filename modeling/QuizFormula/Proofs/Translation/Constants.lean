import QuizFormula.Proofs.Translation.Notes

/-!
# Arguments of constants

Both translations write pi as a constant and leave out what stands in the parentheses of
`pi`. So a formula is written as if its calls of `pi` had no arguments (`render_constantPi`).
All other calls are written (`Rendering.Embeds.infix_render`), and of the wildcards those are
missing that stand there (`Expr.underPi`).
-/

namespace QuizFormula

/-- The rewriting that leaves out the arguments of `pi`. -/
def constantPi : Rewriting where
  number l := l
  wildcard := .wildcard
  minus := .minus
  call n args := .call n (if n = "pi".toList then .nil else args)

theorem rewrite_constantPi_call (n : Text) (args : Args) :
    (Atom.call n args).rewrite constantPi =
      .call n (if n = "pi".toList then .nil else args.rewrite constantPi) :=
  rfl

mutual

/-- The wildcards of a formula that stand in the arguments of `pi`. -/
def Expr.underPi : Expr → List Text
  | .last a => a.underPi
  | .chain a _ e => a.underPi ++ e.underPi

def Atom.underPi : Atom → List Text
  | .number _ => []
  | .wildcard _ => []
  | .group e => e.underPi
  | .call n args => if n = "pi".toList then args.survey wildcardSurvey else args.underPi
  | .minus a => a.underPi

def Args.underPi : Args → List Text
  | .nil => []
  | .cons e args => e.underPi ++ args.underPi

end

/-! ### The formula without these arguments -/

mutual

theorem Expr.WellFormed.rewrite_constantPi : ∀ {e : Expr}, e.WellFormed →
    (e.rewrite constantPi).WellFormed
  | .last _, he => Atom.WellFormed.rewrite_constantPi he
  | .chain _ _ _, he => ⟨he.1.rewrite_constantPi, he.2.rewrite_constantPi⟩

theorem Atom.WellFormed.rewrite_constantPi : ∀ {a : Atom}, a.WellFormed →
    (a.rewrite constantPi).WellFormed
  | .number _, ha => ha
  | .wildcard _, ha => ha
  | .group _, ha => Expr.WellFormed.rewrite_constantPi ha
  | .call n args, ha => by
      rw [rewrite_constantPi_call]
      refine ⟨ha.1, ?_⟩
      split
      · exact trivial
      · exact ha.2.rewrite_constantPi
  | .minus a, ha => by
      have hnumber : (a.rewrite constantPi).isNumber = a.isNumber := by cases a <;> rfl
      exact ⟨ha.1.rewrite_constantPi, hnumber.trans ha.2⟩

theorem Args.WellFormed.rewrite_constantPi : ∀ {args : Args}, args.WellFormed →
    (args.rewrite constantPi).WellFormed
  | .nil, _ => trivial
  | .cons _ _, hargs => ⟨hargs.1.rewrite_constantPi, hargs.2.rewrite_constantPi⟩

end

/-- Left are calls of `pi` without arguments. -/
theorem length_of_mem_calls_constantPi {e : Expr} (he : e.WellFormed) {c : Text × Args}
    (hc : c ∈ (e.rewrite constantPi).calls) : c.1 = "pi".toList → c.2.length = 0 := by
  have hnoted : constantPi.IsNotedAs callSurvey (fun d => d.1 = "pi".toList → d.2 = 0)
      (fun _ => True) (fun _ _ => True) :=
    { number := fun _ _ hd => absurd hd List.not_mem_nil
      wildcard := fun _ _ _ hd => absurd hd List.not_mem_nil
      minus := fun _ ha => ha
      call := by
        intro n args _ hargs
        change ∀ d ∈ (if n = "pi".toList then Args.nil else args.rewrite constantPi).survey
          callSurvey ++ [(n, _)], d.1 = "pi".toList → d.2 = 0
        refine List.forall_mem_append.2 ⟨?_, List.forall_mem_singleton.2 ?_⟩
        · split
          · exact fun _ hd => absurd hd List.not_mem_nil
          · exact hargs
        · intro hpi
          rw [if_pos hpi]
          rfl }
  exact hnoted.survey_rewrite he (fun _ _ => trivial) (fun _ _ => trivial) (c.1, c.2.length)
    (Expr.mem_survey_of_mem_calls (List.mem_singleton_self _) hc)

/-- A rendering that writes pi as a constant does not look at the arguments of `pi`. -/
theorem render_constantPi {x : Rendering}
    (hx : ∀ ts, x.call "pi".toList ts = x.call "pi".toList []) {e : Expr} (he : e.WellFormed) :
    (e.rewrite constantPi).render x = e.render x := by
  have hind : FormulaInduction (fun e => (e.rewrite constantPi).render x = e.render x)
      (fun a => (a.rewrite constantPi).render x = a.render x)
      (fun args => (args.rewrite constantPi).render x = args.render x) (fun _ => True)
      (fun _ _ => True) :=
    { last := fun _ ha => ha
      chain := fun a op e ha he => by
        rw [Expr.rewrite, Expr.render, Expr.render, ha, he]
      number := fun _ _ => rfl
      wildcard := fun _ _ _ => rfl
      group := fun e he => by
        rw [Atom.rewrite, Atom.render, Atom.render, he]
      call := fun n args _ _ _ hargs => by
        rw [rewrite_constantPi_call, Atom.render, Atom.render]
        split
        · rename_i hn
          subst hn
          exact (hx _).symm
        · rw [hargs]
      minus := fun a ha => congrArg x.minus ha
      nil := rfl
      cons := fun e args he hargs => by
        rw [Args.rewrite, Args.render, Args.render, he, hargs] }
  exact hind.formula he (fun _ _ => trivial) (fun _ _ => trivial)

/-- A rewriting that leaves out the arguments of `pi` itself finds nothing else left out. -/
theorem rewrite_constantPi {f : Rewriting}
    (hf : ∀ args, f.call "pi".toList args = f.call "pi".toList .nil) {e : Expr}
    (he : e.WellFormed) : (e.rewrite constantPi).rewrite f = e.rewrite f := by
  have hind : FormulaInduction (fun e => (e.rewrite constantPi).rewrite f = e.rewrite f)
      (fun a => (a.rewrite constantPi).rewrite f = a.rewrite f)
      (fun args => (args.rewrite constantPi).rewrite f = args.rewrite f) (fun _ => True)
      (fun _ _ => True) :=
    { last := fun _ ha => congrArg Expr.last ha
      chain := fun a op e ha he => by
        simp only [Expr.rewrite, ha, he]
      number := fun _ _ => rfl
      wildcard := fun _ _ _ => rfl
      group := fun _ he => congrArg Atom.group he
      call := fun n args _ _ _ hargs => by
        rw [rewrite_constantPi_call, Atom.rewrite, Atom.rewrite]
        split
        · rename_i hn
          subst hn
          exact (hf _).symm
        · rw [hargs]
      minus := fun a ha => congrArg f.minus ha
      nil := rfl
      cons := fun e args he hargs => by
        simp only [Args.rewrite, he, hargs] }
  exact hind.formula he (fun _ _ => trivial) (fun _ _ => trivial)

/-! ### The calls that are written -/

/-- The rendering writes pi as a constant, and in everything else what it is given stands
in what it writes. Arguments may be left out that do not satisfy `P`, but no calls. -/
structure Rendering.Embeds (x : Rendering) (P : Text → Prop) : Prop where
  pi : ∀ ts, x.call "pi".toList ts = x.call "pi".toList []
  minus : ∀ t, t <:+: x.minus t
  call : ∀ {n t ts}, n ≠ "pi".toList → t ∈ ts → P t → t <:+: x.call n ts
  of_call : ∀ n ts, P (x.call n ts)
  of_part : ∀ {t u}, t <:+: u → P t → P u

/-- What is written for a call stands in what is written for the formula, apart from the
arguments of `pi`. -/
theorem Rendering.Embeds.infix_render {x : Rendering} {P : Text → Prop} (hx : x.Embeds P)
    {e : Expr} (he : e.WellFormed) :
    ∀ c ∈ (e.rewrite constantPi).calls, x.call c.1 (c.2.render x) <:+: e.render x := by
  -- Arguments are lists of texts, so a call stands in one of them.
  have hind : FormulaInduction
      (fun e => ∀ c ∈ e.calls, x.call c.1 (c.2.render x) <:+: e.render x)
      (fun a => ∀ c ∈ a.calls, x.call c.1 (c.2.render x) <:+: a.render x)
      (fun args => ∀ c ∈ args.calls, ∃ t ∈ args.render x, x.call c.1 (c.2.render x) <:+: t)
      (fun _ => True) (fun n args => n = "pi".toList → args.length = 0) :=
    { last := fun _ ha => ha
      chain := fun a op e ha he => List.forall_mem_append.2
        ⟨fun c hc => (ha c hc).trans (List.prefix_append _ _).isInfix,
          fun c hc => (he c hc).trans
            ((List.suffix_cons _ _).trans (List.suffix_append _ _)).isInfix⟩
      number := fun _ _ _ hc => absurd hc List.not_mem_nil
      wildcard := fun _ _ _ _ hc => absurd hc List.not_mem_nil
      group := fun e he c hc => (he c hc).trans
        ((List.prefix_append _ _).isInfix.trans (List.suffix_cons _ _).isInfix)
      call := fun n args _ _ hpi hargs => by
        refine List.forall_mem_append.2 ⟨?_, List.forall_mem_singleton.2 (List.infix_refl _)⟩
        intro c hc
        obtain ⟨t, ht, hpart⟩ := hargs c hc
        have hne : n ≠ "pi".toList := by
          intro hn
          rw [List.length_eq_zero_iff.1 ((length_render_args _ args).trans (hpi hn))] at ht
          exact absurd ht List.not_mem_nil
        exact hpart.trans (hx.call hne ht (hx.of_part hpart (hx.of_call _ _)))
      minus := fun a ha c hc => (ha c hc).trans (hx.minus _)
      nil := fun _ hc => absurd hc List.not_mem_nil
      cons := fun e args he hargs => List.forall_mem_append.2
        ⟨fun c hc => ⟨_, List.mem_cons_self, he c hc⟩, fun c hc => by
          obtain ⟨t, ht, hpart⟩ := hargs c hc
          exact ⟨t, List.mem_cons_of_mem _ ht, hpart⟩⟩ }
  rw [← render_constantPi hx.pi he]
  exact hind.formula he.rewrite_constantPi (fun _ _ => trivial)
    fun _ hc => length_of_mem_calls_constantPi he hc

/-! ### The wildcards that are missing -/

theorem perm_append_four {α : Type} (k l m n : List α) :
    ((k ++ l) ++ (m ++ n)).Perm ((k ++ m) ++ (l ++ n)) := by
  rw [List.append_assoc, List.append_assoc]
  exact (List.perm_append_comm_assoc l m n).append_left k

theorem survey_constantPi_append_underPi {e : Expr} (he : e.WellFormed) :
    ((e.rewrite constantPi).survey wildcardSurvey ++ e.underPi).Perm
      (e.survey wildcardSurvey) := by
  have hind : FormulaInduction
      (fun e => ((e.rewrite constantPi).survey wildcardSurvey ++ e.underPi).Perm
        (e.survey wildcardSurvey))
      (fun a => ((a.rewrite constantPi).survey wildcardSurvey ++ a.underPi).Perm
        (a.survey wildcardSurvey))
      (fun args => ((args.rewrite constantPi).survey wildcardSurvey ++ args.underPi).Perm
        (args.survey wildcardSurvey)) (fun _ => True) (fun _ _ => True) :=
    { last := fun _ ha => ha
      chain := fun a op e ha he => (perm_append_four _ _ _ _).trans (ha.append he)
      number := fun _ _ => .refl _
      wildcard := fun _ _ _ => .refl _
      group := fun _ he => he
      call := fun n args _ _ _ hargs => by
        rw [rewrite_constantPi_call, Atom.survey, Atom.survey, Atom.underPi]
        simp only [wildcardSurvey, List.append_nil] at hargs ⊢
        split
        · exact .refl _
        · exact hargs
      minus := fun _ ha => ha
      nil := .refl _
      cons := fun e args he hargs => (perm_append_four _ _ _ _).trans (he.append hargs) }
  exact hind.formula he (fun _ _ => trivial) (fun _ _ => trivial)

end QuizFormula

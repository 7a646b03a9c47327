import QuizFormula.Proofs.Session
import QuizFormula.Proofs.Translation.FunctionNames
import QuizFormula.Proofs.Translation.Reports

/-!
# The errors of a session

The errors that are reported in a session are those of the calls that cannot be carried
over, one for each, in the order of the texts (`Translator.errors_session`). So a session is
without errors if and only if there is no such call, and then all functions in the blocks
that are written are functions of the target dialect (`Translator.session_errors`).
-/

namespace QuizFormula

def Item.call? : Item → Option (Text × Nat)
  | number _ => none
  | wildcard _ => none
  | call n arity => some (n, arity)

theorem Dialect.kind_refusal (target : Dialect) (n : Text) :
    (target.refusal n).kind =
      if n ∈ target.lacking then .unsupportedFunctionKnown else .unsupportedFunctionUnknown := by
  unfold refusal
  split <;> rfl

namespace Job

instance (j : Job) (n : Text) (arity : Nat) : Decidable (j.Translates n arity) :=
  decidable_of_iff _ (j.supports_iff n arity)

/-- The names in the calls of a formula that cannot be carried over. -/
def refusedNames (j : Job) (e : Expr) : List Text :=
  ((e.survey callSurvey).filter fun c => ¬ j.Translates c.1 c.2).map Prod.fst

/-- Of the items of a formula only calls are errors, namely those that cannot be carried
over. -/
theorem filter_isError_diagnostic? (j : Job) (x : Item) :
    (j.diagnostic? x).filter Diagnostic.isError =
      (x.call?.filter fun c => ¬ j.Translates c.1 c.2).map fun c => j.target.refusal c.1 := by
  cases x with
  | number l =>
      cases j with
      | toFp o =>
          rw [diagnostic?]
          split <;> rfl
      | toMoodle => rfl
  | wildcard n =>
      cases j with
      | toFp o =>
          rw [diagnostic?]
          split <;> rfl
      | toMoodle => rfl
  | call n arity =>
      rw [diagnostic?, Item.call?, Option.filter_some]
      by_cases h : j.Translates n arity
      · simp [h, (j.supports_iff n arity).2 h]
      · have hrefused := mt (j.supports_iff n arity).1 h
        simp [h, hrefused, target, Dialect.isError_refusal, Option.filter_some]

theorem errors_items (j : Job) {e : Expr} (he : e.WellFormed) :
    (e.items.filterMap j.diagnostic?).filter Diagnostic.isError =
      (j.refusedNames e).map j.target.refusal := by
  have hcalls : e.survey callSurvey = e.items.filterMap Item.call? :=
    Expr.survey_eq_filterMap (fun _ => rfl) (fun _ _ => rfl) (fun _ _ => rfl) he
  rw [refusedNames, hcalls, List.filter_filterMap, List.filter_filterMap, List.map_map,
    List.map_filterMap]
  exact congrArg (List.filterMap · e.items) (funext j.filter_isError_diagnostic?)

/-- If the reports on formulas are the diagnostics of their items, the errors among them are
those of the calls that cannot be carried over. -/
theorem errors_flatMap (j : Job) {g : Expr → List Diagnostic} {es : List Expr}
    (h : ∀ e ∈ es, e.WellFormed ∧ g e = e.items.filterMap j.diagnostic?) :
    (es.flatMap g).filter Diagnostic.isError =
      (es.flatMap j.refusedNames).map j.target.refusal := by
  rw [List.filter_flatMap, List.map_flatMap]
  apply List.flatMap_congr
  intro e he
  obtain ⟨hwell, hg⟩ := h e he
  rw [hg, j.errors_items hwell]

theorem errors_translate (j : Job) (s : Text) :
    (j.translate s).diagnostics.filter Diagnostic.isError =
      ((j.accepted s).flatMap j.refusedNames).map j.target.refusal := by
  cases j with
  | toFp o =>
      rw [translate, translateToFp, List.filter_append,
        filter_flatMap_namingReport (fun _ => rfl), List.append_nil]
      apply errors_flatMap
      intro e he
      have hwell := wellFormed_of_mem_accepted (j := toFp o) he
      exact ⟨hwell, Fp.survey_report o hwell⟩
  | toMoodle =>
      apply errors_flatMap
      intro e he
      have hwell := wellFormed_of_mem_fpBlocks he
      exact ⟨hwell, Moodle.survey_report hwell⟩

theorem exists_mem_refusedNames_iff (j : Job) (e : Expr) :
    (∃ n, n ∈ j.refusedNames e) ↔ ∃ c ∈ e.survey callSurvey, ¬ j.Translates c.1 c.2 := by
  simp [refusedNames]

end Job

namespace Translator

/-- The errors of a session are those of the calls that cannot be carried over, in their
order. -/
theorem errors_session (j : Job) (texts : List Text) :
    ((new j).session texts).2.diagnostics.filter Diagnostic.isError =
      ((texts.flatMap j.accepted).flatMap j.refusedNames).map j.target.refusal := by
  have hstep : ∀ s ∈ texts, (j.translate s).diagnostics.filter Diagnostic.isError =
      ((j.accepted s).flatMap j.refusedNames).map j.target.refusal :=
    fun s _ => j.errors_translate s
  rw [diagnostics_session, new, List.nil_append, List.filter_flatMap, List.flatMap_congr hstep,
    List.flatMap_assoc, List.map_flatMap]

theorem hasErrors_session_iff (j : Job) (texts : List Text) :
    ((new j).session texts).2.hasErrors = true ↔
      ∃ s ∈ texts, ∃ e ∈ j.accepted s, ∃ c ∈ e.survey callSurvey, ¬ j.Translates c.1 c.2 := by
  have hany : ((new j).session texts).2.hasErrors = true ↔
      ∃ d, d ∈ ((new j).session texts).2.diagnostics.filter Diagnostic.isError := by
    simp [hasErrors]
  rw [hany, errors_session]
  simp only [List.mem_map, List.mem_flatMap, ← Job.exists_mem_refusedNames_iff]
  constructor
  · rintro ⟨-, n, ⟨e, ⟨s, hs, he⟩, hn⟩, -⟩
    exact ⟨s, hs, e, he, n, hn⟩
  · rintro ⟨s, hs, e, he, n, hn⟩
    exact ⟨_, n, ⟨e, ⟨s, hs, he⟩, hn⟩, rfl⟩

/-- A session has errors if and only if an accepted block has a call that cannot be carried
over. If there is none, all functions in the blocks that are written are functions of the
target dialect. There is one error for each such call, and its kind says whether the target
is known to lack the function. -/
theorem session_errors (j : Job) (texts : List Text) :
    (((new j).session texts).2.hasErrors = true ↔
      ∃ s ∈ texts, ∃ e ∈ j.accepted s, ∃ c ∈ e.survey callSurvey, ¬ j.Translates c.1 c.2) ∧
    (((new j).session texts).2.hasErrors = false →
      ∀ s ∈ texts, ∀ t ∈ j.emitted s,
        t <:+: (j.translate s).text ∧ ∀ n, IsFunctionIn n t → n ∈ j.target.functions) ∧
    ((new j).session texts).2.diagnostics.filter Diagnostic.isError =
      ((texts.flatMap j.accepted).flatMap j.refusedNames).map j.target.refusal ∧
    ∀ n, (j.target.refusal n).kind =
      if n ∈ j.target.lacking then .unsupportedFunctionKnown else .unsupportedFunctionUnknown := by
  refine ⟨hasErrors_session_iff j texts, ?_, errors_session j texts, j.target.kind_refusal⟩
  intro hnone s hs t ht
  refine ⟨j.infix_of_mem_emitted ht, ?_⟩
  obtain ⟨e, he, rfl⟩ := List.mem_map.1 ht
  have hcalls : ∀ c ∈ e.survey callSurvey, j.Translates c.1 c.2 := by
    intro c hc
    by_contra hrefused
    have herrors := (hasErrors_session_iff j texts).2 ⟨s, hs, e, he, c, hc, hrefused⟩
    rw [hnone] at herrors
    exact absurd herrors (by decide)
  exact fun n => j.mem_functions_of_isFunctionIn (Job.wellFormed_of_mem_accepted he) hcalls

/-- A root without a radicand is an error, and so is `round`, also in the arguments of `pi`. -/
example :
    ((new .toMoodle).session
        [r"fp{pi(round(x,2))}".toList, r"fp{ln(root(2))}".toList]).2.diagnostics =
      [.unsupported "round".toList .moodle, .unknown "root".toList] := by
  decide +kernel

end Translator

end QuizFormula

import QuizFormula.Proofs.Grammar.Induction
import QuizFormula.Proofs.Translation.Names

/-!
# What is reported

Numbers and names of wildcards are never errors, and of a call nothing is reported if its
function is one that both dialects have or one that needs more than a new name. So a
translation is without errors if all calls are of that kind.
-/

namespace QuizFormula

/-- A number out of range is no error. -/
theorem Literal.isError_of_warning? {limit : Binary64} {l : Text} {d : Diagnostic}
    (h : d ∈ (warning? limit l).toList) : d.isError = false := by
  rw [Option.mem_toList] at h
  unfold warning? at h
  split at h
  · simp at h
  · split at h
    · cases h
      rfl
    · simp at h

theorem mem_namingReport_iff (n : Text) (d : Diagnostic) :
    d ∈ namingReport n ↔ isTexName (texName n) = false ∧ d = .naming (texName n) := by
  rw [namingReport]
  cases isTexName (texName n) <;> simp

theorem isError_of_mem_namingReport {n : Text} {d : Diagnostic} (h : d ∈ namingReport n) :
    d.isError = false := by
  rw [((mem_namingReport_iff n d).1 h).2]
  rfl

/-- A filter that lets no report on a name through leaves nothing of such reports. -/
theorem filter_flatMap_namingReport {p : Diagnostic → Bool} (hp : ∀ n, p (.naming n) = false)
    (ns : List Text) : (ns.flatMap namingReport).filter p = [] := by
  rw [List.filter_eq_nil_iff]
  intro d hd
  obtain ⟨n, -, hn⟩ := List.mem_flatMap.1 hd
  rw [((mem_namingReport_iff n d).1 hn).2, hp]
  exact Bool.false_ne_true

namespace Fp

theorem report_call_of_mem (limit : Binary64) {n : Text} (hn : n ∈ rewritten) (arity : Nat) :
    (report limit).call n arity = [] :=
  if_pos hn

@[simp] theorem report_call_name (limit : Binary64) (f : SharedFunction) (arity : Nat) :
    (report limit).call (f.name .moodle) arity = [] :=
  (if_neg (name_not_mem_rewritten f)).trans (Dialect.fp.renameReport_name f)

/-- No error is reported of a formula if `fp` has something for every call. -/
theorem no_error (limit : Binary64) {e : Expr} (he : e.WellFormed)
    (hcalls : ∀ c ∈ e.calls, c.1 ∈ rewritten ∨ ∃ f : SharedFunction, f.name .moodle = c.1) :
    ∀ d ∈ e.survey (report limit), d.isError = false := by
  have hcall : ∀ (n : Text) (args : Args),
      (n ∈ rewritten ∨ ∃ f : SharedFunction, f.name .moodle = n) →
      ∀ d ∈ (report limit).call n args.length, d.isError = false := by
    intro n args hn d hd
    have hnil : (report limit).call n args.length = [] := by
      rcases hn with hn | ⟨f, rfl⟩
      · exact report_call_of_mem limit hn _
      · exact report_call_name limit f _
    rw [hnil] at hd
    exact absurd hd List.not_mem_nil
  exact Expr.forall_mem_survey (fun _ _ _ => Literal.isError_of_warning?)
    (fun _ _ _ _ => isError_of_mem_namingReport) hcall he (fun _ _ => trivial) hcalls

end Fp

namespace Moodle

theorem report_call_of_isRewritten {n : Text} {arity : Nat} (h : isRewritten n arity = true) :
    report.call n arity = [] :=
  if_pos h

@[simp] theorem report_call_name (f : SharedFunction) (arity : Nat) :
    report.call (f.name .fp) arity = [] := by
  have hrename := Dialect.moodle.renameReport_name f
  change (if isRewritten (f.name .fp) arity then [] else _) = []
  split
  · rfl
  · exact hrename

/-- Nothing is reported of a formula if Moodle has something for every call. -/
theorem survey_report_eq_nil {e : Expr} (he : e.WellFormed)
    (hcalls : ∀ c ∈ e.calls,
      isRewritten c.1 c.2.length = true ∨ ∃ f : SharedFunction, f.name .fp = c.1) :
    e.survey report = [] := by
  have hcall : ∀ (n : Text) (args : Args),
      (isRewritten n args.length = true ∨ ∃ f : SharedFunction, f.name .fp = n) →
      ∀ d ∈ report.call n args.length, False := by
    intro n args hn d hd
    have hnil : report.call n args.length = [] := by
      rcases hn with hn | ⟨f, rfl⟩
      · exact report_call_of_isRewritten hn
      · exact report_call_name f _
    rw [hnil] at hd
    exact List.not_mem_nil hd
  exact List.eq_nil_iff_forall_not_mem.2 (Expr.forall_mem_survey (W := fun _ => True)
    (fun _ _ _ => List.not_mem_nil) (fun _ _ _ _ => List.not_mem_nil) hcall he
    (fun _ _ => trivial) hcalls)

end Moodle

end QuizFormula

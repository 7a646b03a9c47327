import QuizFormula.Proofs.Grammar.Token
import QuizFormula.Target.Fp
import QuizFormula.Target.Moodle

/-!
# Names in the target dialect

The names that are written are names again: that of a renamed function, and that of
the macro of a wildcard. A call of which no error is reported is one of a function that
both dialects have, or of one that needs more than a new name. What is shown of calls is
shown for each of the latter and for all other names (`Fp.name_cases`,
`Moodle.name_cases`).
-/

namespace QuizFormula

theorem isMacroName_texName {n : Text} (hn : IsName n) : IsMacroName (texName n) := by
  constructor
  · obtain ⟨c, t, rfl, hc, -⟩ := hn
    have hne : c ≠ '_' := by
      rintro rfl
      exact absurd hc (by decide)
    simp [texName, hne]
  · intro c hc
    rw [texName, List.mem_filter] at hc
    have hname := hn.isNameChar c hc.1
    simpa [isNameChar, (by simpa using hc.2 : c ≠ '_')] using hname

theorem SharedFunction.isName_name (d : Dialect) (f : SharedFunction) : IsName (f.name d) := by
  cases d <;> cases f <;> decide

namespace Dialect

theorem isName_rename (d : Dialect) {n : Text} (hn : IsName n) :
    IsName (d.rename n) := by
  rw [rename, rename?]
  cases SharedFunction.ofName? d.opposite n with
  | none => exact hn
  | some f => exact f.isName_name d

theorem isError_refusal (target : Dialect) (s : Text) : (target.refusal s).isError = true := by
  unfold refusal
  split <;> rfl

/-- A call that is not reported as an error has a name in the target dialect. -/
theorem isSome_rename?_of_no_error {target : Dialect} {s : Text}
    (h : ∀ d ∈ target.renameReport s, d.isError = false) : (target.rename? s).isSome = true := by
  unfold renameReport at h
  split at h
  · assumption
  · have hrefusal := h _ (List.mem_singleton_self _)
    rw [isError_refusal] at hrefusal
    exact absurd hrefusal (by decide)

/-- What is renamed is a function that both dialects have. -/
theorem exists_sharedFunction {target : Dialect} {s : Text}
    (h : (target.rename? s).isSome = true) :
    ∃ f : SharedFunction, f.name target.opposite = s ∧ target.rename s = f.name target := by
  obtain ⟨t, ht⟩ := Option.isSome_iff_exists.1 h
  obtain ⟨f, hf, rfl⟩ := Option.map_eq_some_iff.1 ht
  refine ⟨f, SharedFunction.name_of_ofName? hf, ?_⟩
  rw [rename, ht, Option.getD_some]

theorem rename_name (target : Dialect) (f : SharedFunction) :
    target.rename (f.name target.opposite) = f.name target := by
  rw [rename, rename?_name, Option.getD_some]

theorem renameReport_name (target : Dialect) (f : SharedFunction) :
    target.renameReport (f.name target.opposite) = [] := by
  rw [renameReport, rename?_name, Option.isSome_some, if_pos rfl]

end Dialect

/-! ### Functions that need more than a new name -/

namespace Fp

theorem mem_rewritten (n : Text) :
    n ∈ rewritten ↔ n = "sqrt".toList ∨ n = "pow".toList ∨ n = "pi".toList := by
  simp only [rewritten, List.map_cons, List.map_nil, List.mem_cons, List.not_mem_nil, or_false]

@[elab_as_elim]
theorem name_cases {P : Text → Prop} (sqrt : P "sqrt".toList) (pow : P "pow".toList)
    (pi : P "pi".toList) (other : ∀ n, n ∉ rewritten → P n) (n : Text) : P n := by
  by_cases hn : n ∈ rewritten
  · rw [mem_rewritten] at hn
    rcases hn with rfl | rfl | rfl
    · exact sqrt
    · exact pow
    · exact pi
  · exact other n hn

theorem call_of_not_mem {n : Text} (hn : n ∉ rewritten) (ts : List Text) :
    call n ts = callText (Dialect.fp.rename n) ts := by
  simp only [mem_rewritten, not_or] at hn
  unfold call
  rw [if_neg hn.1, if_neg hn.2.1, if_neg hn.2.2]

theorem name_not_mem_rewritten (f : SharedFunction) : f.name .moodle ∉ rewritten := by
  cases f <;> decide

@[simp] theorem call_name (f : SharedFunction) (ts : List Text) :
    call (f.name .moodle) ts = callText (f.name .fp) ts := by
  rw [call_of_not_mem (name_not_mem_rewritten f)]
  exact congrArg (callText · ts) (Dialect.fp.rename_name f)

end Fp

namespace Moodle

theorem mem_rewritten (n : Text) : n ∈ rewritten ↔
    n = "pow".toList ∨ n = "neg".toList ∨ n = "clip".toList ∨ n = "pi".toList := by
  simp only [rewritten, List.map_cons, List.map_nil, List.mem_cons, List.not_mem_nil, or_false]

@[elab_as_elim]
theorem name_cases {P : Text → Prop} (root : P "root".toList) (pow : P "pow".toList)
    (neg : P "neg".toList) (clip : P "clip".toList) (pi : P "pi".toList)
    (other : ∀ n, n ≠ "root".toList → n ∉ rewritten → P n) (n : Text) : P n := by
  by_cases hroot : n = "root".toList
  · subst hroot
    exact root
  · by_cases hn : n ∈ rewritten
    · rw [mem_rewritten] at hn
      rcases hn with rfl | rfl | rfl | rfl
      · exact pow
      · exact neg
      · exact clip
      · exact pi
    · exact other n hroot hn

theorem call_of_not_mem {n : Text} (hroot : n ≠ "root".toList) (hn : n ∉ rewritten)
    (ts : List Text) : call n ts = callText (Dialect.moodle.rename n) ts := by
  simp only [mem_rewritten, not_or] at hn
  unfold call
  rw [if_neg hroot, if_neg hn.1, if_neg hn.2.1, if_neg hn.2.2.1, if_neg hn.2.2.2]

theorem name_not_mem_rewritten (f : SharedFunction) :
    f.name .fp ≠ "root".toList ∧ f.name .fp ∉ rewritten := by
  cases f <;> decide

@[simp] theorem call_name (f : SharedFunction) (ts : List Text) :
    call (f.name .fp) ts = callText (f.name .moodle) ts := by
  obtain ⟨hroot, hn⟩ := name_not_mem_rewritten f
  rw [call_of_not_mem hroot hn]
  exact congrArg (callText · ts) (Dialect.moodle.rename_name f)

theorem isRewritten_iff (n : Text) (arity : Nat) : isRewritten n arity = true ↔
    n ∈ rewritten ∨ n = "root".toList ∧ arity = 2 := by
  simp only [isRewritten, Bool.or_eq_true, Bool.and_eq_true, decide_eq_true_eq]

theorem isRewritten_of_mem {n : Text} (hn : n ∈ rewritten) (arity : Nat) :
    isRewritten n arity = true :=
  (isRewritten_iff n arity).2 (.inl hn)

end Moodle

end QuizFormula

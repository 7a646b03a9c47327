import QuizFormula.Proofs.Document.Contents
import QuizFormula.Proofs.Session
import QuizFormula.Proofs.Translation.Reports

/-!
# The options of a session

Of the options the precision decides on what is written and the limit on what is reported,
and neither one on anything else: two sessions over the same documents agree in their texts
if the precisions agree, and in their diagnostics if the limits agree
(`Translator.session_options`). With a greater limit, overflows are no longer reported whose
literals do not exceed it; what else is reported stays, in the same order.
-/

namespace QuizFormula

namespace Binary64

/-- Whether one number is at most another. A NaN is not comparable, and the two zeros are
equal. -/
def le : Binary64 → Binary64 → Bool
  | .nan, _ => false
  | _, .nan => false
  | .infinite a, .infinite b => a || !b
  | .infinite a, .finite _ _ => a
  | .finite _ _, .infinite b => !b
  | .finite a m, .finite b n => signedUnits a m ≤ signedUnits b n

theorem lt_of_le_of_lt {x y z : Binary64} (hxy : le x y = true) (hyz : lt y z = true) :
    lt x z = true := by
  cases x <;> cases y <;> cases z <;> simp_all [le, lt]
  all_goals omega

end Binary64

theorem exceeds_of_le {limit limit' : Binary64} (h : limit.le limit' = true) {l : Text}
    (hl : exceeds limit' l = true) : exceeds limit l = true := by
  unfold exceeds at hl ⊢
  obtain ⟨x, hx, hlt⟩ := (Option.any_eq_true _ _).1 hl
  exact (Option.any_eq_true _ _).2 ⟨x, hx, Binary64.lt_of_le_of_lt h hlt⟩

/-! ### What a limit leaves of the diagnostics -/

/-- Whether the limit is no reason to leave out the diagnostic. -/
def Diagnostic.staysAt (limit : Binary64) : Diagnostic → Bool
  | overflow l => exceeds limit l
  | _ => true

theorem Diagnostic.staysAt_of_kind_ne {d : Diagnostic} (h : d.kind ≠ .numericOverflow)
    (limit : Binary64) : d.staysAt limit = true := by
  cases d with
  | overflow l => exact absurd rfl h
  | naming n => rfl
  | unsupported n target => rfl
  | unknown n => rfl

theorem Dialect.staysAt_refusal (target : Dialect) (n : Text) (limit : Binary64) :
    (target.refusal n).staysAt limit = true := by
  unfold refusal
  split <;> rfl

theorem staysAt_of_mem_namingReport {n : Text} {d : Diagnostic} (h : d ∈ namingReport n)
    (limit : Binary64) : d.staysAt limit = true := by
  rw [((mem_namingReport_iff n d).1 h).2]
  rfl

section Limits

variable {o o' : Options} (h : o.overflowLimit.le o'.overflowLimit = true)
include h

/-- Of the diagnostic on an item, the greater limit leaves what it gives rise to itself. -/
theorem filter_staysAt_diagnostic? (x : Item) :
    ((Job.toFp o).diagnostic? x).filter (Diagnostic.staysAt o'.overflowLimit) =
      (Job.toFp o').diagnostic? x := by
  cases x with
  | number l =>
      rw [Job.diagnostic?, Job.diagnostic?]
      by_cases hl : exceeds o'.overflowLimit l = true
      · rw [if_pos hl, if_pos (exceeds_of_le h hl)]
        exact Option.filter_some_pos hl
      · -- Under the smaller limit there may be a diagnostic, which is left out.
        rw [if_neg hl]
        split
        · exact Option.filter_some_neg (Bool.eq_false_iff.2 hl)
        · rfl
  | wildcard n =>
      rw [Job.diagnostic?, Job.diagnostic?]
      split <;> rfl
  | call n arity =>
      have hsupports : (Job.toFp o').supports n arity = (Job.toFp o).supports n arity := rfl
      rw [Job.diagnostic?, Job.diagnostic?, hsupports]
      split
      · rfl
      · exact Option.filter_some_pos (Dialect.staysAt_refusal _ n _)

theorem diagnostics_translateToFp_of_le (s : Text) :
    (translateToFp o' s).diagnostics =
      (translateToFp o s).diagnostics.filter (Diagnostic.staysAt o'.overflowLimit) := by
  have hblocks : ((moodleBlocks s).flatMap (Expr.survey (Fp.report o.overflowLimit))).filter
        (Diagnostic.staysAt o'.overflowLimit) =
      (moodleBlocks s).flatMap (Expr.survey (Fp.report o'.overflowLimit)) := by
    rw [List.filter_flatMap]
    apply List.flatMap_congr
    intro e he
    have hwell := wellFormed_of_mem_moodleBlocks he
    rw [Fp.survey_report o hwell, Fp.survey_report o' hwell, List.filter_filterMap]
    exact congrArg (List.filterMap · e.items) (funext (filter_staysAt_diagnostic? h))
  have hnaming : ((looseWildcards s).flatMap namingReport).filter
      (Diagnostic.staysAt o'.overflowLimit) = (looseWildcards s).flatMap namingReport := by
    rw [List.filter_eq_self]
    intro d hd
    obtain ⟨n, -, hn⟩ := List.mem_flatMap.1 hd
    exact staysAt_of_mem_namingReport hn _
  simp only [translateToFp_eq, List.filter_append, hblocks, hnaming]

end Limits

/-- The text depends on the precision alone. -/
theorem text_translateToFp_congr {o o' : Options} (h : o.fixedPrecision = o'.fixedPrecision)
    (s : Text) : (translateToFp o s).text = (translateToFp o' s).text := by
  simp only [translateToFp_eq, h]

/-- The diagnostics depend on the limit alone. -/
theorem diagnostics_translateToFp_congr {o o' : Options}
    (h : o.overflowLimit = o'.overflowLimit) (s : Text) :
    (translateToFp o s).diagnostics = (translateToFp o' s).diagnostics := by
  simp only [translateToFp_eq, h]

namespace Translator

/-- Two sessions over the same documents write the same texts if their precisions agree, and
report and log the same if their limits agree, whether or not their options are valid. With a
greater limit the diagnostics are the same ones without some of the overflows, in the same
order. -/
theorem session_options (o o' : Options) (texts : List Text) :
    (o.fixedPrecision = o'.fixedPrecision →
      ((new (.toFp o)).session texts).1.map Rendered.text =
        ((new (.toFp o')).session texts).1.map Rendered.text) ∧
    (o.overflowLimit = o'.overflowLimit →
      ((new (.toFp o)).session texts).2.diagnostics =
        ((new (.toFp o')).session texts).2.diagnostics ∧
      ((new (.toFp o)).session texts).1.map Rendered.log =
        ((new (.toFp o')).session texts).1.map Rendered.log) ∧
    (o.overflowLimit.le o'.overflowLimit = true →
      ((new (.toFp o')).session texts).2.diagnostics =
        ((new (.toFp o)).session texts).2.diagnostics.filter
          (Diagnostic.staysAt o'.overflowLimit)) ∧
    ∀ d : Diagnostic, d.kind ≠ .numericOverflow → d.staysAt o'.overflowLimit = true := by
  refine ⟨?_, ?_, ?_, fun d hd => Diagnostic.staysAt_of_kind_ne hd _⟩
  · intro h
    rw [texts_session, texts_session]
    exact List.map_congr_left fun s _ => text_translateToFp_congr h s
  · intro h
    have hsame : ∀ s ∈ texts,
        (translateToFp o s).diagnostics = (translateToFp o' s).diagnostics :=
      fun s _ => diagnostics_translateToFp_congr h s
    constructor
    · rw [diagnostics_session, diagnostics_session]
      exact congrArg ([] ++ ·) (List.flatMap_congr hsame)
    · rw [logs_session, logs_session]
      exact List.map_congr_left fun s hs => congrArg (List.map Diagnostic.event) (hsame s hs)
  · intro h
    rw [diagnostics_session, diagnostics_session, new, new, List.nil_append, List.nil_append,
      List.filter_flatMap]
    exact List.flatMap_congr fun s _ => diagnostics_translateToFp_of_le h s

theorem session_options_hundred :
    let documents := [r"{=20+3e2*{x_1}}".toList, r"{=sgn(1e1)}".toList]
    let ten : Options := ⟨Binary64.ofNat 10, 2⟩
    let hundred : Options := ⟨Binary64.ofNat 100, 2⟩
    ten.overflowLimit.le hundred.overflowLimit = true ∧
      ((new (.toFp ten)).session documents).1.map Rendered.text =
        ((new (.toFp hundred)).session documents).1.map Rendered.text ∧
      ((new (.toFp hundred)).session documents).2.diagnostics =
        ((new (.toFp ten)).session documents).2.diagnostics.filter
          (Diagnostic.staysAt hundred.overflowLimit) := by
  intro documents ten hundred
  have hle : ten.overflowLimit.le hundred.overflowLimit = true := by decide +kernel
  exact ⟨hle, (session_options ten hundred documents).1 rfl,
    (session_options ten hundred documents).2.2.1 hle⟩

/-- The greater limit leaves out the first report alone. -/
example :
    ((new (.toFp ⟨Binary64.ofNat 10, 2⟩)).render
        r"{=20+3e2*{x_1}}".toList).2.diagnostics =
      [.overflow "20".toList, .overflow "3e2".toList, .naming "x1".toList] ∧
    ((new (.toFp ⟨Binary64.ofNat 100, 2⟩)).render
        r"{=20+3e2*{x_1}}".toList).2.diagnostics =
      [.overflow "3e2".toList, .naming "x1".toList] := by
  decide +kernel

end Translator

end QuizFormula

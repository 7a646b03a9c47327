import QuizFormula.Proofs.Document.Accepted
import QuizFormula.Proofs.Meaning.Normalized
import QuizFormula.Proofs.Session.Options
import QuizFormula.Proofs.Translation.Numbers

/-!
# Exponents that are left

`fp` reads plain decimals only. A number of a written block has an exponent nevertheless if
it is too large to be expanded. It reads as infinite then, so it exceeds every limit but an
infinite one. An infinite limit is valid too, and with it nothing is reported of such a
number (`Translator.exponents_reported`).
-/

namespace QuizFormula

theorem Binary64.ofNumeral_ne_nan (n : Numeral) : ofNumeral n ≠ .nan := by
  rw [ofNumeral, ofDecimal, ofRatio]
  split <;> simp

/-- A number that has an exponent in its prepared form is kept, and reads as infinite. -/
theorem Literal.kept_of_mem_text {precision : Nat} {l : Text} (hl : IsNumber l)
    (he : 'e' ∈ text precision l ∨ 'E' ∈ text precision l) :
    text precision l = l ∧ ∃ negative, Binary64.ofText? l = some (.infinite negative) := by
  have hkept : text precision l = l := by
    rcases text_eq_or l with h | h
    · exact h precision
    · exact absurd he (not_or.2 (h precision))
  refine ⟨hkept, ?_⟩
  obtain ⟨n, hn, hwhole, rfl⟩ := hl
  have hread := Binary64.ofText?_eq_ofNumeral (Numeral.ofText?_text hn hwhole)
  cases hx : Binary64.ofNumeral n with
  | nan => exact absurd hx (Binary64.ofNumeral_ne_nan n)
  | infinite negative => exact ⟨negative, hread.trans (congrArg some hx)⟩
  | finite negative units =>
      rw [hx] at hread
      rw [hkept] at he
      have hfixed := text_eq_fixed precision hread he
      rw [hkept] at hfixed
      rw [hfixed, fixed] at he
      exact absurd he (not_or.2 (Decimal.not_mem_toPlain _))

/-! ### Valid limits -/

theorem Options.Valid.le_self {o : Options} (ho : o.Valid) :
    o.overflowLimit.le o.overflowLimit = true := by
  have hpos := ho.1
  cases h : o.overflowLimit with
  | nan => simp [h] at hpos
  | infinite negative => simp [Binary64.le]
  | finite negative units => simp [Binary64.le]

/-- What is infinite exceeds every valid limit but the infinite one. -/
theorem Options.Valid.exceeds_iff {o : Options} (ho : o.Valid) {l : Text} {negative : Bool}
    (hl : Binary64.ofText? l = some (.infinite negative)) :
    exceeds o.overflowLimit l = true ↔ o.overflowLimit ≠ .infinite false := by
  have hpos := ho.1
  rw [exceeds, hl, Option.any_some, Binary64.abs]
  cases h : o.overflowLimit with
  | nan => simp [h] at hpos
  | infinite sign =>
      cases sign with
      | false => simp [Binary64.lt]
      | true => simp [h, Binary64.lt, Binary64.zero] at hpos
  | finite sign units => simp [Binary64.lt]

/-- Of the numbers in the blocks of a document those are reported that exceed the limit. -/
theorem overflow_mem_diagnostics_iff {o : Options} (ho : o.Valid) {s : Text} {e : Expr}
    (he : e ∈ moodleBlocks s) {l : Text} (hl : l ∈ e.survey numberSurvey) :
    .overflow l ∈ (translateToFp o s).diagnostics ↔ exceeds o.overflowLimit l = true := by
  constructor
  · intro h
    rw [diagnostics_translateToFp_of_le ho.le_self] at h
    exact (List.mem_filter.1 h).2
  · intro h
    have hreport : .overflow l ∈ (Fp.report o.overflowLimit).number l := by
      change .overflow l ∈ (Literal.warning? o.overflowLimit l).toList
      rw [toList_warning?, if_pos h]
      exact List.mem_singleton_self _
    have hsurvey : .overflow l ∈ e.survey (Fp.report o.overflowLimit) := by
      refine Expr.mem_survey_of_mem ?_ (fun _ h => absurd h List.not_mem_nil)
        (fun _ _ h => absurd h List.not_mem_nil) (wellFormed_of_mem_moodleBlocks he) hl
      intro m hm
      rwa [← List.mem_singleton.1 hm]
    rw [translateToFp_eq]
    exact List.mem_append_left _ (List.mem_flatMap.2 ⟨e, he, hsurvey⟩)

theorem isNumber_of_mem_numberSurvey {e : Expr} (he : e.WellFormed) :
    ∀ l ∈ e.survey numberSurvey, IsNumber l :=
  Expr.forall_mem_survey (W := fun _ => True) (Q := fun _ _ => True)
    (fun _ hl => List.forall_mem_singleton.2 hl) (fun _ _ _ _ h => absurd h List.not_mem_nil)
    (fun _ _ _ _ h => absurd h List.not_mem_nil) he (fun _ _ => trivial) (fun _ _ => trivial)

namespace Translator

/-- A number that has an exponent in a written block reads as infinite. Rendering the document
reports it if and only if the limit is finite. -/
theorem exponents_reported {t : Translator} {o : Options} (hjob : t.job = .toFp o)
    (ho : o.Valid) (s : Text) :
    ∃ new, (t.render s).2.diagnostics = t.diagnostics ++ new ∧
      ∀ b ∈ (Job.toFp o).emitted s, b <:+: (t.render s).1.text ∧
        ∀ l ∈ numbersIn b, 'e' ∈ l ∨ 'E' ∈ l →
          (∃ negative, Binary64.ofText? l = some (.infinite negative)) ∧
          (.overflow l ∈ new ↔ o.overflowLimit ≠ .infinite false) := by
  refine ⟨(translateToFp o s).diagnostics, by rw [diagnostics_render, hjob]; rfl, ?_⟩
  intro b hb
  have hpart := Job.infix_of_mem_emitted hb
  rw [text_render, hjob]
  refine ⟨hpart, ?_⟩
  obtain ⟨e, he, rfl⟩ := List.mem_map.1 hb
  rw [Job.accepted, foundValues_moodleSegments] at he
  have hwell := wellFormed_of_mem_moodleBlocks he
  intro l hl hmark
  rcases Fp.mem_numbersIn_block o.fixedPrecision hwell l hl with rfl | hwritten
  · exact absurd hmark (by decide)
  · obtain ⟨l', hl', rfl⟩ := List.mem_map.1 hwritten
    obtain ⟨hkept, negative, hinf⟩ :=
      Literal.kept_of_mem_text (isNumber_of_mem_numberSurvey hwell l' hl') hmark
    rw [hkept]
    exact ⟨⟨negative, hinf⟩,
      (overflow_mem_diagnostics_iff ho he hl').trans (ho.exceeds_iff hinf)⟩

/-- A number too large to be expanded is reported by default. -/
theorem exponents_reported_default :
    ∃ b ∈ (Job.toFp .default).emitted r"{=3-1e-5/-1E2000}".toList,
      "-1E2000".toList ∈ numbersIn b ∧
      .overflow "-1E2000".toList ∈ ((new (.toFp .default)).render
        r"{=3-1e-5/-1E2000}".toList).2.diagnostics := by
  have hb : r"\FPprint{\FPeval{\out}{clip(3-0.00001/-1E2000)}\out}".toList ∈
      (Job.toFp .default).emitted r"{=3-1e-5/-1E2000}".toList := by
    decide +kernel
  have hl : "-1E2000".toList ∈ numbersIn
      r"\FPprint{\FPeval{\out}{clip(3-0.00001/-1E2000)}\out}".toList := by
    decide +kernel
  obtain ⟨new, hnew, hreported⟩ := exponents_reported (t := new (.toFp .default)) rfl
    (by decide +kernel) r"{=3-1e-5/-1E2000}".toList
  refine ⟨_, hb, hl, ?_⟩
  rw [hnew]
  exact List.mem_append_right _
    (((hreported _ hb).2 _ hl (.inr (by decide))).2.2 (by decide +kernel))

/-- With an infinite limit, which is valid, `fp` is given an exponent and nothing is
reported. -/
theorem exponents_unreported :
    (⟨.infinite false, 18⟩ : Options).Valid ∧
      (∃ b ∈ (Job.toFp ⟨.infinite false, 18⟩).emitted r"{=1e2000}".toList,
        "1e2000".toList ∈ numbersIn b) ∧
      ((new (.toFp ⟨.infinite false, 18⟩)).render r"{=1e2000}".toList).1.text =
        r"\FPprint{\FPeval{\out}{clip(1e2000)}\out}".toList ∧
      ((new (.toFp ⟨.infinite false, 18⟩)).render r"{=1e2000}".toList).2.diagnostics =
        [] := by
  decide +kernel

end Translator

end QuizFormula

import QuizFormula.Proofs.Grammar.Commas
import QuizFormula.Proofs.Translation.Composed
import QuizFormula.Proofs.Translation.Constants
import QuizFormula.Proofs.Translation.ToFp
import QuizFormula.Translator

/-!
# What `fp` is given to evaluate

In the block that is written for `fp` the translated formula stands inside of `clip`. What
is evaluated is a formula again, unless a square root has no argument: its degree is then
written with a comma after it and nothing more (`fpBlock_evaluates_formula`). In the
arguments of `pi` this does not matter, since they are not written.
-/

namespace QuizFormula

namespace Fp

/-- What `fp` evaluates: the written formula inside of `clip`. -/
def evaluated (precision : Nat) (e : Expr) : Text :=
  callText "clip".toList [e.render (rendering precision)]

theorem block_eq_evaluated (precision : Nat) (e : Expr) :
    block precision e = r"\FPprint{\FPeval{\out}{".toList ++
      (evaluated precision e ++ r"}\out}".toList) := by
  have hopening : blockOpening =
      r"\FPprint{\FPeval{\out}{".toList ++ ("clip".toList ++ ['(']) := rfl
  have hclosing : blockClosing = [')'] ++ r"}\out}".toList := rfl
  rw [block, evaluated, callText_singleton, hopening, hclosing]
  simp only [List.append_assoc, List.cons_append, List.nil_append]

/-- If every square root has an argument, what is evaluated is a formula. -/
theorem exists_isFormula_evaluated (precision : Nat) {e : Expr} (he : e.WellFormed)
    (hsqrt : ("sqrt".toList, 0) ∉ (e.rewrite constantPi).survey callSurvey) :
    ∃ e', IsFormula .tex e' (evaluated precision e) := by
  have hwritable : ∀ c ∈ (e.rewrite constantPi).calls, IsWritable c.1 c.2 := by
    rintro ⟨n, args⟩ hc rfl rfl
    exact hsqrt (Expr.mem_survey_of_mem_calls (List.mem_singleton_self _) hc)
  have hformula := (isWrittenBy_rendering precision).formulaText he.rewrite_constantPi hwritable
  rw [render_constantPi (fun _ => rfl) he] at hformula
  have hclip := ArgsText.call (n := "clip".toList) (by decide) (.cons hformula .nil)
  exact ⟨_, hclip.atomText.last.isFormula⟩

/-! ### A square root without an argument -/

/-- The arguments of a call stand in what is written for it, unless it is a call of `pi`. -/
theorem infix_call {n t : Text} {ts : List Text} (hpi : n ≠ "pi".toList) (ht : t ∈ ts) :
    t <:+: call n ts := by
  cases n using name_cases with
  | sqrt =>
      have hargs : commaSeparated ts <:+: squareRoot ts :=
        ⟨"root(2, ".toList, [')'], List.append_assoc _ _ _⟩
      exact (infix_commaSeparated ht).trans hargs
  | pow =>
      rw [← exchangePair_exchangePair ts] at ht
      exact infix_callText _ (mem_exchangePair ht)
  | pi => exact absurd rfl hpi
  | other n hother =>
      rw [call_of_not_mem hother]
      exact infix_callText _ ht

theorem embeds_rendering (precision : Nat) :
    (rendering precision).Embeds fun _ => True where
  pi _ := rfl
  minus _ := ⟨"neg(".toList, [')'], List.append_assoc _ _ _⟩
  call hpi ht _ := infix_call hpi ht
  of_call _ _ := trivial
  of_part _ _ := trivial

/-- If a square root has no argument, a comma dangles in what is written. -/
theorem dangles_render (precision : Nat) {e : Expr} (he : e.WellFormed)
    (hsqrt : ("sqrt".toList, 0) ∈ (e.rewrite constantPi).survey callSurvey) :
    dangles (e.render (rendering precision)) = true := by
  obtain ⟨c, hc, heq⟩ := he.rewrite_constantPi.exists_call_of_mem_survey _ hsqrt
  obtain ⟨hn, hlength⟩ := Prod.mk.inj heq
  have hcall := (embeds_rendering precision).infix_render he c hc
  rw [← hn, List.length_eq_zero_iff.1 ((length_render_args _ c.2).trans hlength.symm)] at hcall
  have hempty : dangles (call "sqrt".toList []) = true := by decide
  exact dangles_of_part hempty hcall

/-- What is evaluated is a formula if and only if no square root is without an argument,
apart from the arguments of `pi`. -/
theorem exists_isFormula_evaluated_iff (precision : Nat) {e : Expr} (he : e.WellFormed) :
    (∃ e', IsFormula .tex e' (evaluated precision e)) ↔
      ("sqrt".toList, 0) ∉ (e.rewrite constantPi).survey callSurvey := by
  constructor
  · rintro ⟨e', h⟩ hsqrt
    have hdangles := dangles_render precision he hsqrt
    exact not_isFormula_of_dangles
      (dangles_of_part hdangles (infix_callText _ (List.mem_singleton_self _))) e' h
  · exact exists_isFormula_evaluated precision he

end Fp

/-- What is written for a block has `fp` evaluate a text that is a formula if and only if no
square root of the block is without an argument, apart from the arguments of `pi`. -/
theorem fpBlock_evaluates_formula (o : Options) {s r : Text} {e : Expr}
    (h : block? .moodle s = some (e, r)) :
    Fp.block o.fixedPrecision e =
      r"\FPprint{\FPeval{\out}{".toList ++
        (Fp.evaluated o.fixedPrecision e ++ r"}\out}".toList) ∧
    ((∃ e', IsFormula .tex e' (Fp.evaluated o.fixedPrecision e)) ↔
      ("sqrt".toList, 0) ∉ (e.rewrite constantPi).survey callSurvey) :=
  ⟨Fp.block_eq_evaluated o.fixedPrecision e,
    Fp.exists_isFormula_evaluated_iff o.fixedPrecision (wellFormed_of_block? h)⟩

/-- A power of a negated square root. -/
theorem fpBlock_evaluates_formula_pow : ∃ e,
    block? .moodle r"{=pow(-sqrt({x_1}), 2)}".toList = some (e, []) ∧
    Fp.evaluated 18 e = r"clip(pow(2,neg(root(2, \x1 ))))".toList ∧
    ∃ e', IsFormula .tex e' (Fp.evaluated 18 e) := by
  have hread : block? .moodle r"{=pow(-sqrt({x_1}), 2)}".toList =
      some (.last (.call "pow".toList (.cons (.last (.minus (.call "sqrt".toList
        (.cons (.last (.wildcard "x_1".toList)) .nil))))
          (.cons (.last (.number "2".toList)) .nil))), []) := by
    decide +kernel
  refine ⟨_, hread, by decide +kernel, ?_⟩
  exact (fpBlock_evaluates_formula .default hread).2.2 (by decide)

/-- A square root without an argument is written without an error, and what is evaluated is
no formula. -/
theorem evaluated_no_formula : ∃ e,
    block? .moodle r"{=sqrt()}".toList = some (e, []) ∧
    ((Translator.new (.toFp .default)).render r"{=sqrt()}".toList).2.hasErrors = false ∧
    Fp.evaluated 18 e = "clip(root(2, ))".toList ∧
    ¬ ∃ e', IsFormula .tex e' (Fp.evaluated 18 e) := by
  refine ⟨.last (.call "sqrt".toList .nil), by decide +kernel, by decide +kernel,
    by decide +kernel, ?_⟩
  rintro ⟨e', h⟩
  exact not_isFormula_of_dangles (by decide +kernel) e' h

end QuizFormula

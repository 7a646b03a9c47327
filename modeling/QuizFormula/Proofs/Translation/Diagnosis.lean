import QuizFormula.Proofs.Grammar.Completion
import QuizFormula.Proofs.Grammar.Induction
import QuizFormula.Translator

/-!
# What is reported of an item

Each item of a formula gives rise to one diagnostic at most. Going to `fp`, these are the
numbers beyond the limit, the wildcards with a digit in their names and the calls that
`fp` has nothing for; going to Moodle, the calls that Moodle has nothing for. The reports
on a formula are the diagnostics of its items, in their order.
-/

namespace QuizFormula

/-- The number that the literal reads as exceeds the limit. -/
def exceeds (limit : Binary64) (literal : Text) : Bool :=
  (Binary64.ofText? literal).any fun x => limit.lt x.abs

def Item.wildcard? : Item → Option Text
  | number _ => none
  | wildcard n => some n
  | call _ _ => none

namespace Job

/-- The dialect of the documents that are translated. -/
def source : Job → Dialect
  | toFp _ => .moodle
  | toMoodle => .fp

/-- Whether a call can be carried over. -/
def supports : Job → Text → Nat → Bool
  | toFp _, n, _ => n ∈ Fp.rewritten || (SharedFunction.ofName? .moodle n).isSome
  | toMoodle, n, arity => Moodle.isRewritten n arity || (SharedFunction.ofName? .fp n).isSome

/-- The diagnostic on an item, if there is one. -/
def diagnostic? (j : Job) : Item → Option Diagnostic
  | .number l =>
    match j with
    | toFp o => if exceeds o.overflowLimit l then some (.overflow l) else none
    | toMoodle => none
  | .wildcard n =>
    match j with
    | toFp _ => if n.any Char.isDigit then some (.naming (texName n)) else none
    | toMoodle => none
  | .call n arity => if j.supports n arity then none else some (j.source.opposite.refusal n)

/-- The wildcard that an item makes known. The bare name `pi` is the constant. -/
def wildcard? : Job → Item → Option Text
  | toFp _, _ => none
  | toMoodle, x => x.wildcard?.filter (· ≠ Moodle.piName)

end Job

/-- A survey that notes one thing of an item at most notes them item by item. -/
theorem Expr.survey_eq_filterMap {β : Type} {v : Survey β} {f : Item → Option β}
    (number : ∀ l, v.number l = (f (.number l)).toList)
    (wildcard : ∀ n, IsName n → v.wildcard n = (f (.wildcard n)).toList)
    (call : ∀ n arity, v.call n arity = (f (.call n arity)).toList) {e : Expr}
    (he : e.WellFormed) : e.survey v = e.items.filterMap f := by
  have hone : ∀ x, (f x).toList = [x].filterMap f := by
    intro x
    rw [List.filterMap_cons]
    cases f x <;> rfl
  have hind : FormulaInduction (fun e => e.survey v = e.items.filterMap f)
      (fun a => a.survey v = (a.survey itemSurvey).filterMap f)
      (fun args => args.survey v = (args.survey itemSurvey).filterMap f)
      (fun _ => True) (fun _ _ => True) :=
    { last := fun a ha => ha
      chain := fun a op e ha he => by
        rw [Expr.survey, Expr.items, Expr.survey, List.filterMap_append, ha, he, Expr.items]
      number := fun l _ => (number l).trans (hone _)
      wildcard := fun n hn _ => (wildcard n hn).trans (hone _)
      group := fun e he => he
      call := fun n args _ _ _ hargs => by
        rw [Atom.survey, Atom.survey, List.filterMap_append, hargs, call, hone]
        rfl
      minus := fun a ha => ha
      nil := rfl
      cons := fun e args he hargs => by
        rw [Args.survey, Args.survey, List.filterMap_append, he, hargs, Expr.items] }
  exact hind.formula he (fun _ _ => trivial) (fun _ _ => trivial)

/-! ### The reports of the two directions -/

theorem toList_warning? (limit : Binary64) (l : Text) :
    (Literal.warning? limit l).toList =
      (if exceeds limit l then some (Diagnostic.overflow l) else none).toList := by
  unfold Literal.warning? exceeds
  cases Binary64.ofText? l <;> rfl

/-- What TeX does not take as part of a name are the digits. -/
theorem isTexName_texName {n : Text} (hn : IsName n) :
    isTexName (texName n) = !n.any Char.isDigit := by
  have hchar : ∀ c ∈ n, (c ≠ '_' → c.isAlpha = true) ↔ ¬ c.isDigit = true := by
    intro c hc
    have hname := hn.isNameChar c hc
    simp only [isNameChar, Char.isAlphanum, Bool.or_eq_true, decide_eq_true_eq] at hname
    rcases hname with (halpha | hdigit) | rfl
    · simp [halpha, isDigit_eq_false_of_isAlpha halpha]
    · have halpha : c.isAlpha ≠ true := by
        intro h
        rw [isDigit_eq_false_of_isAlpha h] at hdigit
        exact absurd hdigit (by decide)
      have hunderscore : c ≠ '_' := by
        rintro rfl
        exact absurd hdigit (by decide)
      simp [halpha, hunderscore, hdigit]
    · decide
  rw [Bool.eq_iff_iff, Bool.not_eq_true', ← Bool.not_eq_true, isTexName, texName,
    List.all_eq_true, List.any_eq_true, not_exists]
  simp only [List.mem_filter, decide_eq_true_eq, not_and, and_imp]
  exact forall₂_congr hchar

theorem namingReport_eq {n : Text} (hn : IsName n) :
    namingReport n = (if n.any Char.isDigit then some (Diagnostic.naming (texName n))
      else none).toList := by
  rw [namingReport, isTexName_texName hn]
  cases n.any Char.isDigit <;> rfl

/-- A call is reported unless it is rewritten or its function is shared. -/
theorem callReport_eq (target : Dialect) (rewritten : Bool) (n : Text) :
    (if rewritten then [] else target.renameReport n) =
      (if rewritten || (SharedFunction.ofName? target.opposite n).isSome then none
        else some (target.refusal n)).toList := by
  rw [Dialect.renameReport, Dialect.rename?, Option.isSome_map]
  cases rewritten <;> cases (SharedFunction.ofName? target.opposite n).isSome <;> rfl

theorem Fp.survey_report (o : Options) {e : Expr} (he : e.WellFormed) :
    e.survey (report o.overflowLimit) = e.items.filterMap (Job.toFp o).diagnostic? := by
  apply Expr.survey_eq_filterMap _ _ _ he
  · exact toList_warning? o.overflowLimit
  · exact fun n => namingReport_eq
  · intro n arity
    have hcall := callReport_eq .fp (decide (n ∈ rewritten)) n
    simp only [decide_eq_true_eq] at hcall
    exact hcall

theorem Moodle.survey_report {e : Expr} (he : e.WellFormed) :
    e.survey report = e.items.filterMap Job.toMoodle.diagnostic? := by
  apply Expr.survey_eq_filterMap _ _ _ he
  · exact fun l => rfl
  · exact fun n _ => rfl
  · exact fun n arity => callReport_eq .moodle (isRewritten n arity) n

/-- The wildcards of a formula are those of its items. -/
theorem Moodle.wildcards_eq {e : Expr} (he : e.WellFormed) :
    wildcards e = e.items.filterMap Job.toMoodle.wildcard? := by
  have hsurvey : e.survey wildcardSurvey = e.items.filterMap Item.wildcard? :=
    Expr.survey_eq_filterMap (fun _ => rfl) (fun _ _ => rfl) (fun _ _ => rfl) he
  rw [wildcards, hsurvey, List.filter_filterMap]
  rfl

end QuizFormula

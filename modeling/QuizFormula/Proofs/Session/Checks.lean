import QuizFormula.Proofs.Grammar.NumberText
import QuizFormula.Proofs.Session.Exponents

/-!
# Every number is checked

Every number of a formula is a text of a floating-point number, and it is none of the words.
So its magnitude is compared with the limit, and it does not pass unread
(`IsNumber.checked`). What it is prepared as is a number of formulas again, also where it has
been written out. In a document the overflows that are reported are those of the numbers in
accepted blocks whose magnitude exceeds the limit, each one where it stands
(`overflows_translateToFp`).
-/

namespace QuizFormula

/-- The literal reads as a number, which is compared with the limit, and what it is prepared
as is read as one number, whatever ends it. -/
structure Literal.Checked (o : Options) (l : Text) : Prop where
  compared : ∃ x, Binary64.ofText? l = some x ∧ x ≠ .nan ∧
    (normalize o l).2 = if o.overflowLimit.lt x.abs then some (.overflow l) else none
  readBack : ∀ r, AtBoundary r → number? ((normalize o l).1 ++ r) = some ((normalize o l).1, r)

theorem Literal.warning?_of_ofText? (limit : Binary64) {l : Text} {x : Binary64}
    (h : Binary64.ofText? l = some x) :
    warning? limit l = if limit.lt x.abs then some (.overflow l) else none := by
  rw [warning?, h]

theorem IsNumber.ofText?_ne_nan {l : Text} (hl : IsNumber l) :
    Binary64.ofText? l ≠ some .nan := by
  obtain ⟨n, hn, hne, rfl⟩ := hl
  rw [Binary64.ofText?_eq_ofNumeral (Numeral.ofText?_text hn hne)]
  exact fun h => Binary64.ofNumeral_ne_nan n (Option.some.inj h)

/-- A number of a formula is checked, under all options. -/
theorem IsNumber.checked (o : Options) {l : Text} (hl : IsNumber l) : Literal.Checked o l where
  compared := by
    obtain ⟨x, hx⟩ := Option.isSome_iff_exists.1
      ((Binary64.isSome_ofText?_iff l).2 hl.floatText)
    have hnan : x ≠ .nan := by
      rintro rfl
      exact hl.ofText?_ne_nan hx
    exact ⟨x, hx, hnan, Literal.warning?_of_ofText? o.overflowLimit hx⟩
  readBack _ hr := number?_append (Literal.isNumber_text o.fixedPrecision hl) hr

/-- Zero keeps its sign when it is written out. -/
example : (Literal.normalize .default "-0.0e5".toList).1 = "-0".toList ∧
    number? "-0".toList = some ("-0".toList, []) := by
  decide +kernel

/-! ### The overflows of a document -/

def Item.number? : Item → Option Text
  | number l => some l
  | wildcard _ => none
  | call _ _ => none

/-- The numbers in the accepted blocks of a document, in their order. -/
def Job.numbers (j : Job) (s : Text) : List Text :=
  (j.accepted s).flatMap (Expr.survey numberSurvey)

def Diagnostic.isOverflow (d : Diagnostic) : Bool := d.kind = .numericOverflow

theorem Dialect.isOverflow_refusal (target : Dialect) (n : Text) :
    (target.refusal n).isOverflow = false := by
  unfold refusal
  split <;> rfl

/-- Of the items of a formula only numbers are overflows, namely those that exceed the
limit. -/
theorem filter_isOverflow_diagnostic? (o : Options) (x : Item) :
    ((Job.toFp o).diagnostic? x).filter Diagnostic.isOverflow =
      (x.number?.filter (exceeds o.overflowLimit)).map Diagnostic.overflow := by
  cases x with
  | number l =>
      rw [Job.diagnostic?, Item.number?, Option.filter_some]
      split <;> rfl
  | wildcard n =>
      rw [Job.diagnostic?]
      split <;> rfl
  | call n arity =>
      rw [Job.diagnostic?]
      split
      · rfl
      · exact Option.filter_some_neg (by simp [Dialect.isOverflow_refusal])

theorem overflows_survey (o : Options) {e : Expr} (he : e.WellFormed) :
    (e.survey (Fp.report o.overflowLimit)).filter Diagnostic.isOverflow =
      ((e.survey numberSurvey).filter (exceeds o.overflowLimit)).map .overflow := by
  have hnumbers : e.survey numberSurvey = e.items.filterMap Item.number? :=
    Expr.survey_eq_filterMap (fun _ => rfl) (fun _ _ => rfl) (fun _ _ => rfl) he
  rw [Fp.survey_report o he, hnumbers, List.filter_filterMap, List.filter_filterMap,
    List.map_filterMap]
  exact congrArg (List.filterMap · e.items) (funext (filter_isOverflow_diagnostic? o))

/-- The overflows of a document are those of its numbers that exceed the limit, one for each,
in their order. -/
theorem overflows_translateToFp (o : Options) (s : Text) :
    (translateToFp o s).diagnostics.filter Diagnostic.isOverflow =
      (((Job.toFp o).numbers s).filter (exceeds o.overflowLimit)).map .overflow := by
  rw [translateToFp_eq, List.filter_append, filter_flatMap_namingReport (fun _ => rfl),
    List.append_nil, Job.numbers, Job.accepted, foundValues_moodleSegments, List.filter_flatMap,
    List.filter_flatMap, List.map_flatMap]
  exact List.flatMap_congr fun e he => overflows_survey o (wellFormed_of_mem_moodleBlocks he)

theorem isNumber_of_mem_numbers {j : Job} {s l : Text} (h : l ∈ j.numbers s) : IsNumber l := by
  obtain ⟨e, he, hl⟩ := List.mem_flatMap.1 h
  exact isNumber_of_mem_numberSurvey (Job.wellFormed_of_mem_accepted he) l hl

/-- The reader of floating-point numbers accepts the texts of its grammar and no others, and
a formula reads the longest number at a place. Whatever it reads as a number, at any place of
any text, is accepted: it is compared with the limit, and what it is prepared as is read back
as one number. So all numbers in accepted blocks are compared with the limit, and the
overflows that are reported are those of the numbers that exceed it, one for each, in their
order. -/
theorem numbers_checked (o : Options) :
    (∀ t, (Binary64.ofText? t).isSome ↔ FloatText t) ∧
    (∀ s l r, number? s = some (l, r) ↔ IsLongestPrefix IsNumber s l r) ∧
    (∀ s l r, number? s = some (l, r) → FloatText l ∧ Literal.Checked o l) ∧
    ∀ s, (∀ l ∈ (Job.toFp o).numbers s, Literal.Checked o l) ∧
      (translateToFp o s).diagnostics.filter Diagnostic.isOverflow =
        (((Job.toFp o).numbers s).filter (exceeds o.overflowLimit)).map .overflow := by
  refine ⟨Binary64.isSome_ofText?_iff, number?_eq_some_iff, ?_, ?_⟩
  · intro s l r h
    have hl := isNumber_of_number? h
    exact ⟨hl.floatText, hl.checked o⟩
  · intro s
    exact ⟨fun l hl => (isNumber_of_mem_numbers hl).checked o, overflows_translateToFp o s⟩

/-- A number with digits missing behind its point and a second mark behind it, which is
written out, and one in the argument of a call. -/
theorem numbers_checked_expanded :
    number? "-12.E+400E-x".toList = some ("-12.E+400".toList, "E-x".toList) ∧
      Literal.Checked .default "-12.E+400".toList ∧
      (Literal.normalize .default "-12.E+400".toList).1 =
        "-12".toList ++ List.replicate 400 '0' ∧
      number? ("-12".toList ++ List.replicate 400 '0') =
        some ("-12".toList ++ List.replicate 400 '0', []) ∧
      "+7.5e-3".toList ∈ (Job.toFp .default).numbers r"{=sin(2-+7.5e-3)}".toList ∧
      Literal.Checked .default "+7.5e-3".toList := by
  have hread : number? "-12.E+400E-x".toList = some ("-12.E+400".toList, "E-x".toList) := by
    decide
  have htext : (Literal.normalize .default "-12.E+400".toList).1 =
      "-12".toList ++ List.replicate 400 '0' := by
    decide +kernel
  have hmem : "+7.5e-3".toList ∈
      (Job.toFp .default).numbers r"{=sin(2-+7.5e-3)}".toList := by
    decide +kernel
  obtain ⟨-, -, htokens, hdocuments⟩ := numbers_checked .default
  obtain ⟨-, hchecked⟩ := htokens _ _ _ hread
  have hback := hchecked.readBack [] (stops_nil _)
  rw [htext, List.append_nil] at hback
  exact ⟨hread, hchecked, htext, hback, hmem, (hdocuments _).1 _ hmem⟩

end QuizFormula

import QuizFormula.Proofs.Grammar.Words

/-!
# The wildcards in a text

The wildcards of a block can be told from its text alone: where wildcards are bare they are
the words that are variables, and where they are in braces they are the names in braces.
For both it is enough that nothing is found in blanks, separators, numbers and names of
functions (`FindsWildcards`).
-/

namespace QuizFormula

/-- The names that stand in braces, from left to right. -/
def bracedNames : Text → List Text
  | [] => []
  | c :: t => ((bracedName? (c :: t)).map Prod.fst).toList ++ bracedNames t

/-- The names of the wildcards in a text of the dialect. -/
def Dialect.wildcardNames : Dialect → Text → List Text
  | moodle => bracedNames
  | fp => variableNames

/-! ### Names in braces -/

theorem bracedNames_cons_of_ne {c : Char} (t : Text) (hc : c ≠ '{') :
    bracedNames (c :: t) = bracedNames t := by
  rw [bracedNames, bracedName?.eq_2 _ fun s h => hc (List.cons.inj h).1]
  rfl

theorem bracedNames_append {l : Text} (hl : '{' ∉ l) (t : Text) :
    bracedNames (l ++ t) = bracedNames t := by
  induction l with
  | nil => rfl
  | cons c l ih =>
      rw [List.mem_cons, not_or] at hl
      rw [List.cons_append, bracedNames_cons_of_ne _ (Ne.symm hl.1), ih hl.2]

theorem bracedNames_braced {n : Text} (hn : IsName n) (t : Text) :
    bracedNames ('{' :: (n ++ '}' :: t)) = n :: bracedNames t := by
  have hbrace : '{' ∉ n ++ ['}'] := by
    intro h
    rcases List.mem_append.1 h with h | h
    · exact hn.not_mem (by decide) h
    · exact absurd (List.mem_singleton.1 h) (by decide)
  have hrest := bracedNames_append hbrace t
  rw [List.append_assoc, List.singleton_append] at hrest
  rw [bracedNames, bracedName?_append hn, hrest]
  rfl

theorem exists_bracedName?_iff (s n : Text) :
    (∃ r, bracedName? s = some (n, r)) ↔ IsName n ∧ '{' :: (n ++ ['}']) <+: s := by
  constructor
  · rintro ⟨r, h⟩
    obtain ⟨t, rfl, ht⟩ := (bracedName?_eq_some_iff s n r).1 h
    refine ⟨isName_of_name? ht, r, ?_⟩
    rw [← append_eq_of_name? ht]
    simp
  · rintro ⟨hn, r, rfl⟩
    refine ⟨r, ?_⟩
    rw [List.cons_append, List.append_assoc]
    exact bracedName?_append hn

/-- The names are those that stand in the text between braces. -/
theorem mem_bracedNames_iff (n t : Text) :
    n ∈ bracedNames t ↔ IsName n ∧ '{' :: (n ++ ['}']) <:+: t := by
  induction t with
  | nil => simp [bracedNames]
  | cons c t ih =>
      rw [List.infix_cons_iff, and_or_left, ← ih, ← exists_bracedName?_iff, bracedNames,
        List.mem_append]
      simp

/-! ### The wildcards of a formula -/

/-- Where wildcards are written in the style `w`, the names that `F` finds in a text are
those of the wildcards. -/
structure FindsWildcards (w : WildcardStyle) (F : Text → List Text) : Prop where
  blank : ∀ {c : Char} (t : Text), isBlank c = true → F (c :: t) = F t
  separator : ∀ {c : Char} (t : Text), c ∈ separators → F (c :: t) = F t
  number : ∀ {l r : Text}, IsNumber l → AtBoundary r → F (l ++ r) = F r
  wildcard : ∀ {n s r : Text}, WildcardAt w n s r → AtBoundary r → F s = n :: F r
  function : ∀ {n b s : Text}, IsName n → Blank b → F (n ++ (b ++ '(' :: s)) = F (b ++ '(' :: s)

namespace FindsWildcards

variable {w : WildcardStyle} {F : Text → List Text}

theorem blank_append (h : FindsWildcards w F) {b : Text} (hb : Blank b) (t : Text) :
    F (b ++ t) = F t := by
  induction b with
  | nil => rfl
  | cons c b ih =>
      obtain ⟨hc, hb⟩ := List.forall_mem_cons.1 hb
      exact (h.blank _ hc).trans (ih hb)

theorem append_cons (h : FindsWildcards w F) {b : Text} (hb : Blank b) {c : Char}
    (hc : c ∈ separators) (t : Text) : F (b ++ c :: t) = F t :=
  (h.blank_append hb _).trans (h.separator t hc)

/-- The wildcards of a formula are found in its text, in their order. -/
theorem survey_eq (h : FindsWildcards w F) {e : Expr} {s r : Text} (he : FormulaAt w e s r) :
    AtBoundary r → F s = e.survey wildcardSurvey ++ F r := by
  induction he using FormulaAt.rec
    (motive_2 := fun a s r _ => AtBoundary r → F s = a.survey wildcardSurvey ++ F r)
    (motive_3 := fun a s r _ => AtBoundary r → F s = a.survey wildcardSurvey ++ F r)
    (motive_4 := fun args s r _ => AtBoundary r →
      F s = args.survey wildcardSurvey ++ F r) with
  | last _ ih => exact ih
  | @chain a op e s b t r _ hb _ iha ihe =>
      intro hr
      have hop := op.char_mem_separators
      rw [iha (atBoundary_of_mem_separators hb hop t), h.append_cons hb hop, ihe hr, Expr.survey,
        List.append_assoc]
  | number hb hl hr =>
      rw [h.blank_append hb, h.number hl hr]
      rfl
  | signed hb _ ih hr => rw [h.blank_append hb, ih hr]
  | minus hb _ ih hr =>
      rw [h.separator _ (by decide), h.blank_append hb, ih hr]
      rfl
  | group _ hb ih hr =>
      rw [h.separator _ (by decide), ih (atBoundary_of_mem_separators hb (by decide) _),
        h.append_cons hb (by decide)]
      rfl
  | wildcard hn hr => exact h.wildcard hn hr
  | call hn hb _ ih hr =>
      rw [h.function hn hb, h.append_cons hb (by decide), ih hr, Atom.survey]
      exact congrArg (· ++ _) (List.append_nil _).symm
  | none hb _ =>
      rw [h.append_cons hb (by decide)]
      rfl
  | one _ hb ih _ =>
      rw [ih (atBoundary_of_mem_separators hb (by decide) _), h.append_cons hb (by decide),
        Args.survey, Args.survey, List.append_nil]
  | more _ hb _ ihe ihargs hr =>
      rw [ihe (atBoundary_of_mem_separators hb (by decide) _), h.append_cons hb (by decide),
        ihargs hr]
      exact (List.append_assoc _ _ _).symm

end FindsWildcards

/-- Bare wildcards are the words that are variables. -/
theorem findsWildcards_variableNames : FindsWildcards .bare variableNames where
  blank t hc := by rw [variableNames, words_of_isBlank hc, variableNames]
  separator t hc := by rw [variableNames, words_of_separator hc, variableNames]
  number hl hr := by rw [variableNames, words_of_isNumber hl, words_of_atBoundary hr,
    variableNames]
  wildcard hn hr := by
    cases hn with
    | bare hn hcall =>
        have hnext := (noCall_iff _).1 hcall
        simp [variableNames, words_of_isName hn hr, hnext]
  function {n b s} hn hb := by
    have hopen := atBoundary_of_mem_separators hb (c := '(') (by decide) s
    have hnext := nextChar_append_cons hb (c := '(') (by decide) s
    simp [variableNames, words_of_isName hn hopen, hnext]

/-- Wildcards in braces are the names in braces. -/
theorem findsWildcards_bracedNames : FindsWildcards .braced bracedNames where
  blank t hc := by
    apply bracedNames_cons_of_ne
    rintro rfl
    exact absurd hc (by decide)
  separator t hc := bracedNames_cons_of_ne t
    (forall_mem_separators (P := fun c => c ≠ '{') (by decide) _ hc)
  number hl hr := bracedNames_append (hl.not_mem (by decide) (by decide)) _
  wildcard hn hr := by
    cases hn with
    | braced hn => exact bracedNames_braced hn _
  function hn hb := bracedNames_append (hn.not_mem (by decide)) _

theorem Dialect.findsWildcards (d : Dialect) : FindsWildcards d.wildcardStyle d.wildcardNames := by
  cases d with
  | moodle => exact findsWildcards_bracedNames
  | fp => exact findsWildcards_variableNames

/-- The wildcards of a block can be told from its text. -/
theorem BlockAt.wildcardNames_eq {d : Dialect} {e : Expr} {v : Text}
    (h : BlockAt d e (d.opener ++ v) []) : d.wildcardNames v = e.survey wildcardSurvey := by
  generalize hs : d.opener ++ v = s at h
  cases h with
  | @block t b _ he hb =>
      obtain rfl := List.append_cancel_left hs
      have hend : AtBoundary (b ++ ['}']) := atBoundary_append_cons hb (by decide) []
      have hclosing : d.wildcardNames ['}'] = [] := by cases d <;> rfl
      rw [d.findsWildcards.survey_eq he hend, d.findsWildcards.blank_append hb, hclosing,
        List.append_nil]

end QuizFormula

import QuizFormula.Expr.Rendering
import QuizFormula.Proofs.Grammar.Block

/-!
# Texts that are read alike everywhere

A text is a phrase when it is read as the same formula, atom or list of arguments
whatever comes after it. Blanks may be left over, since a macro is ended by a blank
that is not always part of it. Phrases are put together to longer phrases, so what is
written piece by piece is read piece by piece. `IsFormula` is about the whole of a
text, which is one formula at most (`IsFormula.unique`).
-/

namespace QuizFormula

/-- The whole text is the formula `e`, and blanks after it. -/
def IsFormula (w : WildcardStyle) (e : Expr) (t : Text) : Prop :=
  ∃ b, Blank b ∧ FormulaAt w e t b

/-- The text is the formula `e` whatever comes after it. -/
def FormulaText (w : WildcardStyle) (e : Expr) (t : Text) : Prop :=
  ∀ r, ∃ b, Blank b ∧ FormulaAt w e (t ++ r) (b ++ r)

/-- The text is the atom `a` whatever comes after it. -/
def AtomText (w : WildcardStyle) (a : Atom) (t : Text) : Prop :=
  ∀ r, ∃ b, Blank b ∧ AtomAt w a (t ++ r) (b ++ r)

/-- The text is the atom `a`, which is no number, whatever comes after it. -/
def SignedText (w : WildcardStyle) (a : Atom) (t : Text) : Prop :=
  ∀ r, ∃ b, Blank b ∧ SignedAt w a (t ++ r) (b ++ r)

inductive ArgsText (w : WildcardStyle) : Args → List Text → Prop
  | nil : ArgsText w .nil []
  | cons {e : Expr} {args : Args} {t : Text} {ts : List Text} (he : FormulaText w e t)
      (hargs : ArgsText w args ts) : ArgsText w (.cons e args) (t :: ts)

/-! ### The whole of a text -/

/-- The whole of a text is one formula at most. -/
theorem IsFormula.unique {w : WildcardStyle} {e e' : Expr} {t : Text} (h : IsFormula w e t)
    (h' : IsFormula w e' t) : e = e' := by
  obtain ⟨b, hb, he⟩ := h
  obtain ⟨b', hb', he'⟩ := h'
  exact (he.unique he' hb.endsFormula hb'.endsFormula).1

theorem FormulaText.isFormula {w : WildcardStyle} {e : Expr} {t : Text}
    (h : FormulaText w e t) : IsFormula w e t := by
  obtain ⟨b, hb, he⟩ := h []
  rw [List.append_nil, List.append_nil] at he
  exact ⟨b, hb, he⟩

theorem FormulaText.isFormula_iff {w : WildcardStyle} {e : Expr} {t : Text}
    (h : FormulaText w e t) (e' : Expr) : IsFormula w e' t ↔ e' = e := by
  constructor
  · intro h'
    exact h'.unique h.isFormula
  · rintro rfl
    exact h.isFormula

/-! ### Putting phrases together -/

theorem Blank.append {b b' : Text} (hb : Blank b) (hb' : Blank b') : Blank (b ++ b') := by
  intro c hc
  rcases List.mem_append.1 hc with hc | hc
  · exact hb c hc
  · exact hb' c hc

section

variable {w : WildcardStyle}

theorem AtomText.of_isNumber {l : Text} (hl : IsNumber l) : AtomText w (.number l) l := by
  intro r
  exact ⟨[], blank_nil, .number blank_nil hl⟩

theorem SignedText.atomText {a : Atom} {t : Text} (h : SignedText w a t) : AtomText w a t := by
  intro r
  obtain ⟨b, hb, ha⟩ := h r
  exact ⟨b, hb, .signed (b := []) blank_nil ha⟩

theorem AtomText.last {a : Atom} {t : Text} (h : AtomText w a t) :
    FormulaText w (.last a) t := by
  intro r
  obtain ⟨b, hb, ha⟩ := h r
  exact ⟨b, hb, .last ha⟩

theorem AtomText.chain {a : Atom} {op : Operator} {e : Expr} {t u : Text} (ha : AtomText w a t)
    (he : FormulaText w e u) : FormulaText w (.chain a op e) (t ++ op.char :: u) := by
  intro r
  obtain ⟨b, hb, hat⟩ := ha (op.char :: (u ++ r))
  obtain ⟨b', hb', heu⟩ := he r
  refine ⟨b', hb', ?_⟩
  rw [List.append_assoc, List.cons_append]
  exact .chain hat hb heu

theorem SignedText.minus {a : Atom} {t : Text} (h : SignedText w a t) :
    SignedText w (.minus a) ('-' :: t) := by
  intro r
  obtain ⟨b, hb, ha⟩ := h r
  exact ⟨b, hb, .minus (b := []) blank_nil ha⟩

theorem SignedText.group {e : Expr} {t : Text} (h : FormulaText w e t) :
    SignedText w (.group e) ('(' :: (t ++ [')'])) := by
  intro r
  obtain ⟨b, hb, he⟩ := h (')' :: r)
  refine ⟨[], blank_nil, ?_⟩
  rw [List.cons_append, List.append_assoc]
  exact .group he hb

theorem ArgsText.argumentsAt {args : Args} {ts : List Text} (h : ArgsText w args ts)
    (r : Text) : ArgumentsAt w args (commaSeparated ts ++ ')' :: r) r := by
  induction h with
  | nil => exact .none blank_nil
  | @cons e args t ts he hargs ih =>
      cases hargs with
      | nil =>
          obtain ⟨b, hb, heb⟩ := he (')' :: r)
          simpa [commaSeparated] using ArgumentsAt.one heb hb
      | @cons e' args' u us he' hargs' =>
          obtain ⟨b, hb, heb⟩ := he (',' :: (commaSeparated (u :: us) ++ ')' :: r))
          rw [commaSeparated_cons_cons, List.append_assoc, List.cons_append]
          exact .more heb hb ih

theorem ArgsText.call {n : Text} {args : Args} {ts : List Text} (hn : IsName n)
    (h : ArgsText w args ts) : SignedText w (.call n args) (callText n ts) := by
  intro r
  refine ⟨[], blank_nil, ?_⟩
  simpa [callText] using SignedAt.call hn blank_nil (h.argumentsAt r)

/-- How wildcards are written does not matter to a formula that has none. -/
theorem FormulaText.restyle (w' : WildcardStyle) {e : Expr} {t : Text}
    (h : FormulaText w e t) (hnone : e.survey wildcardSurvey = []) : FormulaText w' e t := by
  intro r
  obtain ⟨b, hb, he⟩ := h r
  exact ⟨b, hb, he.restyle w' hnone⟩

theorem FormulaText.blockAt {d : Dialect} {e : Expr} {t : Text}
    (h : FormulaText d.wildcardStyle e t) : BlockAt d e (d.opener ++ (t ++ ['}'])) [] := by
  obtain ⟨b, hb, he⟩ := h ['}']
  exact .block he hb

/-- Blanks in front of a formula are no part of it. -/
theorem FormulaAt.blank_append {e : Expr} {s r b : Text} (hb : Blank b)
    (h : FormulaAt w e s r) : FormulaAt w e (b ++ s) r := by
  have hatom : ∀ {a : Atom} {u : Text}, AtomAt w a s u → AtomAt w a (b ++ s) u := by
    intro a u ha
    cases ha with
    | number hb' hl =>
        rw [← List.append_assoc]
        exact .number (hb.append hb') hl
    | signed hb' ha =>
        rw [← List.append_assoc]
        exact .signed (hb.append hb') ha
  cases h with
  | last ha => exact .last (hatom ha)
  | chain ha hb he => exact .chain (hatom ha) hb he

theorem FormulaText.blank_append {e : Expr} {t b : Text} (hb : Blank b)
    (h : FormulaText w e t) : FormulaText w e (b ++ t) := by
  intro r
  obtain ⟨b', hb', he⟩ := h r
  refine ⟨b', hb', ?_⟩
  rw [List.append_assoc]
  exact he.blank_append hb

end

end QuizFormula

import QuizFormula.Proofs.Grammar.Phrase

/-!
# Commas without an argument after them

In a formula each comma has an argument after it. So a text in which a parenthesis is closed
right after a comma, blanks aside, is no formula, whatever else is in the text
(`not_isFormula_of_dangles`).
-/

namespace QuizFormula

/-- Somewhere in the text a parenthesis is closed right after a comma. -/
def dangles : Text → Bool
  | [] => false
  | c :: t => (c = ',' && nextChar t = some ')') || dangles t

theorem dangles_cons_of_ne {c : Char} (hc : c ≠ ',') (t : Text) : dangles (c :: t) = dangles t := by
  rw [dangles, decide_eq_false hc, Bool.false_and, Bool.false_or]

theorem dangles_comma {t : Text} (ht : nextChar t ≠ some ')') : dangles (',' :: t) = dangles t := by
  rw [dangles, decide_eq_false ht, Bool.and_false, Bool.false_or]

theorem dangles_append {l : Text} (hl : ',' ∉ l) (t : Text) : dangles (l ++ t) = dangles t := by
  induction l with
  | nil => rfl
  | cons c l ih =>
      rw [List.mem_cons, not_or] at hl
      rw [List.cons_append, dangles_cons_of_ne (Ne.symm hl.1), ih hl.2]

theorem dangles_blank_append {b : Text} (hb : Blank b) (t : Text) :
    dangles (b ++ t) = dangles t :=
  dangles_append (hb.not_mem (by decide)) t

theorem dangles_name_append {n : Text} (hn : IsName n) (t : Text) :
    dangles (n ++ t) = dangles t :=
  dangles_append (hn.not_mem (by decide)) t

theorem dangles_append_cons {b : Text} (hb : Blank b) {c : Char} (hc : c ≠ ',') (t : Text) :
    dangles (b ++ c :: t) = dangles t :=
  (dangles_blank_append hb _).trans (dangles_cons_of_ne hc t)

theorem Operator.char_ne_comma (op : Operator) : op.char ≠ ',' := by
  cases op <;> decide

theorem WildcardAt.dangles_eq {w : WildcardStyle} {n s r : Text} (h : WildcardAt w n s r) :
    dangles s = dangles r := by
  cases h with
  | braced hn =>
      rw [dangles_cons_of_ne (by decide), dangles_name_append hn,
        dangles_cons_of_ne (by decide)]
  | bare hn hr => exact dangles_name_append hn r
  | tex hn hpi =>
      rw [dangles_cons_of_ne (by decide), dangles_append (hn.not_mem (by decide)),
        dangles_cons_of_ne (by decide)]
  | pi => rw [dangles_cons_of_ne (by decide), dangles_append (by decide)]

theorem ArgumentsAt.nextChar_ne {w : WildcardStyle} {e : Expr} {args : Args} {s r : Text}
    (h : ArgumentsAt w (.cons e args) s r) : nextChar s ≠ some ')' := by
  cases h with
  | one he => exact he.nextChar_ne
  | more he => exact he.nextChar_ne

/-- Whether a comma dangles does not depend on a formula in front. -/
theorem FormulaAt.dangles_eq {w : WildcardStyle} {e : Expr} {s r : Text}
    (h : FormulaAt w e s r) : dangles s = dangles r := by
  induction h using FormulaAt.rec
    (motive_2 := fun _ s r _ => dangles s = dangles r)
    (motive_3 := fun _ s r _ => dangles s = dangles r)
    (motive_4 := fun _ s r _ => dangles s = dangles r) with
  | last _ ih => exact ih
  | @chain a op e s b t r _ hb _ iha ihe =>
      rw [iha, dangles_append_cons hb op.char_ne_comma, ihe]
  | number hb hl =>
      rw [dangles_blank_append hb, dangles_append (hl.not_mem (by decide) (by decide))]
  | signed hb _ ih => rw [dangles_blank_append hb, ih]
  | minus hb _ ih =>
      rw [dangles_cons_of_ne (by decide), dangles_blank_append hb, ih]
  | group _ hb ih =>
      rw [dangles_cons_of_ne (by decide), ih, dangles_append_cons hb (by decide)]
  | wildcard hn => exact hn.dangles_eq
  | call hn hb _ ih =>
      rw [dangles_name_append hn, dangles_append_cons hb (by decide), ih]
  | none hb => exact dangles_append_cons hb (by decide) _
  | one _ hb ih => rw [ih, dangles_append_cons hb (by decide)]
  | more _ hb hargs ihe ihargs =>
      have hnext := hargs.nextChar_ne
      rw [ihe, dangles_blank_append hb, dangles_comma hnext, ihargs]

/-- A text with a dangling comma is no formula. -/
theorem not_isFormula_of_dangles {w : WildcardStyle} {t : Text} (h : dangles t = true) (e : Expr) :
    ¬ IsFormula w e t := by
  rintro ⟨b, hb, he⟩
  have hblank := dangles_blank_append hb []
  rw [List.append_nil, ← he.dangles_eq, h] at hblank
  exact absurd hblank (by decide)

/-! ### Dangling commas stay -/

theorem nextChar_append {t : Text} {c : Char} (hc : isBlank c = false) (h : nextChar t = some c)
    (r : Text) : nextChar (t ++ r) = some c := by
  obtain ⟨u, hu⟩ := List.head?_eq_some_iff.1 h
  obtain ⟨b, hb, rfl⟩ := exists_blank_of_skipBlanks hu
  rw [List.append_assoc]
  exact nextChar_append_cons hb hc _

theorem dangles_append_right {t : Text} (h : dangles t = true) (r : Text) :
    dangles (t ++ r) = true := by
  induction t with
  | nil => exact absurd h (by decide)
  | cons c t ih =>
      rw [dangles, Bool.or_eq_true, Bool.and_eq_true, decide_eq_true_eq, decide_eq_true_eq] at h
      rw [List.cons_append, dangles, Bool.or_eq_true, Bool.and_eq_true, decide_eq_true_eq,
        decide_eq_true_eq]
      rcases h with ⟨hc, hnext⟩ | h
      · exact .inl ⟨hc, nextChar_append (by decide) hnext r⟩
      · exact .inr (ih h)

theorem dangles_append_left (l : Text) {t : Text} (h : dangles t = true) :
    dangles (l ++ t) = true := by
  induction l with
  | nil => exact h
  | cons c l ih => rw [List.cons_append, dangles, ih, Bool.or_true]

theorem dangles_of_part {t u : Text} (ht : dangles t = true) (h : t <:+: u) :
    dangles u = true := by
  obtain ⟨l, r, rfl⟩ := h
  exact dangles_append_right (dangles_append_left l ht) r

end QuizFormula

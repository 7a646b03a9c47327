import QuizFormula.Document.Block
import QuizFormula.Proofs.Document.Math
import QuizFormula.Proofs.Translation.Composed

/-!
# Texts in which nothing is found

A text is inert if it has no dollar sign, a letter or a digit after every backslash,
and after every opening brace something other than a name and a closing brace. All of
this can be seen within the text, so inert texts can be put together. In an inert text
no span of math and no wildcard begins, and no closing delimiter of math stands,
whatever comes after it. What is written for `fp` is inert (`inert_block`).
-/

namespace QuizFormula

/-- Whether neither math nor a wildcard can begin with the character `c`, given the
rest of an inert text. -/
def isInertAt (c : Char) (t : Text) : Bool :=
  if c = '$' then false
  else if c = '\\' then t.head?.any Char.isAlphanum
  else if c = '{' then (t.dropWhile isNameChar).head?.any (· ≠ '}')
  else true

def isInert : Text → Bool
  | [] => true
  | c :: t => isInertAt c t && isInert t

/-- Neither math nor a wildcard can begin in the text. -/
abbrev Inert (t : Text) : Prop := isInert t = true

theorem inert_cons (c : Char) (t : Text) :
    Inert (c :: t) ↔ isInertAt c t = true ∧ Inert t := by
  simp [Inert, isInert]

theorem isInertAt_append {c : Char} {t : Text} (h : isInertAt c t = true) (r : Text) :
    isInertAt c (t ++ r) = true := by
  unfold isInertAt at h ⊢
  split
  · simp_all
  · split
    · rename_i hdollar hslash
      rw [if_neg hdollar, if_pos hslash] at h
      cases t with
      | nil => simp at h
      | cons a t => simpa using h
    · split
      · rename_i hdollar hslash hbrace
        rw [if_neg hdollar, if_neg hslash, if_pos hbrace] at h
        rw [List.dropWhile_append]
        cases hdrop : t.dropWhile isNameChar with
        | nil => simp [hdrop] at h
        | cons a u => simpa [hdrop] using h
      · rfl

theorem inert_append {l r : Text} (hl : Inert l) (hr : Inert r) : Inert (l ++ r) := by
  induction l with
  | nil => exact hr
  | cons c t ih =>
      rw [inert_cons] at hl
      rw [List.cons_append, inert_cons]
      exact ⟨isInertAt_append hl.1 r, ih hl.2⟩

/-- The characters with which something to be found can begin. -/
def isMark (c : Char) : Bool := c = '$' || c = '\\' || c = '{'

theorem isInertAt_of_isMark {c : Char} (h : isMark c = false) (t : Text) :
    isInertAt c t = true := by
  simp only [isMark, Bool.or_eq_false_iff, decide_eq_false_iff_not] at h
  simp [isInertAt, h]

theorem inert_of_isMark {t : Text} (h : ∀ c ∈ t, isMark c = false) : Inert t := by
  induction t with
  | nil => rfl
  | cons c t ih =>
      rw [inert_cons]
      exact ⟨isInertAt_of_isMark (h c (by simp)) t, ih fun a ha => h a (by simp [ha])⟩

/-! ### Nothing is found -/

theorem mathSpan?_of_isInertAt {c : Char} {t : Text} (h : isInertAt c t = true) (r : Text) :
    mathSpan? (c :: (t ++ r)) = none := by
  rw [mathSpan?_eq_none_iff]
  intro d hd u hu
  obtain ⟨q, o, k, hopen, -⟩ := exists_isDelimiter hd
  rw [hopen.pair] at hu
  obtain ⟨rfl, htail⟩ := List.cons.inj hu
  rcases hopen.first with rfl | rfl
  · simp [isInertAt] at h
  · cases t with
    | nil => simp [isInertAt] at h
    | cons a t =>
        obtain ⟨rfl, -⟩ := List.cons.inj htail
        simp [isInertAt, hopen.second.2] at h

theorem bracedName?_of_isInertAt {c : Char} {t : Text} (h : isInertAt c t = true) (r : Text) :
    bracedName? (c :: (t ++ r)) = none := by
  cases hread : bracedName? (c :: (t ++ r)) with
  | none => rfl
  | some x =>
      obtain ⟨u, hu, hname⟩ := (bracedName?_eq_some_iff _ x.1 x.2).1 hread
      obtain ⟨rfl, rfl⟩ := List.cons.inj hu
      have hchars := (isName_of_name? hname).isNameChar
      have hstop : Stops isNameChar ('}' :: x.2) := (stops_cons _ _ _).2 (by decide)
      have hdrop : (t ++ r).dropWhile isNameChar = '}' :: x.2 := by
        rw [← append_eq_of_name? hname, dropWhile_append_of_stops hchars hstop]
      simp only [isInertAt] at h
      rw [List.dropWhile_append] at hdrop
      cases ht : t.dropWhile isNameChar with
      | nil => simp [ht] at h
      | cons a v =>
          -- What ends the name stands within the inert text, and is no closing brace.
          simp only [ht, List.isEmpty_cons, Bool.false_eq_true, if_false, List.cons_append,
            List.cons.injEq] at hdrop
          simp [ht, hdrop.1] at h

/-- No pair of characters that ends math begins in an inert text. -/
theorem infix_of_inert_append {d : Text} {q k : Char} (hd : IsDelimiter d q k) {t r : Text}
    (ht : Inert t) (h : d <:+: t ++ r) : d <:+: r := by
  induction t with
  | nil => exact h
  | cons c t ih =>
      rw [inert_cons] at ht
      rw [List.cons_append, List.infix_cons_iff] at h
      rcases h with h | h
      · exfalso
        have hinert := ht.1
        rw [hd.pair, List.cons_prefix_cons] at h
        obtain ⟨rfl, htail⟩ := h
        rcases hd.first with rfl | rfl
        · simp [isInertAt] at hinert
        · cases t with
          | nil => simp [isInertAt] at hinert
          | cons a t =>
              rw [List.cons_append, List.cons_prefix_cons] at htail
              simp [isInertAt, ← htail.1, hd.second.2] at hinert
      · exact ih ht.2 h

/-! ### What is written for `fp` -/

theorem isMark_eq_false_of_isAlphanum {c : Char} (h : c.isAlphanum = true) :
    isMark c = false := by
  cases hm : isMark c with
  | false => rfl
  | true =>
      simp only [isMark, Bool.or_eq_true, decide_eq_true_eq] at hm
      rcases hm with (rfl | rfl) | rfl <;> exact absurd h (by decide)

theorem isMark_eq_false_of_isNameChar {c : Char} (h : isNameChar c = true) :
    isMark c = false := by
  simp only [isNameChar, Bool.or_eq_true, decide_eq_true_eq] at h
  rcases h with h | rfl
  · exact isMark_eq_false_of_isAlphanum h
  · decide

theorem inert_of_isName {n : Text} (hn : IsName n) : Inert n :=
  inert_of_isMark fun c hc => isMark_eq_false_of_isNameChar (hn.isNameChar c hc)

theorem inert_of_isNumber {l : Text} (hl : IsNumber l) : Inert l := by
  apply inert_of_isMark
  intro c hc
  rcases hl.mem hc with hdigit | hother
  · exact isMark_eq_false_of_isAlphanum (by simp [Char.isAlphanum, hdigit])
  · simp only [List.mem_cons, List.not_mem_nil, or_false] at hother
    rcases hother with rfl | rfl | rfl | rfl | rfl <;> decide

theorem inert_texMacro {n : Text} (hn : IsMacroName n) (t : Text) (ht : Inert t) :
    Inert ('\\' :: (n ++ t)) := by
  obtain ⟨hne, halnum⟩ := hn
  rw [inert_cons]
  constructor
  · obtain ⟨c, n', rfl⟩ := List.exists_cons_of_ne_nil hne
    simpa [isInertAt] using halnum c (by simp)
  · exact inert_append (inert_of_isMark fun c hc => isMark_eq_false_of_isAlphanum (halnum c hc)) ht

theorem composed_inert : Composed Inert where
  nil := rfl
  separator := forall_mem_separators (by decide)
  append := inert_append

namespace Fp

theorem preserves_inert (precision : Nat) : (rendering precision).Preserves Inert := by
  apply preserves precision composed_inert
  · exact fun l => inert_of_isNumber
  · exact fun n hn => inert_append (inert_of_isName hn) rfl
  · exact fun n hn => inert_texMacro (isMacroName_texName hn) [' '] rfl
  · rfl
  · exact (by decide : Inert pi)

theorem inert_block (precision : Nat) {e : Expr} (he : e.WellFormed) :
    Inert (block precision e) := by
  have hopening : Inert blockOpening := by decide
  have hclosing : Inert blockClosing := by decide
  exact inert_append hopening (inert_append ((preserves_inert precision).render he) hclosing)

end Fp

end QuizFormula

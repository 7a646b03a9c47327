import Mathlib.Data.List.TakeWhile
import QuizFormula.Name

/-!
# Blanks, names and boundaries

Names as the grammar has them, said without the readers: a letter and then letters,
digits and underscores. The readers take the longest token they can. That this is
never too much depends on what comes after a token, so the reading lemmas ask for a
boundary: a text that does not begin with a character that could go on with a number
or a name.
-/

namespace QuizFormula

/-- The text does not begin with a character that satisfies `p`. -/
def Stops (p : Char → Bool) (r : Text) : Prop := ∀ c ∈ r.head?, p c = false

theorem stops_nil (p : Char → Bool) : Stops p [] := by
  simp [Stops]

theorem stops_cons (p : Char → Bool) (c : Char) (r : Text) :
    Stops p (c :: r) ↔ p c = false := by
  simp [Stops]

theorem Stops.mono {p q : Char → Bool} {r : Text} (h : Stops p r)
    (hpq : ∀ c, q c = true → p c = true) : Stops q r := by
  intro c hc
  have hp := h c hc
  cases hq : q c with
  | false => rfl
  | true => simp [hpq c hq] at hp

theorem stops_dropWhile (p : Char → Bool) (s : Text) : Stops p (s.dropWhile p) := by
  intro c hc
  have hstop := List.head?_dropWhile_not p s
  rwa [Option.mem_def.1 hc] at hstop

theorem Stops.append {p : Char → Bool} {l r : Text} (hl : Stops p l) (hr : Stops p r) :
    Stops p (l ++ r) := by
  cases l with
  | nil => exact hr
  | cons c l => rwa [List.cons_append, stops_cons, ← stops_cons p c l]

theorem takeWhile_append_of_stops {p : Char → Bool} {l r : Text} (hl : ∀ c ∈ l, p c = true)
    (hr : Stops p r) : (l ++ r).takeWhile p = l := by
  rw [List.takeWhile_append_of_pos hl]
  cases r with
  | nil => simp
  | cons c r =>
      rw [stops_cons] at hr
      simp [hr]

theorem dropWhile_append_of_stops {p : Char → Bool} {l r : Text} (hl : ∀ c ∈ l, p c = true)
    (hr : Stops p r) : (l ++ r).dropWhile p = r := by
  rw [List.dropWhile_append_of_pos hl]
  cases r with
  | nil => rfl
  | cons c r =>
      rw [stops_cons] at hr
      simp [hr]

/-- The characters that can go on with a number or a name. -/
def isTokenChar (c : Char) : Bool := isNameChar c || c = '.'

/-- No token that ends before this text could have been longer. -/
abbrev AtBoundary (r : Text) : Prop := Stops isTokenChar r

/-! ### Blanks -/

def Blank (b : Text) : Prop := ∀ c ∈ b, isBlank c = true

theorem blank_nil : Blank [] := by
  simp [Blank]

theorem Blank.not_mem {b : Text} (hb : Blank b) {c : Char} (hc : isBlank c = false) : c ∉ b := by
  intro hmem
  rw [hb c hmem] at hc
  exact absurd hc (by decide)

theorem blank_takeWhile (s : Text) : Blank (s.takeWhile isBlank) := by
  intro c hc
  exact List.mem_takeWhile_imp hc

theorem takeWhile_append_skipBlanks (s : Text) : s.takeWhile isBlank ++ skipBlanks s = s :=
  List.takeWhile_append_dropWhile

theorem skipBlanks_append {b : Text} (hb : Blank b) (s : Text) :
    skipBlanks (b ++ s) = skipBlanks s :=
  List.dropWhile_append_of_pos hb

theorem skipBlanks_of_stops {s : Text} (hs : Stops isBlank s) : skipBlanks s = s := by
  have h := dropWhile_append_of_stops (l := []) (by simp) hs
  simpa [skipBlanks] using h

theorem skipBlanks_append_cons {b : Text} (hb : Blank b) {c : Char} (hc : isBlank c = false)
    (s : Text) : skipBlanks (b ++ c :: s) = c :: s := by
  rw [skipBlanks_append hb, skipBlanks_of_stops ((stops_cons isBlank c s).2 hc)]

/-- A text begins with blanks and then `x` when `x` is all that skipping leaves. -/
theorem exists_blank_of_skipBlanks {s x : Text} (h : skipBlanks s = x) :
    ∃ b, Blank b ∧ s = b ++ x := by
  refine ⟨s.takeWhile isBlank, blank_takeWhile s, ?_⟩
  rw [← h, takeWhile_append_skipBlanks]

theorem symbol?_append_cons {b : Text} (hb : Blank b) {c : Char} (hc : isBlank c = false)
    (r : Text) : symbol? c (b ++ c :: r) = some r := by
  rw [symbol?_eq_some_iff, skipBlanks_append_cons hb hc]

theorem exists_blank_of_symbol? {c : Char} {s r : Text} (h : symbol? c s = some r) :
    ∃ b, Blank b ∧ s = b ++ c :: r :=
  exists_blank_of_skipBlanks ((symbol?_eq_some_iff c s r).1 h)

theorem isTokenChar_eq_false_of_isBlank {c : Char} (h : isBlank c = true) :
    isTokenChar c = false := by
  simp only [isBlank, Bool.or_eq_true, decide_eq_true_eq] at h
  rcases h with (((rfl | rfl) | rfl) | rfl) | rfl <;> decide

theorem isTokenChar_of_isDigit {c : Char} (h : c.isDigit = true) : isTokenChar c = true := by
  simp [isTokenChar, isNameChar, Char.isAlphanum, h]

theorem isBlank_eq_false_of_isTokenChar {c : Char} (h : isTokenChar c = true) :
    isBlank c = false := by
  cases hb : isBlank c with
  | false => rfl
  | true =>
      rw [isTokenChar_eq_false_of_isBlank hb] at h
      exact h.symm

/-- A token may be followed by blanks and then by a character that no token has. -/
theorem atBoundary_append_cons {b : Text} (hb : Blank b) {c : Char}
    (hc : isTokenChar c = false) (r : Text) : AtBoundary (b ++ c :: r) := by
  cases b with
  | nil => exact (stops_cons isTokenChar c r).2 hc
  | cons a b =>
      rw [List.cons_append, AtBoundary, stops_cons]
      exact isTokenChar_eq_false_of_isBlank (hb a (by simp))

/-! ### Names -/

/-- A letter, then letters, digits and underscores. -/
def IsName (n : Text) : Prop :=
  ∃ c t, n = c :: t ∧ c.isAlpha = true ∧ ∀ a ∈ t, isNameChar a = true

theorem IsName.ne_nil {n : Text} (h : IsName n) : n ≠ [] := by
  obtain ⟨c, t, rfl, -⟩ := h
  exact List.cons_ne_nil c t

theorem isNameChar_of_isAlpha {c : Char} (h : c.isAlpha = true) : isNameChar c = true := by
  simp [isNameChar, Char.isAlphanum, h]

theorem toNat_of_isAlpha {c : Char} (h : c.isAlpha = true) :
    'A'.toNat ≤ c.toNat ∧ c.toNat ≤ 'z'.toNat := by
  rcases Bool.or_eq_true_iff.1 h with hupper | hlower
  · have hrange : 'A'.val ≤ c.val ∧ c.val ≤ 'Z'.val := of_decide_eq_true hupper
    exact ⟨UInt32.le_iff_toNat_le.1 hrange.1,
      Nat.le_trans (UInt32.le_iff_toNat_le.1 hrange.2) (by decide)⟩
  · obtain ⟨ha, hz⟩ := Bool.and_eq_true_iff.1 hlower
    exact ⟨Nat.le_trans (by decide) (UInt32.le_iff_toNat_le.1 (of_decide_eq_true ha)),
      UInt32.le_iff_toNat_le.1 (of_decide_eq_true hz)⟩

theorem toNat_of_isAlphanum {c : Char} (h : c.isAlphanum = true) :
    '0'.toNat ≤ c.toNat ∧ c.toNat ≤ 'z'.toNat := by
  rcases Bool.or_eq_true_iff.1 h with halpha | hdigit
  · obtain ⟨hlow, hhigh⟩ := toNat_of_isAlpha halpha
    exact ⟨Nat.le_trans (by decide) hlow, hhigh⟩
  · obtain ⟨hlow, hhigh⟩ := Char.isDigit_iff_toNat.1 hdigit
    exact ⟨hlow, Nat.le_trans hhigh (by decide)⟩

theorem isDigit_eq_false_of_isAlpha {c : Char} (h : c.isAlpha = true) :
    c.isDigit = false := by
  cases hd : c.isDigit with
  | false => rfl
  | true =>
      have hletter := (toNat_of_isAlpha h).1
      have hdigit := (Char.isDigit_iff_toNat.1 hd).2
      exact absurd (Nat.le_trans hletter hdigit) (by decide)

theorem isTokenChar_of_isAlpha {c : Char} (h : c.isAlpha = true) : isTokenChar c = true := by
  simp [isTokenChar, isNameChar_of_isAlpha h]

theorem IsName.isNameChar {n : Text} (h : IsName n) : ∀ c ∈ n, isNameChar c = true := by
  obtain ⟨c, t, rfl, hc, ht⟩ := h
  intro a ha
  rcases List.mem_cons.1 ha with rfl | ha
  · exact isNameChar_of_isAlpha hc
  · exact ht a ha

theorem IsName.not_mem {n : Text} (hn : IsName n) {c : Char}
    (hc : QuizFormula.isNameChar c = false) : c ∉ n := by
  intro hmem
  rw [hn.isNameChar c hmem] at hc
  exact absurd hc (by decide)

theorem isName_of_name? {s n r : Text} (h : name? s = some (n, r)) : IsName n := by
  cases s with
  | nil => simp [name?] at h
  | cons c t =>
      by_cases hc : c.isAlpha = true
      · simp only [name?, hc, if_true, Option.some.injEq, Prod.mk.injEq] at h
        refine ⟨c, t.takeWhile QuizFormula.isNameChar, h.1.symm, hc, ?_⟩
        intro a ha
        exact List.mem_takeWhile_imp ha
      · simp [name?, hc] at h

/-- A name is read whole when nothing after it could be part of it. -/
theorem name?_append {n r : Text} (hn : IsName n) (hr : Stops isNameChar r) :
    name? (n ++ r) = some (n, r) := by
  obtain ⟨c, t, rfl, hc, ht⟩ := hn
  rw [List.cons_append, name?, if_pos hc, takeWhile_append_of_stops ht hr,
    dropWhile_append_of_stops ht hr]

theorem isName_iff (n : Text) : IsName n ↔ name? n = some (n, []) := by
  constructor
  · intro hn
    have hread := name?_append hn (stops_nil QuizFormula.isNameChar)
    rwa [List.append_nil] at hread
  · exact isName_of_name?

instance (n : Text) : Decidable (IsName n) := decidable_of_iff _ (isName_iff n).symm

theorem AtBoundary.stops_isNameChar {r : Text} (h : AtBoundary r) : Stops isNameChar r := by
  apply h.mono
  intro c hc
  simp [isTokenChar, hc]

theorem bracedName?_append {n r : Text} (hn : IsName n) :
    bracedName? ('{' :: (n ++ '}' :: r)) = some (n, r) := by
  rw [bracedName?_eq_some_iff]
  refine ⟨n ++ '}' :: r, rfl, name?_append hn ?_⟩
  rw [stops_cons]
  decide

/-- A name of a TeX macro. It has no underscores, and it may begin with a digit. -/
def IsMacroName (n : Text) : Prop := n ≠ [] ∧ ∀ c ∈ n, c.isAlphanum = true

theorem IsMacroName.not_mem {n : Text} (hn : IsMacroName n) {c : Char}
    (hc : c.isAlphanum = false) : c ∉ n := by
  intro hmem
  rw [hn.2 c hmem] at hc
  exact absurd hc (by decide)

theorem isMacroName_piMacro : IsMacroName piMacro := by
  have halnum : piMacro.all Char.isAlphanum = true := by decide
  constructor
  · decide
  · exact List.all_eq_true.1 halnum

theorem AtBoundary.stops_isAlphanum {r : Text} (h : AtBoundary r) :
    Stops Char.isAlphanum r := by
  apply h.mono
  intro c hc
  simp [isTokenChar, isNameChar, hc]

theorem macroName?_piMacro_append {r : Text} (hr : AtBoundary r) :
    macroName? ('\\' :: (piMacro ++ r)) = some (piMacro, r) := by
  have hpi := isMacroName_piMacro.2
  simp only [macroName?, takeWhile_append_of_stops hpi hr.stops_isAlphanum,
    dropWhile_append_of_stops hpi hr.stops_isAlphanum, if_true]

theorem macroName?_append {n : Text} (hn : IsMacroName n) (hpi : n ≠ piMacro) (r : Text) :
    macroName? ('\\' :: (n ++ ' ' :: r)) = some (n, r) := by
  have hr : Stops Char.isAlphanum (' ' :: r) := by
    rw [stops_cons]
    decide
  simp only [macroName?, takeWhile_append_of_stops hn.2 hr, dropWhile_append_of_stops hn.2 hr,
    hpi, hn.1, if_false]

theorem eq_of_macroName? {s n r : Text} (h : macroName? s = some (n, r)) :
    IsMacroName n ∧ s = '\\' :: (n ++ (if n = piMacro then r else ' ' :: r)) := by
  unfold macroName? at h
  split at h
  · rename_i t
    have ht : t.takeWhile Char.isAlphanum ++ t.dropWhile Char.isAlphanum = t :=
      List.takeWhile_append_dropWhile
    have halnum : ∀ c ∈ t.takeWhile Char.isAlphanum, c.isAlphanum = true := by
      intro c hc
      exact List.mem_takeWhile_imp hc
    simp only at h
    split at h
    · rename_i hpi
      cases h
      rw [if_pos hpi, ht]
      exact ⟨hpi ▸ isMacroName_piMacro, rfl⟩
    · rename_i hpi
      split at h
      · simp at h
      · rename_i hne
        split at h
        · rename_i u hu
          cases h
          rw [if_neg hpi, ← hu, ht]
          exact ⟨⟨hne, halnum⟩, rfl⟩
        · simp at h
  · simp at h

end QuizFormula

import QuizFormula.Text

/-!
# Texts as bytes

A text is kept as bytes in UTF-8, and places in it are given as numbers of bytes. Only
between two characters a text can be cut: `suffixAt?` and `slice?` have no result inside of
a character or beyond the end. Words are looked for in the bytes, by a search that finds
the leftmost place where one of them occurs (`ByteSearch`).
-/

namespace QuizFormula

def utf8 (s : Text) : List UInt8 := s.flatMap String.utf8EncodeChar

def byteLength (s : Text) : Nat := (utf8 s).length

/-- The text from an offset on. -/
def suffixAt? : Text → Nat → Option Text
  | s, 0 => some s
  | [], _ + 1 => none
  | c :: s, i + 1 => if c.utf8Size ≤ i + 1 then suffixAt? s (i + 1 - c.utf8Size) else none

/-- The text between two offsets. -/
def slice? (s : Text) (i j : Nat) : Option Text :=
  match suffixAt? s i, suffixAt? s j with
  | some t, some r => if i ≤ j then some (t.take (t.length - r.length)) else none
  | _, _ => none

@[simp] theorem utf8_nil : utf8 [] = [] := rfl

theorem utf8_cons (c : Char) (s : Text) : utf8 (c :: s) = String.utf8EncodeChar c ++ utf8 s := by
  simp [utf8]

@[simp] theorem utf8_append (s t : Text) : utf8 (s ++ t) = utf8 s ++ utf8 t := by
  simp [utf8]

@[simp] theorem byteLength_nil : byteLength [] = 0 := rfl

theorem byteLength_cons (c : Char) (s : Text) :
    byteLength (c :: s) = c.utf8Size + byteLength s := by
  rw [byteLength, utf8_cons, List.length_append, String.length_utf8EncodeChar, byteLength]

@[simp] theorem byteLength_append (s t : Text) :
    byteLength (s ++ t) = byteLength s + byteLength t := by
  rw [byteLength, utf8_append, List.length_append, byteLength, byteLength]

theorem length_le_byteLength (s : Text) : s.length ≤ byteLength s := by
  induction s with
  | nil => exact Nat.le_refl 0
  | cons c s ih =>
      have hpos := c.utf8Size_pos
      rw [byteLength_cons, List.length_cons]
      omega

theorem byteLength_pos {s : Text} (h : s ≠ []) : 0 < byteLength s :=
  Nat.lt_of_lt_of_le (List.length_pos_iff.2 h) (length_le_byteLength s)

theorem utf8_ne_nil {s : Text} (h : s ≠ []) : utf8 s ≠ [] :=
  List.length_pos_iff.1 (byteLength_pos h)

theorem suffixAt?_append (a b : Text) : suffixAt? (a ++ b) (byteLength a) = some b := by
  induction a with
  | nil => cases b <;> rfl
  | cons c a ih =>
      obtain ⟨n, hn⟩ : ∃ n, c.utf8Size + byteLength a = n + 1 :=
        Nat.exists_eq_add_one.2 (Nat.add_pos_left c.utf8Size_pos _)
      rw [List.cons_append, byteLength_cons, hn, suffixAt?, if_pos (by omega), ← hn,
        Nat.add_sub_cancel_left, ih]

theorem slice?_append (a b c : Text) :
    slice? (a ++ b ++ c) (byteLength a) (byteLength (a ++ b)) = some b := by
  have hsuffix : suffixAt? (a ++ b ++ c) (byteLength a) = some (b ++ c) := by
    rw [List.append_assoc, suffixAt?_append]
  have hle : byteLength a ≤ byteLength (a ++ b) := by
    rw [byteLength_append]
    exact Nat.le_add_right _ _
  simp only [slice?, hsuffix, suffixAt?_append, if_pos hle, List.length_append,
    Nat.add_sub_cancel, List.take_left]

/-! ### Searching -/

/-- The word stands in the bytes from an offset on. -/
def OccursAt (word bytes : List UInt8) (i : Nat) : Prop := word <+: bytes.drop i

theorem lt_of_occursAt {word bytes : List UInt8} {i : Nat} (hne : word ≠ [])
    (h : OccursAt word bytes i) : i < bytes.length := by
  refine Nat.lt_of_not_le fun hle => hne ?_
  rwa [OccursAt, List.drop_eq_nil_of_le hle, List.prefix_nil] at h

/-- What is found is the leftmost place, from an offset on, where one of the words occurs,
and the first word among those that occur there. -/
def IsLeftmost (words : List (List UInt8)) (bytes : List UInt8) (start : Nat) :
    Option (Nat × Nat) → Prop
  | none => ∀ w ∈ words, ∀ j, start ≤ j → ¬ OccursAt w bytes j
  | some (k, i) =>
    start ≤ i ∧ (∃ w, words[k]? = some w ∧ OccursAt w bytes i) ∧
      (∀ l w, l < k → words[l]? = some w → ¬ OccursAt w bytes i) ∧
      ∀ w ∈ words, ∀ j, start ≤ j → j < i → ¬ OccursAt w bytes j

/-- A search for words in bytes. -/
structure ByteSearch where
  /-- The index of the word that is found, and the offset where it starts. -/
  firstOf? : List (List UInt8) → List UInt8 → Nat → Option (Nat × Nat)
  /-- The offset where one word starts for the first time. -/
  first? : List UInt8 → List UInt8 → Option Nat
  isLeftmost_firstOf? : ∀ {words : List (List UInt8)} {bytes : List UInt8} {start : Nat},
    (∀ w ∈ words, w ≠ []) → start ≤ bytes.length →
      IsLeftmost words bytes start (firstOf? words bytes start)
  isLeftmost_first? : ∀ {word bytes : List UInt8}, word ≠ [] →
    IsLeftmost [word] bytes 0 ((first? word bytes).map fun i => (0, i))

/-- The first word that occurs at an offset. -/
def wordAt? (words : List (List UInt8)) (bytes : List UInt8) (i : Nat) : Option (Nat × Nat) :=
  (words.findIdx? fun w => w.isPrefixOf (bytes.drop i)).map fun k => (k, i)

theorem wordAt?_eq_none_iff (words : List (List UInt8)) (bytes : List UInt8) (i : Nat) :
    wordAt? words bytes i = none ↔ ∀ w ∈ words, ¬ OccursAt w bytes i := by
  rw [wordAt?, Option.map_eq_none_iff, List.findIdx?_eq_none_iff]
  simp only [OccursAt, ← List.isPrefixOf_iff_prefix, Bool.not_eq_true]

theorem wordAt?_eq_some {words : List (List UInt8)} {bytes : List UInt8} {i k j : Nat}
    (h : wordAt? words bytes i = some (k, j)) :
    j = i ∧ (∃ w, words[k]? = some w ∧ OccursAt w bytes i) ∧
      ∀ l w, l < k → words[l]? = some w → ¬ OccursAt w bytes i := by
  obtain ⟨k', hk, heq⟩ := Option.map_eq_some_iff.1 h
  cases heq
  obtain ⟨hlt, hfound, hbefore⟩ := List.findIdx?_eq_some_iff_getElem.1 hk
  refine ⟨rfl, ⟨words[k], List.getElem?_eq_getElem hlt, List.isPrefixOf_iff_prefix.1 hfound⟩, ?_⟩
  intro l w hl hw hoccurs
  obtain ⟨hlt', rfl⟩ := List.getElem?_eq_some_iff.1 hw
  exact hbefore l hl (List.isPrefixOf_iff_prefix.2 hoccurs)

/-- The search that tries one offset after the other. -/
def leftmost? (words : List (List UInt8)) (bytes : List UInt8) (start : Nat) :
    Option (Nat × Nat) :=
  (List.range' start (bytes.length - start)).findSome? (wordAt? words bytes)

theorem isLeftmost_leftmost? {words : List (List UInt8)} (hwords : ∀ w ∈ words, w ≠ [])
    (bytes : List UInt8) (start : Nat) :
    IsLeftmost words bytes start (leftmost? words bytes start) := by
  cases h : leftmost? words bytes start with
  | none =>
    rw [leftmost?, List.findSome?_eq_none_iff] at h
    intro w hw j hj hoccurs
    have hlt := lt_of_occursAt (hwords w hw) hoccurs
    have hnone := h j (List.mem_range'_1.2 ⟨hj, by omega⟩)
    exact (wordAt?_eq_none_iff words bytes j).1 hnone w hw hoccurs
  | some x =>
    obtain ⟨k, i⟩ := x
    obtain ⟨l₁, j, l₂, hrange, hfound, hbefore⟩ := List.findSome?_eq_some_iff.1 h
    obtain ⟨rfl, hword, hfirst⟩ := wordAt?_eq_some hfound
    have hmem := List.mem_range'_1.1 (hrange ▸ List.mem_append_right l₁ List.mem_cons_self)
    refine ⟨hmem.1, hword, hfirst, ?_⟩
    intro w hw m hm hlt
    have hm' : m ∈ l₁ ++ i :: l₂ := hrange ▸ List.mem_range'_1.2 ⟨hm, by omega⟩
    have hsorted : (l₁ ++ i :: l₂).Pairwise (· < ·) := hrange ▸ List.pairwise_lt_range' 1
    have hrest := (List.pairwise_cons.1 (List.pairwise_append.1 hsorted).2.1).1
    rcases List.mem_append.1 hm' with hm' | hm'
    · exact (wordAt?_eq_none_iff words bytes m).1 (hbefore m hm') w hw
    · rcases List.mem_cons.1 hm' with rfl | hm'
      · exact absurd hlt (Nat.lt_irrefl m)
      · exact absurd hlt (Nat.lt_asymm (hrest m hm'))

/-- The search that tries one offset after the other, for several words and for one. -/
def ByteSearch.plain : ByteSearch where
  firstOf? := leftmost?
  first? word bytes := (leftmost? [word] bytes 0).map Prod.snd
  isLeftmost_firstOf? hwords _ := isLeftmost_leftmost? hwords _ _
  isLeftmost_first? := by
    intro word bytes hne
    have hwords : ∀ w ∈ [word], w ≠ [] := by simpa using hne
    have h := isLeftmost_leftmost? hwords bytes 0
    cases hfound : leftmost? [word] bytes 0 with
    | none => rwa [hfound] at h
    | some x =>
      obtain ⟨k, i⟩ := x
      rw [hfound] at h
      -- The only word has the index zero.
      obtain ⟨w, hw, -⟩ := h.2.1
      have hk : k < [word].length := (List.getElem?_eq_some_iff.1 hw).1
      have hzero : k = 0 := by simpa using hk
      subst hzero
      exact h

end QuizFormula

import Mathlib.Logic.Relation
import QuizFormula.Proofs.Label.Folding

/-!
# Encodings of accents

A letter with an accent can also be written as its base letter with combining marks behind
it, and some marks may be too many or missing. `AccentEdit` is one such change somewhere in
a text. No number of them changes the text without its accents, nor the label that is made
from it (`label_of_accentEdits`). The text without accents is itself reached by such
changes, so two texts lose their accents to the same text exactly if both can be changed
into a common one (`stripAccents_eq_iff`).
-/

namespace QuizFormula

/-- One change in how a text encodes its accents. -/
inductive AccentEdit : Text → Text → Prop
  /-- An accented letter is written as its base letter, with any marks behind it. -/
  | decompose {row : Char × String} {a : Char} {marks : Text} (l r : Text)
      (hrow : row ∈ accentTable) (ha : a ∈ row.2.toList)
      (hmarks : ∀ m ∈ marks, isCombiningMark m = true) :
      AccentEdit (l ++ a :: r) (l ++ row.1 :: (marks ++ r))
  | insert {m : Char} (l r : Text) (hm : isCombiningMark m = true) :
      AccentEdit (l ++ r) (l ++ m :: r)
  | delete {m : Char} (l r : Text) (hm : isCombiningMark m = true) :
      AccentEdit (l ++ m :: r) (l ++ r)

/-- Any number of changes, one after the other. -/
abbrev AccentEdits : Text → Text → Prop := Relation.ReflTransGen AccentEdit

/-! ### Changes do not show in the text without accents -/

theorem stripAccents_marks {marks : Text} (hmarks : ∀ m ∈ marks, isCombiningMark m = true) :
    stripAccents marks = [] := by
  rw [stripAccents, List.filter_eq_nil_iff.2]
  · rfl
  · intro m hm
    simp [hmarks m hm]

theorem stripAccents_mark_cons {m : Char} (hm : isCombiningMark m = true) (s : Text) :
    stripAccents (m :: s) = stripAccents s := by
  rw [stripAccents_cons, if_pos hm]

theorem stripAccents_letter_cons {row : Char × String} (hrow : row ∈ accentTable) {a : Char}
    (ha : a ∈ row.2.toList) (s : Text) :
    stripAccents (a :: s) = row.1 :: stripAccents s := by
  obtain ⟨hbase, hmark, -⟩ := accentTable_spec hrow ha
  rw [stripAccents_cons, hmark, if_neg (by decide), hbase]

theorem stripAccents_base_cons {row : Char × String} (hrow : row ∈ accentTable) (s : Text) :
    stripAccents (row.1 :: s) = row.1 :: stripAccents s := by
  have hascii := isAscii_of_mem_accentTable row hrow
  rw [stripAccents_cons, isCombiningMark_of_isAscii hascii, if_neg (by decide),
    baseLetter_of_isAscii hascii]

theorem AccentEdit.stripAccents_eq {s t : Text} (h : AccentEdit s t) :
    stripAccents s = stripAccents t := by
  cases h with
  | decompose l r hrow ha hmarks =>
      rw [stripAccents_append, stripAccents_append, stripAccents_letter_cons hrow ha,
        stripAccents_base_cons hrow, stripAccents_append, stripAccents_marks hmarks,
        List.nil_append]
  | insert l r hm =>
      rw [stripAccents_append, stripAccents_append, stripAccents_mark_cons hm]
  | delete l r hm =>
      rw [stripAccents_append, stripAccents_append, stripAccents_mark_cons hm]

theorem AccentEdits.stripAccents_eq {s t : Text} (h : AccentEdits s t) :
    stripAccents s = stripAccents t := by
  induction h with
  | refl => rfl
  | tail _ hedit ih => exact ih.trans hedit.stripAccents_eq

/-! ### The text without accents is one of the encodings -/

theorem AccentEdit.cons {s t : Text} (h : AccentEdit s t) (c : Char) :
    AccentEdit (c :: s) (c :: t) := by
  cases h with
  | decompose l r hrow ha hmarks => exact .decompose (c :: l) r hrow ha hmarks
  | insert l r hm => exact .insert (c :: l) r hm
  | delete l r hm => exact .delete (c :: l) r hm

theorem AccentEdits.cons {s t : Text} (h : AccentEdits s t) (c : Char) :
    AccentEdits (c :: s) (c :: t) :=
  h.lift (c :: ·) fun _ _ hedit => hedit.cons c

theorem accentEdits_stripAccents (s : Text) : AccentEdits s (stripAccents s) := by
  induction s with
  | nil => exact .refl
  | cons c s ih =>
      rw [stripAccents_cons]
      split
      · rename_i hmark
        exact .head (.delete [] s hmark) ih
      · rcases baseLetter_eq_or c with ⟨row, hrow, hc⟩ | hc
        · rw [(accentTable_spec hrow hc).1]
          exact .head (@AccentEdit.decompose row c [] [] s hrow hc (by simp)) (ih.cons row.1)
        · rw [hc]
          exact ih.cons c

/-- Texts lose their accents to the same text exactly if they are encodings of one. -/
theorem stripAccents_eq_iff (s t : Text) :
    stripAccents s = stripAccents t ↔ ∃ u, AccentEdits s u ∧ AccentEdits t u := by
  constructor
  · intro h
    refine ⟨stripAccents s, accentEdits_stripAccents s, ?_⟩
    rw [h]
    exact accentEdits_stripAccents t
  · rintro ⟨u, hs, ht⟩
    rw [hs.stripAccents_eq, ht.stripAccents_eq]

/-- However accents are encoded, the text without accents is the same, and so is the label.
The text without accents is one of the encodings. It does not matter whether accents are
stripped first or characters are spelled out first. -/
theorem label_of_accentEdits :
    (∀ s t, AccentEdits s t → stripAccents s = stripAccents t ∧ label s = label t) ∧
      (∀ s, AccentEdits s (stripAccents s)) ∧
      ∀ s, stripAccents (spellOut s) = spellOut (stripAccents s) := by
  refine ⟨?_, accentEdits_stripAccents, stripAccents_spellOut⟩
  intro s t h
  refine ⟨h.stripAccents_eq, ?_⟩
  rw [label, h.stripAccents_eq, label]

/-- An accented letter in its two encodings, and a mark that is missing. -/
theorem label_of_accentEdits_acute :
    AccentEdits "\u00e9te\u0301".toList "e\u0301te".toList ∧
      label "\u00e9te\u0301".toList = label "e\u0301te".toList := by
  have hdecompose : AccentEdit "\u00e9te\u0301".toList "e\u0301te\u0301".toList :=
    @AccentEdit.decompose ('e', "èéêëēĕėęě") '\u00e9' ['\u0301'] [] "te\u0301".toList
      (by decide) (by decide) (List.forall_mem_singleton.2 (by decide))
  have hdelete : AccentEdit "e\u0301te\u0301".toList "e\u0301te".toList :=
    .delete (m := '\u0301') "e\u0301te".toList [] (by decide)
  have hedits := (Relation.ReflTransGen.single hdecompose).tail hdelete
  exact ⟨hedits, (label_of_accentEdits.1 _ _ hedits).2⟩

end QuizFormula

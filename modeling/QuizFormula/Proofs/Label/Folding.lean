import QuizFormula.Label.Basic

/-!
# What the foldings of a label keep

What is folded, a letter with an accent, a combining mark or a character that is spelled
out, is outside of ASCII, and what is written for it is ASCII. So no folding makes work
for another one or for itself, and ASCII texts are kept by both
(`stripAccents_of_isAscii`, `spellOut_of_isAscii`). Nor do the foldings compete for a
character, so it does not matter which of them comes first (`stripAccents_spellOut`).
-/

namespace QuizFormula

/-! ### Single characters -/

/-- No letter of the table is listed twice, is a mark, is spelled out or is ASCII. -/
theorem accentTable_spec {row : Char × String} (hrow : row ∈ accentTable) {a : Char}
    (ha : a ∈ row.2.toList) :
    baseLetter a = row.1 ∧ isCombiningMark a = false ∧ spelling a = [a] ∧
      isAscii a = false := by
  have htable : accentTable.all (fun row => row.2.toList.all fun a =>
      baseLetter a = row.1 && !isCombiningMark a && spelling a = [a] && !isAscii a) = true := by
    decide +kernel
  have hletter := List.all_eq_true.1 (List.all_eq_true.1 htable row hrow) a ha
  simpa [and_assoc] using hletter

theorem isAscii_of_mem_accentTable : ∀ row ∈ accentTable, isAscii row.1 = true := by
  decide

/-- A character is one of the accented letters of the table, or has no accent to lose. -/
theorem baseLetter_eq_or (c : Char) :
    (∃ row ∈ accentTable, c ∈ row.2.toList) ∨ baseLetter c = c := by
  unfold baseLetter
  cases h : accentTable.find? fun row => c ∈ row.2.toList with
  | none => exact .inr rfl
  | some row => exact .inl ⟨row, List.mem_of_find?_eq_some h, by simpa using List.find?_some h⟩

theorem isCombiningMark_of_isAscii {c : Char} (hc : isAscii c = true) :
    isCombiningMark c = false := by
  simp only [isAscii, decide_eq_true_eq] at hc
  simp only [isCombiningMark, Bool.and_eq_false_iff, decide_eq_false_iff_not]
  omega

theorem baseLetter_of_isAscii {c : Char} (hc : isAscii c = true) : baseLetter c = c := by
  rcases baseLetter_eq_or c with ⟨row, hrow, hmem⟩ | h
  · rw [(accentTable_spec hrow hmem).2.2.2] at hc
    exact absurd hc (by decide)
  · exact h

theorem spelling_of_isAscii {c : Char} (hc : isAscii c = true) : spelling c = [c] := by
  unfold spelling
  split
  case h_8 => rfl
  all_goals exact absurd hc (by decide)

/-! ### ASCII texts -/

theorem stripAccents_of_isAscii {s : Text} (hs : ∀ c ∈ s, isAscii c = true) :
    stripAccents s = s := by
  induction s with
  | nil => rfl
  | cons c s ih =>
      have hc := hs c (by simp)
      rw [stripAccents_cons, isCombiningMark_of_isAscii hc, if_neg (by decide),
        baseLetter_of_isAscii hc, ih fun a ha => hs a (by simp [ha])]

theorem spellOut_of_isAscii {s : Text} (hs : ∀ c ∈ s, isAscii c = true) : spellOut s = s := by
  induction s with
  | nil => rfl
  | cons c s ih =>
      rw [spellOut_cons, spelling_of_isAscii (hs c (by simp)), ih fun a ha => hs a (by simp [ha])]
      rfl

/-! ### The order of the foldings -/

/-- A character is kept when texts are spelled out, or is no mark and spelled in ASCII. -/
theorem spelling_eq_or (c : Char) :
    spelling c = [c] ∨ isCombiningMark c = false ∧ (spelling c).all isAscii = true := by
  unfold spelling
  split
  case h_8 => exact .inl rfl
  all_goals exact .inr (by decide)

/-- A character folds to the same text in either order. -/
theorem stripAccents_spelling (c : Char) :
    stripAccents (spelling c) = spellOut (stripAccents [c]) := by
  rcases baseLetter_eq_or c with ⟨row, hrow, hc⟩ | hbase
  · obtain ⟨hbase, hmark, hkept, -⟩ := accentTable_spec hrow hc
    rw [hkept, stripAccents_cons, hmark, if_neg (by decide), hbase, stripAccents_nil,
      spellOut_of_isAscii (by simpa using isAscii_of_mem_accentTable row hrow)]
  · rcases spelling_eq_or c with hkept | ⟨hmark, hascii⟩
    · rw [hkept, stripAccents_cons, stripAccents_nil, hbase]
      split
      · rfl
      · rw [spellOut_cons, hkept]
        rfl
    · rw [stripAccents_of_isAscii (List.all_eq_true.1 hascii), stripAccents_cons, hmark,
        if_neg (by decide), hbase, stripAccents_nil, spellOut_cons, spellOut_nil,
        List.append_nil]

theorem stripAccents_spellOut (s : Text) :
    stripAccents (spellOut s) = spellOut (stripAccents s) := by
  induction s with
  | nil => rfl
  | cons c s ih =>
      rw [spellOut_cons, stripAccents_append, stripAccents_spelling, ih, ← spellOut_append,
        ← stripAccents_append, List.singleton_append]

end QuizFormula

import Mathlib.Data.List.Basic
import QuizFormula.Proofs.Grammar.Token
import QuizFormula.Proofs.Label.Folding

/-!
# The runs in a label

`HasRuns s ws` says that `ws` are the maximal runs of label characters in `s`, in their
order. Every text has such runs, and only these (`HasRuns.unique`). The label of a question
is made of the runs of its folded name, with one blank between any two
(`label_eq_intercalate`). What the label looks like follows from that: a run is not empty
and has no blanks, so there are none at the ends and no two in a row, and the runs of a
label are those that it was made of.

Only blanks are trimmed from a label. Trimming all white space would come to the same, since
no other white space is left by then (`label_eq_trim`).
-/

namespace QuizFormula

/-- The text has these maximal runs of label characters. A run begins after a gap or at the
start of the text, since none begins where another one ends. -/
inductive HasRuns : Text → List Text → Prop
  | nil : HasRuns [] []
  | gap {c : Char} {s : Text} {ws : List Text} (hc : isLabelChar c = false)
      (h : HasRuns s ws) : HasRuns (c :: s) ws
  | run {w s : Text} {ws : List Text} (hne : w ≠ []) (hw : ∀ c ∈ w, isLabelChar c = true)
      (hs : Stops isLabelChar s) (h : HasRuns s ws) : HasRuns (w ++ s) (w :: ws)

/-! ### Runs exist and are unique -/

theorem exists_hasRuns (s : Text) : ∃ ws, HasRuns s ws := by
  induction hlength : s.length using Nat.strong_induction_on generalizing s with
  | _ n ih =>
      subst hlength
      cases s with
      | nil => exact ⟨[], .nil⟩
      | cons c s =>
          cases hc : isLabelChar c with
          | false =>
              obtain ⟨ws, hws⟩ := ih s.length (by simp) s rfl
              exact ⟨ws, .gap hc hws⟩
          | true =>
              have hshorter := (List.dropWhile_suffix (l := s) isLabelChar).length_le
              obtain ⟨ws, hws⟩ := ih (s.dropWhile isLabelChar).length
                (by rw [List.length_cons]; omega) _ rfl
              refine ⟨(c :: s.takeWhile isLabelChar) :: ws, ?_⟩
              have hrun := HasRuns.run (w := c :: s.takeWhile isLabelChar) (by simp) ?_
                (stops_dropWhile isLabelChar s) hws
              · rwa [List.cons_append, List.takeWhile_append_dropWhile] at hrun
              · intro a ha
                rcases List.mem_cons.1 ha with rfl | ha
                · exact hc
                · exact List.mem_takeWhile_imp ha

theorem HasRuns.eq_nil {ws : List Text} (h : HasRuns [] ws) : ws = [] := by
  generalize hs : ([] : Text) = s at h
  cases h with
  | nil => rfl
  | gap => cases hs
  | run hne => exact absurd (List.append_eq_nil_iff.1 hs.symm).1 hne

theorem HasRuns.of_gap {c : Char} {s : Text} {ws : List Text} (hc : isLabelChar c = false)
    (h : HasRuns (c :: s) ws) : HasRuns s ws := by
  generalize hs : c :: s = t at h
  cases h with
  | nil => cases hs
  | gap _ h => rwa [(List.cons.inj hs).2]
  | run hne hw =>
      obtain ⟨a, w, rfl⟩ := List.exists_cons_of_ne_nil hne
      have hlabel := hw a (by simp)
      rw [← (List.cons.inj hs).1, hc] at hlabel
      exact absurd hlabel (by decide)

theorem HasRuns.of_run {w s : Text} {ws : List Text} (hne : w ≠ [])
    (hw : ∀ c ∈ w, isLabelChar c = true) (hs : Stops isLabelChar s) (h : HasRuns (w ++ s) ws) :
    ∃ us, ws = w :: us ∧ HasRuns s us := by
  generalize ht : w ++ s = t at h
  cases h with
  | nil => exact absurd (List.append_eq_nil_iff.1 ht).1 hne
  | gap hc =>
      obtain ⟨a, w, rfl⟩ := List.exists_cons_of_ne_nil hne
      have hlabel := hw a (by simp)
      rw [(List.cons.inj ht).1, hc] at hlabel
      exact absurd hlabel (by decide)
  | @run w' s' us _ hw' hs' h =>
      have hwords : w = w' := by
        rw [← takeWhile_append_of_stops hw hs, ht, takeWhile_append_of_stops hw' hs']
      subst hwords
      rw [List.append_cancel_left ht]
      exact ⟨us, rfl, h⟩

theorem HasRuns.unique {s : Text} {ws us : List Text} (h : HasRuns s ws)
    (h' : HasRuns s us) : us = ws := by
  induction h generalizing us with
  | nil => exact h'.eq_nil
  | gap hc _ ih => exact ih (h'.of_gap hc)
  | run hne hw hs _ ih =>
      obtain ⟨us', rfl, h''⟩ := h'.of_run hne hw hs
      rw [ih h'']

/-! ### The characters of runs -/

theorem HasRuns.flatten_eq {s : Text} {ws : List Text} (h : HasRuns s ws) :
    ws.flatten = s.filter isLabelChar := by
  induction h with
  | nil => rfl
  | gap hc _ ih => rw [ih, List.filter_cons_of_neg (by simp [hc])]
  | run _ hw _ _ ih => rw [List.flatten_cons, ih, List.filter_append, List.filter_eq_self.2 hw]

/-- The words are runs, wherever they come from: not empty, and of label characters. -/
def AreRuns (ws : List Text) : Prop :=
  ∀ w ∈ ws, w ≠ [] ∧ ∀ c ∈ w, isLabelChar c = true

theorem areRuns_cons_iff (w : Text) (ws : List Text) :
    AreRuns (w :: ws) ↔ (w ≠ [] ∧ ∀ c ∈ w, isLabelChar c = true) ∧ AreRuns ws :=
  List.forall_mem_cons

theorem HasRuns.areRuns {s : Text} {ws : List Text} (h : HasRuns s ws) : AreRuns ws := by
  induction h with
  | nil => simp [AreRuns]
  | gap _ _ ih => exact ih
  | run hne hw _ _ ih => exact (areRuns_cons_iff _ _).2 ⟨⟨hne, hw⟩, ih⟩

theorem HasRuns.eq_nil_iff {s : Text} {ws : List Text} (h : HasRuns s ws) :
    ws = [] ↔ ∀ c ∈ s, isLabelChar c = false := by
  have hfilter : ws.flatten = [] ↔ ∀ c ∈ s, isLabelChar c = false := by
    rw [h.flatten_eq, List.filter_eq_nil_iff]
    simp
  rw [← hfilter, List.flatten_eq_nil_iff]
  constructor
  · rintro rfl
    simp
  · intro hempty
    by_contra hne
    obtain ⟨w, ws, rfl⟩ := List.exists_cons_of_ne_nil hne
    exact (h.areRuns w (by simp)).1 (hempty w (by simp))

theorem isLabelChar_blank : isLabelChar ' ' = false := by
  decide

theorem ne_blank_of_isLabelChar {c : Char} (hc : isLabelChar c = true) : c ≠ ' ' := by
  rintro rfl
  exact absurd hc (by decide)

/-! ### Words with a blank in front of each -/

/-- The words, with a blank in front of each. -/
def blankLed (ws : List Text) : Text := ws.flatMap (' ' :: ·)

theorem blankLed_cons (w : Text) (ws : List Text) :
    blankLed (w :: ws) = ' ' :: (w ++ blankLed ws) := by
  simp [blankLed]

theorem intercalate_cons (w : Text) (ws : List Text) :
    [' '].intercalate (w :: ws) = w ++ blankLed ws := by
  induction ws generalizing w with
  | nil => simp [blankLed]
  | cons v ws ih => rw [List.intercalate_cons_cons, ih, blankLed_cons, List.append_assoc]; rfl

theorem hasRuns_blankLed {ws : List Text} (hws : AreRuns ws) : HasRuns (blankLed ws) ws := by
  induction ws with
  | nil => exact .nil
  | cons w ws ih =>
      obtain ⟨⟨hne, hw⟩, hws⟩ := (areRuns_cons_iff w ws).1 hws
      have hstops : Stops isLabelChar (blankLed ws) := by
        cases ws with
        | nil => exact stops_nil isLabelChar
        | cons v ws => exact (stops_cons _ _ _).2 isLabelChar_blank
      rw [blankLed_cons]
      exact .gap isLabelChar_blank (.run hne hw hstops (ih hws))

/-- Words with single blanks between them have these words as their runs. -/
theorem hasRuns_intercalate {ws : List Text} (hws : AreRuns ws) :
    HasRuns ([' '].intercalate ws) ws := by
  cases ws with
  | nil => exact .nil
  | cons w ws =>
      have hruns := (hasRuns_blankLed hws).of_gap isLabelChar_blank
      rwa [intercalate_cons]

theorem intercalate_eq_nil_iff {ws : List Text} (hws : AreRuns ws) :
    [' '].intercalate ws = [] ↔ ws = [] := by
  cases ws with
  | nil => simp
  | cons w ws =>
      have hne := (hws w (by simp)).1
      simp [intercalate_cons, hne]

theorem head?_intercalate {ws : List Text} (hws : AreRuns ws) :
    ∀ c ∈ ([' '].intercalate ws).head?, isLabelChar c = true := by
  cases ws with
  | nil => simp
  | cons w ws =>
      obtain ⟨⟨hne, hw⟩, -⟩ := (areRuns_cons_iff w ws).1 hws
      obtain ⟨a, w, rfl⟩ := List.exists_cons_of_ne_nil hne
      rw [intercalate_cons]
      intro c hc
      obtain rfl := Option.some.inj hc
      exact hw a (by simp)

theorem getLast?_intercalate {ws : List Text} (hws : AreRuns ws) :
    ∀ c ∈ ([' '].intercalate ws).getLast?, isLabelChar c = true := by
  induction ws with
  | nil => simp
  | cons w ws ih =>
      obtain ⟨⟨hne, hw⟩, hws⟩ := (areRuns_cons_iff w ws).1 hws
      cases ws with
      | nil =>
          rw [intercalate_cons]
          intro c hc
          exact hw c (List.mem_of_getLast? (by simpa [blankLed] using hc))
      | cons v ws =>
          have hrest : [' '].intercalate (v :: ws) ≠ [] :=
            mt (intercalate_eq_nil_iff hws).1 (List.cons_ne_nil v ws)
          rw [List.intercalate_cons_cons, List.getLast?_append_of_ne_nil _ hrest]
          exact ih hws

theorem exists_blankLed_eq (ws : List Text) :
    ∃ l, (∀ c ∈ l, c = ' ') ∧ blankLed ws = l ++ [' '].intercalate ws := by
  cases ws with
  | nil => exact ⟨[], by simp, rfl⟩
  | cons w ws => exact ⟨[' '], by simp, by rw [blankLed_cons, intercalate_cons]; rfl⟩

/-! ### What squeezing leaves -/

theorem leadBlank_eq_or (s : Text) :
    leadBlank s = s ∧ s.head? = some ' ' ∨ leadBlank s = ' ' :: s ∧ s.head? ≠ some ' ' := by
  unfold leadBlank
  split
  · exact .inl ⟨rfl, rfl⟩
  · rename_i hne
    refine .inr ⟨rfl, ?_⟩
    intro hhead
    obtain ⟨t, rfl⟩ := List.head?_eq_some_iff.1 hhead
    exact hne t rfl

theorem leadBlank_leadBlank (s : Text) : leadBlank (leadBlank s) = leadBlank s := by
  rcases leadBlank_eq_or s with ⟨h, -⟩ | ⟨h, -⟩
  · rw [h, h]
  · rw [h]
    rfl

theorem mem_squeeze {s : Text} {c : Char} (hc : c ∈ squeeze s) :
    isLabelChar c = true ∨ c = ' ' := by
  induction s with
  | nil => simp at hc
  | cons a s ih =>
      rw [squeeze_cons] at hc
      split at hc
      · rename_i ha
        rcases List.mem_cons.1 hc with rfl | hc
        · exact .inl ha
        · exact ih hc
      · rcases leadBlank_eq_or (squeeze s) with ⟨h, -⟩ | ⟨h, -⟩
        · rw [h] at hc
          exact ih hc
        · rw [h] at hc
          rcases List.mem_cons.1 hc with rfl | hc
          · exact .inr rfl
          · exact ih hc

/-- Runs of other characters leave one blank, so no two blanks stand together. -/
theorem not_infix_squeeze (s : Text) : ¬ [' ', ' '] <:+: squeeze s := by
  induction s with
  | nil => simp
  | cons a s ih =>
      rw [squeeze_cons]
      split
      · rename_i ha
        rw [List.infix_cons_iff, not_or]
        refine ⟨?_, ih⟩
        intro hstarts
        exact ne_blank_of_isLabelChar ha (List.cons_prefix_cons.1 hstarts).1.symm
      · rcases leadBlank_eq_or (squeeze s) with ⟨h, -⟩ | ⟨h, hhead⟩
        · rwa [h]
        · rw [h, List.infix_cons_iff, not_or]
          refine ⟨?_, ih⟩
          intro hstarts
          obtain ⟨t, ht⟩ := (List.cons_prefix_cons.1 hstarts).2
          rw [← ht] at hhead
          exact hhead rfl

theorem squeeze_append {w : Text} (hw : ∀ c ∈ w, isLabelChar c = true) (s : Text) :
    squeeze (w ++ s) = w ++ squeeze s := by
  induction w with
  | nil => rfl
  | cons c w ih =>
      rw [List.cons_append, squeeze_cons, if_pos (hw c (by simp)),
        ih fun a ha => hw a (by simp [ha])]
      rfl

/-- A squeezed text is its runs, each with a blank in front of it. The first blank may be
missing, and one may be left at the end. -/
theorem HasRuns.leadBlank_squeeze {s : Text} {ws : List Text} (h : HasRuns s ws) :
    ∃ r, (∀ c ∈ r, c = ' ') ∧ leadBlank (squeeze s) = blankLed ws ++ r := by
  induction h with
  | nil => exact ⟨[' '], by simp, rfl⟩
  | gap hc _ ih => rwa [squeeze_cons, if_neg (by simp [hc]), leadBlank_leadBlank]
  | @run w s ws hne hw hs h ih =>
      have hlead : leadBlank (w ++ squeeze s) = ' ' :: (w ++ squeeze s) := by
        obtain ⟨a, w, rfl⟩ := List.exists_cons_of_ne_nil hne
        rcases leadBlank_eq_or (a :: w ++ squeeze s) with ⟨-, hhead⟩ | ⟨h, -⟩
        · exact absurd (Option.some.inj hhead) (ne_blank_of_isLabelChar (hw a (by simp)))
        · exact h
      rw [squeeze_append hw, hlead, blankLed_cons]
      cases s with
      | nil =>
          rw [h.eq_nil]
          exact ⟨[], by simp, by simp [blankLed]⟩
      | cons c s =>
          -- After a run comes a gap, which leaves the blank for the next run.
          obtain ⟨r, hr, heq⟩ := ih
          rw [squeeze_cons, (stops_cons _ _ _).1 hs, if_neg (by decide),
            leadBlank_leadBlank] at heq
          refine ⟨r, hr, ?_⟩
          rw [squeeze_cons, (stops_cons _ _ _).1 hs, if_neg (by decide), heq]
          simp

/-! ### Trimming -/

/-- The text without the characters of a class at its ends. -/
def trim (p : Char → Bool) (s : Text) : Text := ((s.dropWhile p).reverse.dropWhile p).reverse

theorem trimBlanks_eq_trim (s : Text) : trimBlanks s = trim (fun c => decide (c = ' ')) s :=
  rfl

theorem trim_infix (p : Char → Bool) (s : Text) : trim p s <:+: s := by
  have hfront : s.dropWhile p <:+: s := (List.dropWhile_suffix p).isInfix
  have hback : (s.dropWhile p).reverse.dropWhile p <:+: (s.dropWhile p).reverse :=
    (List.dropWhile_suffix p).isInfix
  rw [← List.reverse_infix, List.reverse_reverse] at hback
  exact hback.trans hfront

/-- What is trimmed away stands in front of the first character that stays and after the
last one. -/
theorem trim_append {p : Char → Bool} {l x r : Text} (hl : ∀ c ∈ l, p c = true)
    (hr : ∀ c ∈ r, p c = true) (hfirst : Stops p x) (hlast : Stops p x.reverse) :
    trim p (l ++ (x ++ r)) = x := by
  cases x with
  | nil =>
      have hall : (l ++ r).dropWhile p = [] := by
        rw [List.dropWhile_append_of_pos hl]
        exact List.dropWhile_eq_nil_iff.2 hr
      rw [trim, List.nil_append, hall]
      rfl
  | cons a x =>
      have hr' : ∀ c ∈ r.reverse, p c = true := fun c hc => hr c (List.mem_reverse.1 hc)
      have hfront : (l ++ (a :: x ++ r)).dropWhile p = a :: x ++ r :=
        dropWhile_append_of_stops hl ((stops_cons p a _).2 ((stops_cons p a x).1 hfirst))
      rw [trim, hfront, List.reverse_append, dropWhile_append_of_stops hr' hlast,
        List.reverse_reverse]

/-- Whatever class is trimmed, the runs stay as long as it has blanks and no label
characters. -/
theorem HasRuns.trim_squeeze {p : Char → Bool} (hblank : p ' ' = true)
    (hlabel : ∀ c, isLabelChar c = true → p c = false) {s : Text} {ws : List Text}
    (h : HasRuns s ws) : trim p (squeeze s) = [' '].intercalate ws := by
  have hlead : trim p (squeeze s) = trim p (leadBlank (squeeze s)) := by
    rcases leadBlank_eq_or (squeeze s) with ⟨h, -⟩ | ⟨h, -⟩
    · rw [h]
    · rw [h, trim, trim, List.dropWhile_cons_of_pos hblank]
  have hspace : ∀ {t : Text}, (∀ c ∈ t, c = ' ') → ∀ c ∈ t, p c = true := by
    intro t ht c hc
    rw [ht c hc, hblank]
  obtain ⟨r, hr, heq⟩ := h.leadBlank_squeeze
  obtain ⟨l, hl, hled⟩ := exists_blankLed_eq ws
  rw [hlead, heq, hled, List.append_assoc]
  apply trim_append (hspace hl) (hspace hr)
  · exact fun c hc => hlabel c (head?_intercalate h.areRuns c hc)
  · intro c hc
    rw [List.head?_reverse] at hc
    exact hlabel c (getLast?_intercalate h.areRuns c hc)

/-! ### The label -/

theorem label_eq_of_hasRuns {name : Text} {ws : List Text}
    (h : HasRuns (spellOut (stripAccents name)) ws) : label name = [' '].intercalate ws := by
  rw [label, trimBlanks_eq_trim]
  apply h.trim_squeeze
  · exact decide_eq_true rfl
  · exact fun c hc => decide_eq_false (ne_blank_of_isLabelChar hc)

theorem isInfix_label (name : Text) : label name <:+: squeeze (spellOut (stripAccents name)) :=
  trim_infix _ _

theorem toNat_of_isLabelChar {c : Char} (hc : isLabelChar c = true) :
    45 ≤ c.toNat ∧ c.toNat < 123 := by
  simp only [isLabelChar, Bool.or_eq_true, decide_eq_true_eq] at hc
  rcases hc with (halphanum | rfl) | rfl
  · obtain ⟨hlow, hhigh⟩ := toNat_of_isAlphanum halphanum
    exact ⟨Nat.le_trans (by decide) hlow, Nat.lt_of_le_of_lt hhigh (by decide)⟩
  · decide
  · decide

theorem isAscii_of_mem_label {name : Text} {c : Char} (hc : c ∈ label name) :
    isAscii c = true := by
  rcases mem_squeeze ((isInfix_label name).subset hc) with h | rfl
  · have hrange := toNat_of_isLabelChar h
    exact decide_eq_true (by omega)
  · decide

/-- A label is its own folding, so it has the runs that it was made of. -/
theorem label_label (name : Text) : label (label name) = label name := by
  obtain ⟨ws, hws⟩ := exists_hasRuns (spellOut (stripAccents name))
  have hlabel := label_eq_of_hasRuns hws
  have hruns : HasRuns (spellOut (stripAccents (label name))) ws := by
    rw [stripAccents_of_isAscii fun _ => isAscii_of_mem_label,
      spellOut_of_isAscii fun _ => isAscii_of_mem_label, hlabel]
    exact hasRuns_intercalate hws.areRuns
  rw [label_eq_of_hasRuns hruns, hlabel]

/-- The label of a question is the maximal runs of label characters in its folded name, with
one blank between any two. So it has label characters and single blanks between them only,
it is empty just if the folded name has no label character, and it is its own label. -/
theorem label_eq_intercalate (name : Text) :
    ∃ ws, (∀ us, HasRuns (spellOut (stripAccents name)) us ↔ us = ws) ∧
      label name = [' '].intercalate ws ∧
      (∀ c ∈ label name, isLabelChar c = true ∨ c = ' ') ∧
      ¬ [' ', ' '] <:+: label name ∧
      (label name).head? ≠ some ' ' ∧ (label name).getLast? ≠ some ' ' ∧
      (label name = [] ↔ ∀ c ∈ spellOut (stripAccents name), isLabelChar c = false) ∧
      label (label name) = label name := by
  obtain ⟨ws, hws⟩ := exists_hasRuns (spellOut (stripAccents name))
  have hlabel := label_eq_of_hasRuns hws
  refine ⟨ws, ?_, hlabel, ?_, ?_, ?_, ?_, ?_, label_label name⟩
  · intro us
    constructor
    · exact hws.unique
    · rintro rfl
      exact hws
  · intro c hc
    exact mem_squeeze ((isInfix_label name).subset hc)
  · intro hblanks
    exact not_infix_squeeze _ (hblanks.trans (isInfix_label name))
  · rw [hlabel]
    intro hhead
    exact ne_blank_of_isLabelChar (head?_intercalate hws.areRuns _ hhead) rfl
  · rw [hlabel]
    intro hlast
    exact ne_blank_of_isLabelChar (getLast?_intercalate hws.areRuns _ hlast) rfl
  · rw [hlabel, intercalate_eq_nil_iff hws.areRuns, hws.eq_nil_iff]

example : label " Prix_1 en € ".toList = "Prix 1 en Euros".toList := by
  decide +kernel

/-! ### Other white space -/

/-- The white space of Unicode. -/
def isWhiteSpace (c : Char) : Bool :=
  (0x9 ≤ c.toNat && c.toNat ≤ 0xD) || (0x2000 ≤ c.toNat && c.toNat ≤ 0x200A) ||
    c.toNat ∈ [0x20, 0x85, 0xA0, 0x1680, 0x2028, 0x2029, 0x202F, 0x205F, 0x3000]

theorem isWhiteSpace_of_isLabelChar {c : Char} (hc : isLabelChar c = true) :
    isWhiteSpace c = false := by
  have hrange := toNat_of_isLabelChar hc
  simp only [isWhiteSpace, List.mem_cons, List.not_mem_nil, or_false, Bool.or_eq_false_iff,
    Bool.and_eq_false_iff, decide_eq_false_iff_not]
  omega

/-- Trimming all white space gives the same label. -/
theorem label_eq_trim (name : Text) :
    label name = trim isWhiteSpace (squeeze (spellOut (stripAccents name))) := by
  obtain ⟨ws, hws⟩ := exists_hasRuns (spellOut (stripAccents name))
  rw [label_eq_of_hasRuns hws,
    hws.trim_squeeze (by decide) fun _ hc => isWhiteSpace_of_isLabelChar hc]

end QuizFormula

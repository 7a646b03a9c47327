import Mathlib.Data.List.Basic
import QuizFormula.Document.Math

/-!
# What decides on math

A span of math is found where an opening delimiter stands and its closing one occurs
somewhere after it, so no more has to be known of the text than that
(`mathSpan?_eq_none_iff`). A span that is found does not depend on what comes after it
(`mathSpan?_append`).
-/

namespace QuizFormula

theorem isPrefixOf?_eq_none_iff (a s : Text) : a.isPrefixOf? s = none ↔ ¬ a <+: s := by
  rw [← Option.not_isSome_iff_eq_none, List.isSome_isPrefixOf?_eq_isPrefixOf,
    List.isPrefixOf_iff_prefix]

theorem append_eq_of_through? {close s a r : Text} (h : through? close s = some (a, r)) :
    a ++ r = s := by
  induction s generalizing a with
  | nil =>
      simp only [through?] at h
      split at h
      · cases h
        rfl
      · simp at h
  | cons c s ih =>
      simp only [through?] at h
      split at h
      · rename_i t ht
        cases h
        exact List.append_eq_of_isPrefixOf?_eq_some ht
      · obtain ⟨⟨a', r'⟩, hx, heq⟩ := Option.map_eq_some_iff.1 h
        cases heq
        rw [List.cons_append, ih hx]

theorem append_eq_of_delimited? {opening close s a r : Text}
    (h : delimited? opening close s = some (a, r)) : a ++ r = s := by
  unfold delimited? at h
  split at h
  · simp at h
  · rename_i t ht
    obtain ⟨⟨a', r'⟩, hx, heq⟩ := Option.map_eq_some_iff.1 h
    cases heq
    rw [List.append_assoc, append_eq_of_through? hx]
    exact List.append_eq_of_isPrefixOf?_eq_some ht

theorem through?_eq_none_iff {close : Text} (hne : close ≠ []) (s : Text) :
    through? close s = none ↔ ¬ close <:+: s := by
  induction s with
  | nil => simp [through?, hne]
  | cons c s ih =>
      rw [List.infix_cons_iff, not_or, ← isPrefixOf?_eq_none_iff, ← ih, through?]
      cases close.isPrefixOf? (c :: s) with
      | none => simp
      | some r => simp

theorem suffix_of_through? {close s a r : Text} (h : through? close s = some (a, r)) :
    close <:+ a := by
  induction s generalizing a with
  | nil =>
      simp only [through?] at h
      split at h
      · rename_i hclose
        cases h
        subst hclose
        exact List.suffix_rfl
      · simp at h
  | cons c s ih =>
      simp only [through?] at h
      split at h
      · cases h
        exact List.suffix_rfl
      · obtain ⟨⟨a', r'⟩, hx, heq⟩ := Option.map_eq_some_iff.1 h
        cases heq
        exact (ih hx).trans (List.suffix_cons c a')

/-- What is read ends with the closing delimiter where it stands for the first time. -/
theorem through?_eq_some_iff {close : Text} (hne : close ≠ []) (s a r : Text) :
    through? close s = some (a, r) ↔
      ∃ m, a = m ++ close ∧ s = m ++ (close ++ r) ∧
        ∀ m' r', s = m' ++ (close ++ r') → m.length ≤ m'.length := by
  have hfirst : ∀ {s a r : Text}, through? close s = some (a, r) →
      ∃ m, a = m ++ close ∧ s = m ++ (close ++ r) ∧
        ∀ m' r', s = m' ++ (close ++ r') → m.length ≤ m'.length := by
    intro s a r h
    induction s generalizing a with
    | nil => simp [through?, hne] at h
    | cons c s ih =>
        simp only [through?] at h
        split at h
        · rename_i t ht
          cases h
          exact ⟨[], rfl, (List.append_eq_of_isPrefixOf?_eq_some ht).symm,
            fun _ _ _ => Nat.zero_le _⟩
        · rename_i hnone
          obtain ⟨⟨a', r'⟩, hx, heq⟩ := Option.map_eq_some_iff.1 h
          cases heq
          obtain ⟨m, rfl, rfl, hleast⟩ := ih hx
          refine ⟨c :: m, rfl, rfl, fun m' r' h' => ?_⟩
          cases m' with
          | nil => exact absurd ⟨r', h'.symm⟩ ((isPrefixOf?_eq_none_iff _ _).1 hnone)
          | cons k m' => exact Nat.succ_le_succ (hleast m' r' (List.cons.inj h').2)
  refine ⟨hfirst, ?_⟩
  rintro ⟨m, rfl, hs, hleast⟩
  cases h : through? close s with
  | none =>
      rw [through?_eq_none_iff hne] at h
      exact absurd ⟨m, r, by rw [hs, List.append_assoc]⟩ h
  | some x =>
      obtain ⟨a, r'⟩ := x
      obtain ⟨m', rfl, hs', hleast'⟩ := hfirst h
      -- Both places are the first one.
      have hlength : m'.length = m.length :=
        Nat.le_antisymm (hleast' m r hs) (hleast m' r' hs')
      obtain ⟨rfl, hrest⟩ := List.append_inj (hs'.symm.trans hs) hlength
      rw [(List.append_cancel_left hrest)]

/-- The first closing delimiter stays the first one when the text after it changes. -/
theorem through?_append {close s a r : Text} (hne : close ≠ [])
    (h : through? close s = some (a, r)) (y : Text) : through? close (a ++ y) = some (a, y) := by
  induction s generalizing a with
  | nil => simp [through?, hne] at h
  | cons c s ih =>
      simp only [through?] at h
      split at h
      · cases h
        obtain ⟨k, close', rfl⟩ := List.exists_cons_of_ne_nil hne
        rw [List.cons_append, through?, ← List.cons_append,
          List.isPrefixOf?_eq_some_iff_append_eq.2 rfl]
      · rename_i hnone
        obtain ⟨⟨a', r'⟩, hx, heq⟩ := Option.map_eq_some_iff.1 h
        cases heq
        have hsuffix := suffix_of_through? hx
        have hs := append_eq_of_through? hx
        -- There is room for the delimiter before `y`, so it would have been found there.
        have hprefix : ¬ close <+: c :: (a' ++ y) := by
          intro hclose
          rw [isPrefixOf?_eq_none_iff] at hnone
          apply hnone
          have hle : close.length ≤ (c :: a').length :=
            Nat.le_succ_of_le hsuffix.length_le
          have hshort : close <+: c :: a' :=
            List.prefix_of_prefix_length_le hclose (List.prefix_append (c :: a') y) hle
          rw [← hs]
          exact hshort.trans (List.prefix_append (c :: a') _)
        rw [List.cons_append, through?, (isPrefixOf?_eq_none_iff _ _).2 hprefix]
        simp only [ih hx, Option.map_some]

/-- Behind its opening delimiter a span goes on through the closing one. -/
theorem delimited?_opening_append (opening close t : Text) :
    delimited? opening close (opening ++ t) =
      (through? close t).map fun x => (opening ++ x.1, x.2) := by
  rw [delimited?, List.isPrefixOf?_eq_some_iff_append_eq.2 rfl]

theorem delimited?_eq_none_iff {opening close : Text} (hne : close ≠ []) (s : Text) :
    delimited? opening close s = none ↔ ∀ t, s = opening ++ t → ¬ close <:+: t := by
  constructor
  · rintro h t rfl
    rwa [delimited?_opening_append, Option.map_eq_none_iff, through?_eq_none_iff hne] at h
  · intro h
    unfold delimited?
    split
    · rfl
    · rename_i t ht
      rw [(through?_eq_none_iff hne t).2 (h t (List.append_eq_of_isPrefixOf?_eq_some ht).symm)]
      rfl

theorem delimited?_append {opening close s a r : Text} (hne : close ≠ [])
    (h : delimited? opening close s = some (a, r)) (y : Text) :
    delimited? opening close (a ++ y) = some (a, y) := by
  unfold delimited? at h
  split at h
  · simp at h
  · obtain ⟨⟨a', r'⟩, hx, heq⟩ := Option.map_eq_some_iff.1 h
    cases heq
    rw [List.append_assoc, delimited?_opening_append, through?_append hne hx, Option.map_some]

/-- The delimiters of math are pairs of characters. Each pair begins with a dollar sign
or a backslash; two dollar signs stand together, and what follows a backslash is no
letter, no digit and no backslash. -/
structure IsDelimiter (d : Text) (q k : Char) : Prop where
  pair : d = [q, k]
  first : q = '$' ∨ q = '\\'
  second : k ≠ '\\' ∧ k.isAlphanum = false
  dollar : q = '$' ↔ k = '$'

theorem exists_isDelimiter {d : Text × Text} (hd : d ∈ mathDelimiters) :
    ∃ q o k, IsDelimiter d.1 q o ∧ IsDelimiter d.2 q k := by
  simp only [mathDelimiters, List.mem_cons, List.not_mem_nil, or_false] at hd
  rcases hd with rfl | rfl | rfl
  · exact ⟨'$', '$', '$', ⟨rfl, by decide, by decide, by decide⟩,
      ⟨rfl, by decide, by decide, by decide⟩⟩
  · exact ⟨'\\', '(', ')', ⟨rfl, by decide, by decide, by decide⟩,
      ⟨rfl, by decide, by decide, by decide⟩⟩
  · exact ⟨'\\', '[', ']', ⟨rfl, by decide, by decide, by decide⟩,
      ⟨rfl, by decide, by decide, by decide⟩⟩

theorem closing_ne_nil {d : Text × Text} (hd : d ∈ mathDelimiters) : d.2 ≠ [] := by
  obtain ⟨q, o, k, -, hclose⟩ := exists_isDelimiter hd
  rw [hclose.pair]
  exact List.cons_ne_nil q [k]

theorem mathSpan?_eq_none_iff (s : Text) :
    mathSpan? s = none ↔ ∀ d ∈ mathDelimiters, ∀ t, s = d.1 ++ t → ¬ d.2 <:+: t := by
  rw [mathSpan?, List.findSome?_eq_none_iff]
  apply forall_congr'
  intro d
  apply forall_congr'
  intro hd
  exact delimited?_eq_none_iff (closing_ne_nil hd) s

theorem mathSpan?_cons_of_ne {c : Char} (hdollar : c ≠ '$') (hslash : c ≠ '\\') (t : Text) :
    mathSpan? (c :: t) = none := by
  rw [mathSpan?_eq_none_iff]
  intro d hd u hu
  obtain ⟨q, o, k, hopen, -⟩ := exists_isDelimiter hd
  rw [hopen.pair] at hu
  obtain ⟨rfl, -⟩ := List.cons.inj hu
  rcases hopen.first with hq | hq
  · exact absurd hq hdollar
  · exact absurd hq hslash

/-- No text begins with two of the opening delimiters, so it does not matter in which
order they are tried. -/
theorem mathSpan?_eq_some_iff (s : Text) (x : Text × Text) :
    mathSpan? s = some x ↔ ∃ d ∈ mathDelimiters, delimited? d.1 d.2 s = some x := by
  constructor
  · intro h
    exact List.exists_of_findSome?_eq_some h
  · rintro ⟨d, hd, h⟩
    have hopen : ∃ t, s = d.1 ++ t := by
      unfold delimited? at h
      split at h
      · simp at h
      · rename_i t ht
        exact ⟨t, (List.append_eq_of_isPrefixOf?_eq_some ht).symm⟩
    obtain ⟨t, rfl⟩ := hopen
    simp only [mathDelimiters, List.mem_cons, List.not_mem_nil, or_false] at hd
    rcases hd with rfl | rfl | rfl
    · rw [mathSpan?, mathDelimiters, List.findSome?_cons, h]
    · rw [mathSpan?, mathDelimiters, List.findSome?_cons, List.findSome?_cons, h]
      rfl
    · rw [mathSpan?, mathDelimiters, List.findSome?_cons, List.findSome?_cons,
        List.findSome?_cons, h]
      rfl

/-- A span of math stays the same span when the text after it changes. -/
theorem mathSpan?_append {s a r : Text} (h : mathSpan? s = some (a, r)) (y : Text) :
    mathSpan? (a ++ y) = some (a, y) := by
  obtain ⟨d, hd, hs⟩ := (mathSpan?_eq_some_iff s (a, r)).1 h
  exact (mathSpan?_eq_some_iff (a ++ y) (a, y)).2
    ⟨d, hd, delimited?_append (closing_ne_nil hd) hs y⟩

theorem append_eq_of_mathSpan? {s a r : Text} (h : mathSpan? s = some (a, r)) : a ++ r = s := by
  obtain ⟨d, -, hs⟩ := (mathSpan?_eq_some_iff s (a, r)).1 h
  exact append_eq_of_delimited? hs

/-- A span of math begins with a delimiter and has the closing one after that. -/
theorem exists_eq_of_mathSpan? {s a r : Text} (h : mathSpan? s = some (a, r)) :
    ∃ d ∈ mathDelimiters, ∃ x, a = d.1 ++ x ∧ d.2 <:+: x := by
  obtain ⟨d, hd, hs⟩ := (mathSpan?_eq_some_iff s (a, r)).1 h
  unfold delimited? at hs
  split at hs
  · simp at hs
  · obtain ⟨⟨x, r'⟩, hx, heq⟩ := Option.map_eq_some_iff.1 hs
    cases heq
    exact ⟨d, hd, x, rfl, (suffix_of_through? hx).isInfix⟩

end QuizFormula

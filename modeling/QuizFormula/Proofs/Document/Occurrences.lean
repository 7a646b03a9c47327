import Mathlib.Tactic.Common
import QuizFormula.Document.Bytes

/-!
# Where ASCII words occur

In UTF-8 an ASCII character is one byte, and the bytes of any other character are no ASCII
characters. So an ASCII word occurs in the bytes of a text only where it occurs among its
characters, never inside of one (`occursAt_utf8_iff`).
-/

namespace QuizFormula

theorem toNat_lt_of_isAscii {c : Char} (h : isAscii c = true) : c.toNat < 128 := by
  simpa [isAscii] using h

theorem utf8EncodeChar_of_isAscii {c : Char} (h : isAscii c = true) :
    String.utf8EncodeChar c = [UInt8.ofNat c.toNat] :=
  if_pos (Nat.le_of_lt_succ (toNat_lt_of_isAscii h))

theorem utf8Size_eq_one {c : Char} (h : isAscii c = true) : c.utf8Size = 1 := by
  rw [← String.length_utf8EncodeChar, utf8EncodeChar_of_isAscii h, List.length_singleton]

theorem le_of_mem_utf8EncodeChar {c : Char} (h : isAscii c = false) {b : UInt8}
    (hb : b ∈ String.utf8EncodeChar c) : 128 ≤ b.toNat := by
  have hlarge : ¬ c.val.toNat ≤ 127 := fun hle =>
    of_decide_eq_false h (Nat.lt_succ_of_le hle)
  have hbyte : ∀ n, 128 ≤ n % 256 → 128 ≤ (UInt8.ofNat n).toNat := by
    intro n hn
    rwa [UInt8.toNat_ofNat']
  simp only [String.utf8EncodeChar, if_neg hlarge] at hb
  -- Two, three and four bytes.
  split at hb
  · simp only [List.mem_cons, List.not_mem_nil, or_false] at hb
    rcases hb with rfl | rfl <;> exact hbyte _ (by omega)
  · split at hb
    · simp only [List.mem_cons, List.not_mem_nil, or_false] at hb
      rcases hb with rfl | rfl | rfl <;> exact hbyte _ (by omega)
    · simp only [List.mem_cons, List.not_mem_nil, or_false] at hb
      rcases hb with rfl | rfl | rfl | rfl <;> exact hbyte _ (by omega)

/-- No ASCII word occurs inside of a character that is not ASCII. -/
theorem not_prefix_of_isAscii {k c : Char} (hk : isAscii k = true) (hc : isAscii c = false)
    (w : Text) {i : Nat} (hi : i < c.utf8Size) (bytes : List UInt8) :
    ¬ utf8 (k :: w) <+: (String.utf8EncodeChar c).drop i ++ bytes := by
  intro h
  have hne : (String.utf8EncodeChar c).drop i ≠ [] := by
    rw [Ne, List.drop_eq_nil_iff, String.length_utf8EncodeChar]
    omega
  obtain ⟨b, rest, hb⟩ := List.exists_cons_of_ne_nil hne
  have hmem : b ∈ String.utf8EncodeChar c :=
    List.mem_of_mem_drop (hb ▸ List.mem_cons_self)
  rw [hb, utf8_cons, utf8EncodeChar_of_isAscii hk, List.singleton_append, List.cons_append,
    List.cons_prefix_cons] at h
  have hle := le_of_mem_utf8EncodeChar hc hmem
  have hlt := toNat_lt_of_isAscii hk
  rw [← h.1, UInt8.toNat_ofNat'] at hle
  omega

theorem utf8_prefix_iff {w : Text} (hw : w.all isAscii = true) (s : Text) :
    utf8 w <+: utf8 s ↔ w <+: s := by
  constructor
  · intro h
    induction w generalizing s with
    | nil => exact List.nil_prefix
    | cons k w ih =>
        rw [List.all_cons, Bool.and_eq_true] at hw
        obtain ⟨hk, hw⟩ := hw
        cases s with
        | nil =>
            rw [utf8_nil, List.prefix_nil] at h
            exact absurd h (utf8_ne_nil (List.cons_ne_nil k w))
        | cons c s =>
            cases hc : isAscii c with
            | false => exact absurd h (not_prefix_of_isAscii hk hc w c.utf8Size_pos (utf8 s))
            | true =>
                rw [utf8_cons, utf8_cons, utf8EncodeChar_of_isAscii hk,
                  utf8EncodeChar_of_isAscii hc, List.singleton_append, List.singleton_append,
                  List.cons_prefix_cons] at h
                have hltk := toNat_lt_of_isAscii hk
                have hltc := toNat_lt_of_isAscii hc
                have hchar : k = c := by
                  have hbyte := congrArg UInt8.toNat h.1
                  rw [UInt8.toNat_ofNat', UInt8.toNat_ofNat', Nat.mod_eq_of_lt (by omega),
                    Nat.mod_eq_of_lt (by omega)] at hbyte
                  exact Char.toNat_inj.1 hbyte
                rw [hchar]
                exact List.cons_prefix_cons.2 ⟨rfl, ih hw s h.2⟩
  · rintro ⟨r, rfl⟩
    exact ⟨utf8 r, (utf8_append w r).symm⟩

theorem occursAt_append (x w y : Text) :
    OccursAt (utf8 w) (utf8 (x ++ (w ++ y))) (byteLength x) := by
  rw [OccursAt, utf8_append, byteLength, List.drop_left, utf8_append]
  exact List.prefix_append _ _

/-- An ASCII word occurs in the bytes where it occurs among the characters, and nowhere
else. -/
theorem occursAt_utf8_iff {w : Text} (hw : w.all isAscii = true) (hne : w ≠ []) (s : Text)
    (i : Nat) :
    OccursAt (utf8 w) (utf8 s) i ↔ ∃ x y, s = x ++ (w ++ y) ∧ byteLength x = i := by
  constructor
  · intro h
    induction s generalizing i with
    | nil => exact absurd (lt_of_occursAt (utf8_ne_nil hne) h) (Nat.not_lt_zero i)
    | cons c s ih =>
        rw [OccursAt, utf8_cons, List.drop_append, String.length_utf8EncodeChar] at h
        rcases Nat.lt_or_ge i c.utf8Size with hi | hi
        · -- The word starts at this character, or inside of it.
          rcases Nat.eq_zero_or_pos i with rfl | hpos
          · rw [Nat.zero_sub, List.drop_zero, List.drop_zero, ← utf8_cons] at h
            obtain ⟨y, hy⟩ := (utf8_prefix_iff hw (c :: s)).1 h
            exact ⟨[], y, hy.symm, rfl⟩
          · have hc : isAscii c = false := by
              by_contra hascii
              rw [utf8Size_eq_one (by simpa using hascii)] at hi
              omega
            obtain ⟨k, w', rfl⟩ := List.exists_cons_of_ne_nil hne
            exact absurd h (not_prefix_of_isAscii (List.all_eq_true.1 hw k List.mem_cons_self) hc
              w' hi _)
        · rw [List.drop_eq_nil_of_le (by rwa [String.length_utf8EncodeChar]),
            List.nil_append] at h
          obtain ⟨x, y, rfl, hx⟩ := ih (i - c.utf8Size) h
          refine ⟨c :: x, y, rfl, ?_⟩
          rw [byteLength_cons, hx]
          omega
  · rintro ⟨x, y, rfl, rfl⟩
    exact occursAt_append x w y

/-- Where two texts that start with the same characters are cut, the later cut is behind the
earlier one. -/
theorem exists_append_of_byteLength_le {a b x y : Text} (h : a ++ b = x ++ y)
    (hle : byteLength a ≤ byteLength x) : ∃ z, x = a ++ z ∧ b = z ++ y := by
  rcases List.append_eq_append_iff.1 h with ⟨z, hx, hb⟩ | ⟨z, ha, hy⟩
  · exact ⟨z, hx, hb⟩
  · rw [ha, byteLength_append] at hle
    have hz : z = [] := by
      by_contra hne
      have hpos := byteLength_pos hne
      omega
    subst hz
    exact ⟨[], by simpa using ha.symm, by simpa using hy.symm⟩

end QuizFormula

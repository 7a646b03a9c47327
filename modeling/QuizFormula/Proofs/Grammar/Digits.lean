import Mathlib.Data.Nat.Digits.Defs
import QuizFormula.Decimal
import QuizFormula.Proofs.Grammar.Numeral

/-!
# Digits and the numbers they denote

Digits that are taken from a text denote a number, and a number has its own digits. They
are the same up to zeros in front: what is left of digits without these zeros are the
digits of their number (`dropLeadingZeros_eq_toDigits`). So digits with a point among
them, written without superfluous zeros, are the plain notation of a decimal
(`Decimal.plainText_eq_toPlain`).
-/

namespace QuizFormula

theorem digits_append {l r : Text} (hl : Digits l) (hr : Digits r) : Digits (l ++ r) := by
  intro c hc
  rcases List.mem_append.1 hc with hc | hc
  · exact hl c hc
  · exact hr c hc

theorem digits_cons_iff (c : Char) (s : Text) :
    Digits (c :: s) ↔ c.isDigit = true ∧ Digits s := by
  simp [Digits]

theorem digits_replicate_zero (n : Nat) : Digits (List.replicate n '0') := by
  intro c hc
  rw [List.eq_of_mem_replicate hc]
  decide

theorem digits_toDigits (n : Nat) : Digits (Nat.toDigits 10 n) := by
  intro c hc
  exact Nat.isDigit_of_mem_toDigits (by decide) (by decide) hc

/-! ### The value of a digit -/

theorem digit_lt_ten {c : Char} (hc : c.isDigit = true) : c.toNat - '0'.toNat < 10 := by
  have hzero : '0'.toNat = 48 := rfl
  have hnine : '9'.toNat = 57 := rfl
  have hrange := Char.isDigit_iff_toNat.1 hc
  omega

theorem digit_pos {c : Char} (hc : c.isDigit = true) (hne : c ≠ '0') :
    0 < c.toNat - '0'.toNat := by
  have hle : '0'.toNat ≤ c.toNat := (Char.isDigit_iff_toNat.1 hc).1
  have hother : '0'.toNat ≠ c.toNat := fun h => hne (Char.toNat_inj.1 h).symm
  omega

theorem toDigits_digit {c : Char} (hc : c.isDigit = true) :
    Nat.toDigits 10 (c.toNat - '0'.toNat) = [c] := by
  have hlt := digit_lt_ten hc
  have hle : '0'.toNat ≤ c.toNat := (Char.isDigit_iff_toNat.1 hc).1
  rw [Nat.toDigits_of_lt_base hlt, List.cons.injEq]
  refine ⟨Char.toNat_inj.1 ?_, rfl⟩
  have hzero : '0'.toNat = 48 := rfl
  rw [Nat.toNat_digitChar_of_lt_ten hlt]
  omega

/-! ### Digits of a number -/

theorem ofDigitChars_lt {s : Text} (hs : Digits s) :
    Nat.ofDigitChars 10 s 0 < 10 ^ s.length := by
  induction s with
  | nil => decide
  | cons c s ih =>
      obtain ⟨hc, hs⟩ := (digits_cons_iff c s).1 hs
      have hdigit : c.toNat - '0'.toNat + 1 ≤ 10 := digit_lt_ten hc
      rw [Nat.ofDigitChars_cons, Nat.ofDigitChars_eq_ofDigitChars_zero, Nat.mul_zero,
        Nat.zero_add, List.length_cons, Nat.pow_succ]
      calc 10 ^ s.length * (c.toNat - '0'.toNat) + Nat.ofDigitChars 10 s 0
          < 10 ^ s.length * (c.toNat - '0'.toNat) + 10 ^ s.length :=
            Nat.add_lt_add_left (ih hs) _
        _ = 10 ^ s.length * (c.toNat - '0'.toNat + 1) := by rw [Nat.mul_add, Nat.mul_one]
        _ ≤ 10 ^ s.length * 10 := Nat.mul_le_mul_left _ hdigit

theorem ofDigitChars_append (l r : Text) :
    Nat.ofDigitChars 10 (l ++ r) 0 =
      10 ^ r.length * Nat.ofDigitChars 10 l 0 + Nat.ofDigitChars 10 r 0 := by
  rw [Nat.ofDigitChars_append, Nat.ofDigitChars_eq_ofDigitChars_zero]

theorem toDigits_append {n : Nat} (hn : 0 < n) {s : Text} (hs : Digits s) :
    Nat.toDigits 10 n ++ s = Nat.toDigits 10 (Nat.ofDigitChars 10 s n) := by
  induction s generalizing n with
  | nil => rw [List.append_nil, Nat.ofDigitChars_nil]
  | cons c s ih =>
      obtain ⟨hc, hs⟩ := (digits_cons_iff c s).1 hs
      have hfirst : Nat.toDigits 10 n ++ [c] =
          Nat.toDigits 10 (10 * n + (c.toNat - '0'.toNat)) := by
        rw [← toDigits_digit hc]
        exact Nat.toDigits_append_toDigits (by decide) hn (digit_lt_ten hc)
      rw [Nat.ofDigitChars_cons, ← ih (by omega) hs, ← hfirst, List.append_assoc]
      rfl

theorem dropLeadingZeros_zero_cons (s : Text) :
    dropLeadingZeros ('0' :: s) = dropLeadingZeros s := by
  simp [dropLeadingZeros]

theorem dropLeadingZeros_cons_of_ne {c : Char} (hc : c ≠ '0') (s : Text) :
    dropLeadingZeros (c :: s) = c :: s := by
  simp [dropLeadingZeros, hc]

/-- Digits without the zeros in front are the digits of their number. -/
theorem dropLeadingZeros_eq_toDigits {s : Text} (hs : Digits s) :
    dropLeadingZeros s = Nat.toDigits 10 (Nat.ofDigitChars 10 s 0) := by
  induction s with
  | nil => decide
  | cons c s ih =>
      obtain ⟨hc, hs⟩ := (digits_cons_iff c s).1 hs
      rw [Nat.ofDigitChars_cons, Nat.mul_zero, Nat.zero_add]
      by_cases hzero : c = '0'
      · rw [hzero, dropLeadingZeros_zero_cons, ih hs, Nat.sub_self]
      · rw [dropLeadingZeros_cons_of_ne hzero, ← toDigits_append (digit_pos hc hzero) hs,
          toDigits_digit hc, List.singleton_append]

/-! ### Zeros in front -/

def leadingZeros (s : Text) : Nat := (s.takeWhile (· = '0')).length

theorem leadingZeros_le (s : Text) : leadingZeros s ≤ s.length :=
  (List.takeWhile_prefix _).length_le

theorem replicate_append_dropWhile (s : Text) :
    List.replicate (leadingZeros s) '0' ++ s.dropWhile (· = '0') = s := by
  have hzeros : List.replicate (leadingZeros s) '0' = s.takeWhile (· = '0') :=
    (List.eq_replicate_of_mem fun c hc => by simpa using List.mem_takeWhile_imp hc).symm
  rw [hzeros, List.takeWhile_append_dropWhile]

/-- Zeros in front do not count. -/
theorem ofDigitChars_lt_of_leadingZeros {s : Text} (hs : Digits s) :
    Nat.ofDigitChars 10 s 0 < 10 ^ (s.length - leadingZeros s) := by
  have hsplit := replicate_append_dropWhile s
  have hlength := congrArg List.length hsplit
  rw [List.length_append, List.length_replicate] at hlength
  calc Nat.ofDigitChars 10 s 0 = Nat.ofDigitChars 10 (s.dropWhile (· = '0')) 0 := by
        rw [← hsplit, Nat.ofDigitChars_append, Nat.ofDigitChars_replicate_zero, Nat.mul_zero,
          hsplit]
    _ < 10 ^ (s.dropWhile (· = '0')).length :=
        ofDigitChars_lt fun c hc => hs c (List.dropWhile_subset _ hc)
    _ = 10 ^ (s.length - leadingZeros s) := by
        rw [← hlength, Nat.add_sub_cancel_left]

/-! ### Digits of a fraction -/

theorem leftpad_succ {α : Type} {l : List α} {n : Nat} (h : l.length ≤ n) (a : α) :
    l.leftpad (n + 1) a = a :: l.leftpad n a := by
  rw [List.leftpad, List.leftpad, Nat.succ_sub h, List.replicate_succ, List.cons_append]

theorem length_dropLeadingZeros_le {s : Text} (hne : s ≠ []) :
    (dropLeadingZeros s).length ≤ s.length := by
  have hpos := List.length_pos_iff.2 hne
  have hle := (List.dropWhile_suffix (l := s) fun c => decide (c = '0')).length_le
  unfold dropLeadingZeros
  split
  · exact hpos
  · rename_i h
    rwa [h] at hle

/-- Zeros in front are given back by padding. -/
theorem leftpad_dropLeadingZeros {s : Text} (hne : s ≠ []) :
    (dropLeadingZeros s).leftpad s.length '0' = s := by
  induction s with
  | nil => exact absurd rfl hne
  | cons c s ih =>
      by_cases hzero : c = '0'
      · subst hzero
        rw [dropLeadingZeros_zero_cons]
        cases s with
        | nil => decide
        | cons b s =>
            rw [List.length_cons, leftpad_succ (length_dropLeadingZeros_le (List.cons_ne_nil b s)),
              ih (List.cons_ne_nil b s)]
      · rw [dropLeadingZeros_cons_of_ne hzero, List.leftpad, Nat.sub_self]
        rfl

/-- The digits of a fraction are those it is taken from, less the zeros at the end. -/
theorem fractionDigits_ofDigitChars {f : Text} (hf : Digits f) :
    fractionDigits f.length (Nat.ofDigitChars 10 f 0) = dropTrailingZeros f := by
  cases f with
  | nil => decide
  | cons c f =>
      rw [fractionDigits, ← dropLeadingZeros_eq_toDigits hf,
        leftpad_dropLeadingZeros (List.cons_ne_nil c f)]

/-! ### Plain notation -/

namespace Decimal

/-- Digits with a point among them are written like the decimal they denote. -/
theorem plainText_eq_toPlain (negative : Bool) {whole fraction : Text} (hwhole : Digits whole)
    (hfraction : Digits fraction) :
    plainText negative whole fraction =
      toPlain ⟨negative, digitsValue (whole ++ fraction), -fraction.length⟩ := by
  have hplaces : (⟨negative, digitsValue (whole ++ fraction), -fraction.length⟩ :
      Decimal).places = fraction.length := by
    simp [places]
  have hscaled : (⟨negative, digitsValue (whole ++ fraction), -fraction.length⟩ :
      Decimal).scaled = 10 ^ fraction.length * Nat.ofDigitChars 10 whole 0 +
        Nat.ofDigitChars 10 fraction 0 := by
    simp [scaled, digitsValue_eq, ofDigitChars_append]
  have hlt := ofDigitChars_lt hfraction
  have hpos : 0 < 10 ^ fraction.length := Nat.pow_pos (by decide)
  simp only [toPlain, hplaces, hscaled, Nat.pow_eq, Nat.mul_add_div hpos, Nat.mul_add_mod,
    Nat.div_eq_of_lt hlt, Nat.mod_eq_of_lt hlt, Nat.add_zero,
    fractionDigits_ofDigitChars hfraction, ← dropLeadingZeros_eq_toDigits hwhole, plainText]

/-- A whole number of tens is written like the number that it is. -/
theorem toPlain_mul_pow (negative : Bool) (coefficient n : Nat) :
    toPlain ⟨negative, coefficient * 10 ^ n, 0⟩ = toPlain ⟨negative, coefficient, n⟩ := by
  simp [toPlain, scaled, places]

end Decimal

end QuizFormula

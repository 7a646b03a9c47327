import Mathlib.Data.List.DropRight
import Mathlib.Data.Nat.Digits.Defs
import QuizFormula.Proofs.Meaning.Literal

/-!
# Plain notation

A text in plain notation is a minus sign or none, a whole number without superfluous
zeros in front and, if there are any, a point and digits that do not end with a zero. The
plain notation of a decimal is such a text (`Decimal.isPlain_toPlain`), and it denotes the
decimal (`Literal.value?_toPlain`): the zeros that are dropped stand at the end of the
fraction, where they do not count.
-/

namespace QuizFormula

/-- The text is in plain notation, with the given digits before and after its point. -/
structure IsPlain (negative : Bool) (whole fraction : Text) (t : Text) : Prop where
  text_eq : t = (if negative then ['-'] else []) ++ whole ++
    (if fraction.isEmpty then [] else '.' :: fraction)
  digits_whole : Digits whole
  whole_ne_nil : whole ≠ []
  leading : whole.head? = some '0' → whole = ['0']
  digits_fraction : Digits fraction
  trailing : fraction.getLast? ≠ some '0'

/-- Only digits, a minus sign and a point occur in plain notation. -/
theorem IsPlain.mem {negative : Bool} {whole fraction t : Text}
    (h : IsPlain negative whole fraction t) {c : Char} (hc : c ∈ t) :
    c.isDigit = true ∨ c = '-' ∨ c = '.' := by
  rw [h.text_eq, List.mem_append, List.mem_append] at hc
  rcases hc with (hc | hc) | hc
  · split at hc
    · exact .inr (.inl (List.mem_singleton.1 hc))
    · exact absurd hc List.not_mem_nil
  · exact .inl (h.digits_whole c hc)
  · split at hc
    · exact absurd hc List.not_mem_nil
    · rcases List.mem_cons.1 hc with rfl | hc
      · exact .inr (.inr rfl)
      · exact .inl (h.digits_fraction c hc)

theorem IsPlain.not_mem {negative : Bool} {whole fraction t : Text}
    (h : IsPlain negative whole fraction t) {c : Char} (hdigit : c.isDigit = false)
    (hother : c ∉ ['-', '.']) : c ∉ t := by
  intro hc
  rcases h.mem hc with hc | hc | hc
  · rw [hc] at hdigit
    exact absurd hdigit (by decide)
  · exact hother (by simp [hc])
  · exact hother (by simp [hc])

/-! ### Zeros at either end -/

theorem head?_dropLeadingZeros {s : Text} (h : (dropLeadingZeros s).head? = some '0') :
    dropLeadingZeros s = ['0'] := by
  unfold dropLeadingZeros at h ⊢
  split at h
  · rfl
  · rename_i c t hs
    have hc : c ≠ '0' := by
      have hstop := List.head?_dropWhile_not (fun c => decide (c = '0')) s
      simpa [hs] using hstop
    exact absurd (Option.some.inj h) hc

theorem head?_toDigits {n : Nat} (h : (Nat.toDigits 10 n).head? = some '0') :
    Nat.toDigits 10 n = ['0'] := by
  have hdrop : dropLeadingZeros (Nat.toDigits 10 n) = Nat.toDigits 10 n := by
    rw [dropLeadingZeros_eq_toDigits (digits_toDigits n), Nat.ofDigitChars_ten_toDigits]
  rw [← hdrop] at h ⊢
  exact head?_dropLeadingZeros h

theorem getLast?_dropTrailingZeros (s : Text) : (dropTrailingZeros s).getLast? ≠ some '0' := by
  intro h
  obtain ⟨hne, hlast⟩ := List.mem_getLast?_eq_getLast h
  exact List.rdropWhile_last_not (fun c => decide (c = '0')) s hne (decide_eq_true hlast.symm)

theorem Decimal.isPlain_toPlain (d : Decimal) :
    IsPlain d.negative (Nat.toDigits 10 (d.scaled / Nat.pow 10 d.places))
      (fractionDigits d.places (d.scaled % Nat.pow 10 d.places)) d.toPlain where
  text_eq := rfl
  digits_whole := digits_toDigits _
  whole_ne_nil := Nat.toDigits_ne_nil
  leading := head?_toDigits
  digits_fraction := digits_fractionDigits _ _
  trailing := getLast?_dropTrailingZeros _

/-! ### The value of a fraction -/

/-- The number that digits denote behind a point. -/
def fractionValue (digits : Text) : ℚ := Nat.ofDigitChars 10 digits 0 / 10 ^ digits.length

theorem fractionValue_append_zeros (s : Text) (n : Nat) :
    fractionValue (s ++ List.replicate n '0') = fractionValue s := by
  have hpos : (10 : ℚ) ^ n ≠ 0 := pow_ne_zero n (by norm_num)
  rw [fractionValue, ofDigitChars_append, Nat.ofDigitChars_replicate_zero,
    List.length_append, List.length_replicate, Nat.mul_zero, Nat.add_zero, Nat.cast_mul,
    Nat.cast_pow, Nat.cast_ofNat, pow_add, mul_comm, mul_div_mul_right _ _ hpos, fractionValue]

theorem exists_dropTrailingZeros_append (s : Text) :
    ∃ n, dropTrailingZeros s ++ List.replicate n '0' = s := by
  have hzeros : s.rtakeWhile (fun c => decide (c = '0')) =
      List.replicate (s.rtakeWhile (fun c => decide (c = '0'))).length '0' :=
    List.eq_replicate_of_mem fun c hc => by simpa using List.mem_rtakeWhile_imp hc
  refine ⟨(s.rtakeWhile (fun c => decide (c = '0'))).length, ?_⟩
  rw [← hzeros]
  exact List.rdropWhile_append_rtakeWhile

@[simp] theorem fractionValue_dropTrailingZeros (s : Text) :
    fractionValue (dropTrailingZeros s) = fractionValue s := by
  obtain ⟨n, hn⟩ := exists_dropTrailingZeros_append s
  rw [← fractionValue_append_zeros _ n, hn]

theorem length_dropTrailingZeros_le (s : Text) : (dropTrailingZeros s).length ≤ s.length :=
  (List.rdropWhile_prefix (fun c => decide (c = '0')) s).length_le

theorem fractionValue_leftpad_toDigits {places n : Nat} (h : n < 10 ^ places) :
    fractionValue ((Nat.toDigits 10 n).leftpad places '0') = n / 10 ^ places := by
  rcases Nat.eq_zero_or_pos places with rfl | hplaces
  · have hzero : n = 0 := by simpa using h
    subst hzero
    simp [fractionValue, Nat.toDigits_zero, Nat.ofDigitChars_cons]
  · have hlength : (Nat.toDigits 10 n).length ≤ places := Nat.toDigits_length 10 n places hplaces h
    rw [fractionValue, List.length_leftpad, Nat.max_eq_left hlength, List.leftpad,
      Nat.ofDigitChars_append, Nat.ofDigitChars_replicate_zero, Nat.mul_zero,
      Nat.ofDigitChars_ten_toDigits]

theorem fractionValue_fractionDigits {places n : Nat} (h : n < 10 ^ places) :
    fractionValue (fractionDigits places n) = n / 10 ^ places := by
  rw [fractionDigits, fractionValue_dropTrailingZeros, fractionValue_leftpad_toDigits h]

theorem length_fractionDigits_le {places n : Nat} (h : n < 10 ^ places) :
    (fractionDigits places n).length ≤ places := by
  rcases Nat.eq_zero_or_pos places with rfl | hplaces
  · have hzero : n = 0 := by simpa using h
    subst hzero
    decide
  · have hlength : (Nat.toDigits 10 n).length ≤ places := Nat.toDigits_length 10 n places hplaces h
    have hle := length_dropTrailingZeros_le ((Nat.toDigits 10 n).leftpad places '0')
    rwa [List.length_leftpad, Nat.max_eq_left hlength] at hle

/-! ### The value of a text in plain notation -/

namespace Decimal

/-- The sign of a number as a factor. -/
def signFactor (negative : Bool) : ℚ := if negative then -1 else 1

theorem abs_signFactor (negative : Bool) : |signFactor negative| = 1 := by
  cases negative <;> simp [signFactor]

theorem value_eq (d : Decimal) :
    d.value = signFactor d.negative * (d.scaled / 10 ^ d.places) := by
  have hten : (10 : ℚ) ≠ 0 := by norm_num
  have hexponent : d.exponent = (d.exponent.toNat : Int) - d.places := by
    rw [places]
    omega
  have hpower : (10 : ℚ) ^ d.exponent = 10 ^ d.exponent.toNat / 10 ^ d.places := by
    rw [← zpow_natCast, ← zpow_natCast, ← zpow_sub₀ hten, ← hexponent]
  rw [value, signFactor, hpower, scaled, Nat.pow_eq, Nat.cast_mul, Nat.cast_pow, Nat.cast_ofNat,
    mul_div_assoc]

theorem value_plainNumeral (d : Decimal) : d.plainNumeral.value = d.value := by
  set whole := d.scaled / Nat.pow 10 d.places with hwhole
  set rest := d.scaled % Nat.pow 10 d.places with hrest
  have hpos : 0 < Nat.pow 10 d.places := Nat.pow_pos (by decide)
  have hsign : decide (d.plainNumeral.sign = some Sign.minus) = d.negative := by
    cases h : d.negative <;> simp [plainNumeral, h]
  have hfraction : d.plainNumeral.fraction.getD [] = fractionDigits d.places rest := by
    simp only [plainNumeral]
    split
    · rename_i hempty
      exact (List.isEmpty_iff.1 hempty).symm
    · rfl
  have hten : (10 : ℚ) ^ (fractionDigits d.places rest).length ≠ 0 :=
    pow_ne_zero _ (by norm_num)
  have hsplit : (d.scaled : ℚ) = whole * 10 ^ d.places + rest := by
    rw [hwhole, hrest]
    exact_mod_cast (Nat.div_add_mod' d.scaled (Nat.pow 10 d.places)).symm
  have hvalue : fractionValue (fractionDigits d.places rest) = rest / 10 ^ d.places :=
    fractionValue_fractionDigits (Nat.mod_lt d.scaled hpos)
  rw [fractionValue] at hvalue
  rw [value_eq, Numeral.value, value, Numeral.toDecimal, hsign, Numeral.digits, hfraction,
    digitsValue_eq, ofDigitChars_append]
  simp only [plainNumeral, ← hwhole, Nat.ofDigitChars_ten_toDigits, signFactor, Option.map_none,
    Option.getD_none, zero_sub, zpow_neg, zpow_natCast, Nat.cast_add, Nat.cast_mul,
    Nat.cast_pow, Nat.cast_ofNat]
  congr 1
  rw [← div_eq_mul_inv, add_div, mul_div_cancel_left₀ _ hten, hvalue, hsplit, add_div,
    mul_div_cancel_right₀ _ (pow_ne_zero _ (by norm_num))]

end Decimal

/-- A decimal in plain notation denotes the decimal. -/
theorem Literal.value?_toPlain (d : Decimal) : value? d.toPlain = some d.value := by
  have hread := Numeral.ofText?_text d.wellFormed_plainNumeral Nat.toDigits_ne_nil
  rw [d.text_plainNumeral] at hread
  rw [value?, hread, Option.map_some, d.value_plainNumeral]

end QuizFormula

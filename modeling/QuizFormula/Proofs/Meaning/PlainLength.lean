import QuizFormula.Proofs.Meaning.Beyond

/-!
# How long a literal becomes

A numeral that is written out without its exponent loses the zeros in front of its digits
and those behind them: up to its point there are as many digits as the point is away from
the first digit that is not zero, or one, and after it those that are left of the digits
(`Literal.length_whole`, `Literal.length_fraction`). The guard of an expansion only looks
at the position of the point. It bounds what is written as long as the numeral itself has
few digits, and it refuses too much only if the numeral starts with superfluous zeros
(`Literal.normalize_infinite_length`).
-/

namespace QuizFormula

/-! ### Zeros in front -/

theorem leadingZeros_take (s : Text) (n : Nat) :
    leadingZeros (s.take n) = min n (leadingZeros s) := by
  rw [leadingZeros, ← List.take_takeWhile, List.length_take, leadingZeros]

theorem leadingZeros_eq_zero {s : Text} (h : s.head? ≠ some '0') : leadingZeros s = 0 := by
  cases s with
  | nil => rfl
  | cons c s =>
      have hc : c ≠ '0' := fun hc => h (by rw [hc, List.head?_cons])
      simp [leadingZeros, hc]

theorem length_dropLeadingZeros (s : Text) :
    (dropLeadingZeros s).length = max 1 (s.length - leadingZeros s) := by
  have hlength := congrArg List.length (replicate_append_dropWhile s)
  rw [List.length_append, List.length_replicate] at hlength
  unfold dropLeadingZeros
  split
  · rename_i h
    rw [h, List.length_nil] at hlength
    rw [List.length_singleton]
    omega
  · rename_i c t h
    rw [h, List.length_cons] at hlength
    rw [List.length_cons]
    omega

/-! ### Zeros behind -/

theorem dropTrailingZeros_ne_nil {s : Text} (h : ∃ c ∈ s, c ≠ '0') :
    dropTrailingZeros s ≠ [] := by
  intro hnil
  obtain ⟨n, hn⟩ := exists_dropTrailingZeros_append s
  obtain ⟨c, hc, hne⟩ := h
  rw [← hn, hnil, List.nil_append] at hc
  exact hne (List.eq_of_mem_replicate hc)

/-- Zeros at the end are dropped from the last part that is not made of zeros. -/
theorem dropTrailingZeros_append (l : Text) {r : Text} (h : ∃ c ∈ r, c ≠ '0') :
    dropTrailingZeros (l ++ r) = l ++ dropTrailingZeros r := by
  have hne : (r.reverse.dropWhile (· = '0')).isEmpty = false := by
    rw [← List.isEmpty_reverse]
    exact List.isEmpty_eq_false_iff.2 (dropTrailingZeros_ne_nil h)
  rw [dropTrailingZeros, List.reverse_append, List.dropWhile_append, hne, if_neg (by decide),
    List.reverse_append, List.reverse_reverse, dropTrailingZeros]

theorem dropTrailingZeros_eq_self {s : Text} (h : s.getLast? ≠ some '0') :
    dropTrailingZeros s = s := by
  refine List.rdropWhile_eq_self_iff.2 fun hne hlast => h ?_
  rw [List.getLast?_eq_getLast_of_ne_nil hne, of_decide_eq_true hlast]

theorem dropTrailingZeros_drop (s : Text) (n : Nat) :
    dropTrailingZeros (s.drop n) = (dropTrailingZeros s).drop n := by
  obtain ⟨k, hk⟩ := exists_dropTrailingZeros_append s
  have hlast := getLast?_dropTrailingZeros s
  have hkept : ((dropTrailingZeros s).drop n).getLast? ≠ some '0' := by
    rw [List.getLast?_drop]
    split
    · exact fun h => by cases h
    · exact hlast
  calc dropTrailingZeros (s.drop n)
      = dropTrailingZeros ((dropTrailingZeros s).drop n ++
          List.replicate (k - (n - (dropTrailingZeros s).length)) '0') := by
        rw [← List.drop_replicate, ← List.drop_append, hk]
    _ = (dropTrailingZeros s).drop n := by
        rw [dropTrailingZeros_append_zeros, dropTrailingZeros_eq_self hkept]

/-- A digit other than zero stands between the zeros at both ends. -/
theorem leadingZeros_lt {s : Text} (h : ∃ c ∈ s, c ≠ '0') :
    leadingZeros s < (dropTrailingZeros s).length := by
  have hsplit := replicate_append_dropWhile s
  have hrest : ∃ c ∈ s.dropWhile (· = '0'), c ≠ '0' := by
    obtain ⟨c, hc, hne⟩ := h
    rw [← hsplit, List.mem_append] at hc
    exact ⟨c, hc.resolve_left fun hc => hne (List.eq_of_mem_replicate hc), hne⟩
  have hdrop := dropTrailingZeros_append (List.replicate (leadingZeros s) '0') hrest
  rw [hsplit] at hdrop
  have hpos := List.length_pos_iff.2 (dropTrailingZeros_ne_nil hrest)
  rw [hdrop, List.length_append, List.length_replicate]
  omega

/-! ### The length of plain notation -/

/-- Digits with a point among them, without superfluous zeros, are in plain notation. -/
theorem Decimal.isPlain_plainText (negative : Bool) {whole fraction : Text}
    (hwhole : Digits whole) (hfraction : Digits fraction) :
    IsPlain negative (dropLeadingZeros whole) (dropTrailingZeros fraction)
      (plainText negative whole fraction) where
  text_eq := rfl
  digits_whole := by
    rw [dropLeadingZeros_eq_toDigits hwhole]
    exact digits_toDigits _
  whole_ne_nil := by
    rw [dropLeadingZeros_eq_toDigits hwhole]
    exact Nat.toDigits_ne_nil
  leading := head?_dropLeadingZeros
  digits_fraction c hc := hfraction c ((List.rdropWhile_prefix _ fraction).subset hc)
  trailing := getLast?_dropTrailingZeros fraction

theorem Decimal.pow_le_scaled {d : Decimal} {k : Nat} (hne : 0 < d.coefficient)
    (hk : k ≤ d.exponent) : 10 ^ (k + d.places) ≤ d.scaled := by
  have hplaces : k + d.places ≤ d.exponent.toNat := by
    rw [places]
    omega
  exact Nat.le_trans (Nat.pow_le_pow_right (by decide) hplaces) (Nat.le_mul_of_pos_left _ hne)

namespace Literal

section Split

variable {digits : Text} (hdigits : ∃ c ∈ digits, c ≠ '0') (point : Int)

include hdigits

theorem length_whole :
    (dropLeadingZeros (splitAtPoint digits point).1).length =
      max 1 (point - leadingZeros digits).toNat := by
  have hlt := leadingZeros_lt hdigits
  have hle := length_dropTrailingZeros_le digits
  rw [length_dropLeadingZeros]
  unfold splitAtPoint
  split
  · have hzero : leadingZeros ['0'] = 1 := by decide
    rw [hzero, List.length_singleton]
    omega
  · have hzeros : leadingZeros (digits.take point.toNat ++
        List.replicate (point.toNat - digits.length) '0') =
          min point.toNat (leadingZeros digits) := by
      rcases Nat.le_total point.toNat digits.length with h | h
      · rw [Nat.sub_eq_zero_of_le h, List.replicate_zero, List.append_nil, leadingZeros_take]
      · rw [List.take_of_length_le h, leadingZeros, List.takeWhile_append,
          if_neg (by rw [← leadingZeros]; omega), ← leadingZeros]
        omega
    simp only [hzeros, List.length_append, List.length_take, List.length_replicate]
    omega

theorem length_fraction :
    (dropTrailingZeros (splitAtPoint digits point).2).length =
      ((dropTrailingZeros digits).length - point).toNat := by
  unfold splitAtPoint
  split
  · rw [dropTrailingZeros_append _ hdigits, List.length_append, List.length_replicate]
    omega
  · rw [dropTrailingZeros_drop, List.length_drop]
    omega

end Split

end Literal

/-! ### Where the point of an infinite number stands -/

namespace Exponent

theorem ofDigitChars_mono (s : Text) {n m : Nat} (h : n ≤ m) :
    Nat.ofDigitChars 10 s n ≤ Nat.ofDigitChars 10 s m := by
  rw [@Nat.ofDigitChars_eq_ofDigitChars_zero s n, @Nat.ofDigitChars_eq_ofDigitChars_zero s m]
  exact Nat.add_le_add_right (Nat.mul_le_mul_left _ h) _

/-- Digits all count, or the ceiling is reached and some are left out. -/
theorem foldl_digits_eq_or (s : Text) (n : Nat) :
    s.foldl (fun n c => if n < ceiling then 10 * n + (c.toNat - '0'.toNat) else n) n =
        Nat.ofDigitChars 10 s n ∨
      ceiling ≤ s.foldl
          (fun n c => if n < ceiling then 10 * n + (c.toNat - '0'.toNat) else n) n ∧
        s.foldl (fun n c => if n < ceiling then 10 * n + (c.toNat - '0'.toNat) else n) n ≤
          Nat.ofDigitChars 10 s n := by
  induction s generalizing n with
  | nil => exact .inl rfl
  | cons c s ih =>
      rw [List.foldl_cons, Nat.ofDigitChars_cons]
      split
      · exact ih _
      · rename_i hceiling
        have hle := le_ofDigitChars s n
        have hmono := ofDigitChars_mono s (n := n) (m := 10 * n + (c.toNat - '0'.toNat))
          (by omega)
        rcases ih n with h | h <;> omega

/-- What is read of an exponent is not more than the exponent, unless it is far below
zero. -/
theorem saturated_le (e : Exponent) : e.saturated ≤ e.value ∨ e.saturated ≤ -ceiling := by
  rw [saturated, value, signed, signed]
  have h := foldl_digits_eq_or e.digits 0
  split <;> omega

end Exponent

/-- Where a numeral without very many digits reads as infinite, its point stands behind a
digit other than zero. -/
theorem Numeral.leadingZeros_lt_point {n : Numeral} (hn : n.WellFormed) {e : Exponent}
    (he : n.exponent = some e) {negative : Bool}
    (hinf : Binary64.ofNumeral n = .infinite negative)
    (hlength : n.digits.length ≤ Exponent.ceiling) :
    leadingZeros n.digits < n.whole.length + e.value := by
  by_contra hpoint
  have hwhole : n.whole.length ≤ n.digits.length := by
    rw [digits, List.length_append]
    omega
  have hread : n.whole.length + e.saturated ≤ leadingZeros n.digits := by
    rcases e.saturated_le with h | h <;> omega
  rw [Binary64.ofNumeral, he, Option.map_some, Option.getD_some, Binary64.ofDecimal] at hinf
  have hgt := Binary64.lt_of_ofRatio_eq_infinite (Nat.pow_pos (by decide)) hinf
  exact Nat.lt_asymm hgt (Numeral.scaled_lt_of_point_le hn hread)

/-- Not all digits of a numeral that reads as infinite are zeros. -/
theorem Numeral.exists_ne_zero {n : Numeral} {negative : Bool}
    (hinf : Binary64.ofNumeral n = .infinite negative) : ∃ c ∈ n.digits, c ≠ '0' := by
  by_contra hzeros
  push Not at hzeros
  have hvalue : digitsValue n.digits = 0 := by
    rw [digitsValue_eq, List.eq_replicate_of_mem hzeros, Nat.ofDigitChars_replicate_zero,
      Nat.mul_zero]
  rw [Binary64.ofNumeral, Binary64.ofDecimal] at hinf
  have hgt := Binary64.lt_of_ofRatio_eq_infinite (Nat.pow_pos (by decide)) hinf
  rw [toDecimal, Decimal.scaled, hvalue, Nat.zero_mul] at hgt
  exact Nat.not_lt_zero _ hgt

namespace Literal

/-- The digits that are written for a numeral with its exponent. -/
theorem isPlain_toPlain_toDecimal {n : Numeral} (hn : n.WellFormed) (e : Int) :
    IsPlain (n.sign = some .minus)
      (dropLeadingZeros (splitAtPoint n.digits (n.whole.length + e)).1)
      (dropTrailingZeros (splitAtPoint n.digits (n.whole.length + e)).2)
      (n.toDecimal e).toPlain := by
  obtain ⟨hwhole, hfraction⟩ := digits_splitAtPoint hn.digits_digits (n.whole.length + e)
  rw [← plainText_splitAtPoint_digits hn]
  exact Decimal.isPlain_plainText _ hwhole hfraction

/-- What is returned for a literal that reads as infinite. -/
theorem normalize_of_infinite (o : Options) {l : Text} {n : Numeral} {e : Exponent}
    (hn : Numeral.ofText? l = some n) (he : n.exponent = some e) {negative : Bool}
    (hinf : Binary64.ofNumeral n = .infinite negative) :
    (normalize o l).1 =
      if -2 ^ 63 ≤ e.value ∧ e.value < 2 ^ 63 ∧ (n.whole.length + e.value).natAbs ≤ 1024 then
        (n.toDecimal e.value).toPlain
      else l := by
  rw [normalize, text_of_exponent_eq_some _ hn he, hinf]
  simp only [writtenOut, expanded?_eq (Numeral.wellFormed_of_ofText? hn), fitsWord_iff,
    and_assoc, maxExpandedDigits]
  split <;> rfl

/-- A literal with an exponent that reads as infinite denotes what a text in plain notation
denotes, which has as many digits before its point as stand there without the zeros in
front, and as many after it as stand there without the zeros behind. The literal is written
as this text if its exponent fits a machine word and the point stands at most 1024 places
from the start of its digits, and is kept otherwise. So what is written has at most 1024
digits if the literal itself has no more, apart from its exponent; and a literal that does
not start with a zero is only kept if its exponent does not fit or there would be more than
1024 digits. -/
theorem normalize_infinite_length (o : Options) {l : Text} {negative : Bool}
    (hread : Binary64.ofText? l = some (.infinite negative)) (hmark : 'e' ∈ l ∨ 'E' ∈ l) :
    ∃ n e whole fraction t, Numeral.ofText? l = some n ∧ n.exponent = some e ∧
      IsPlain negative whole fraction t ∧
      (∃ q, value? l = some q ∧ value? t = some q) ∧
      whole.length = max 1 (n.whole.length + e.value - leadingZeros n.digits).toNat ∧
      fraction.length =
        ((dropTrailingZeros n.digits).length - (n.whole.length + e.value)).toNat ∧
      (normalize o l).1 =
        (if -2 ^ 63 ≤ e.value ∧ e.value < 2 ^ 63 ∧
          (n.whole.length + e.value).natAbs ≤ 1024 then t else l) ∧
      ((normalize o l).1 = t → n.digits.length ≤ 1024 →
        whole.length + fraction.length ≤ 1024) ∧
      ((normalize o l).1 = l → n.digits.head? ≠ some '0' →
        ¬ (-2 ^ 63 ≤ e.value ∧ e.value < 2 ^ 63) ∨
          1024 < whole.length + fraction.length) := by
  obtain ⟨n, e, hn, he, hinf⟩ := exists_numeral hread hmark
  have hwf := Numeral.wellFormed_of_ofText? hn
  have hnonzero := Numeral.exists_ne_zero hinf
  have hzeros := leadingZeros_lt hnonzero
  have hdropped := length_dropTrailingZeros_le n.digits
  have hplain := isPlain_toPlain_toDecimal hwf e.value
  rw [Binary64.negative_of_ofNumeral hinf] at hplain
  have hlengthWhole := length_whole hnonzero (n.whole.length + e.value)
  have hlengthFraction := length_fraction hnonzero (n.whole.length + e.value)
  have hvalue : value? (n.toDecimal e.value).toPlain = some n.value := by
    rw [value?_toPlain, Numeral.value_of_exponent he]
  have hnormalize := normalize_of_infinite o hn he hinf
  generalize (n.toDecimal e.value).toPlain = t at hplain hvalue hnormalize
  have hne : t ≠ l := by
    rintro rfl
    rcases hmark with h | h
    · exact hplain.not_mem (by decide) (by decide) h
    · exact hplain.not_mem (by decide) (by decide) h
  refine ⟨n, e, _, _, t, hn, he, hplain, ⟨n.value, by rw [value?, hn, Option.map_some], hvalue⟩,
    hlengthWhole, hlengthFraction, hnormalize, ?_, ?_⟩
  · intro hexpanded hlength
    have hpoint := Numeral.leadingZeros_lt_point hwf he hinf (hlength.trans (by decide))
    rw [hnormalize] at hexpanded
    split at hexpanded
    · omega
    · exact absurd hexpanded.symm hne
  · intro hkept hhead
    have hnone := leadingZeros_eq_zero hhead
    rw [hnormalize] at hkept
    split at hkept
    · exact absurd hkept hne
    · omega

/-- Neither the zeros in front of the digits are written nor the one behind them. -/
theorem normalize_infinite_length_zeros :
    Binary64.ofText? "007.50e400".toList = some (.infinite false) ∧
      ∃ whole fraction, IsPlain false whole fraction
          (normalize .default "007.50e400".toList).1 ∧
        whole.length = 401 ∧ fraction.length = 0 := by
  have hread : Binary64.ofText? "007.50e400".toList = some (.infinite false) := by decide +kernel
  have hnumeral : Numeral.ofText? "007.50e400".toList =
      some ⟨none, "007".toList, some "50".toList, some ⟨'e', none, "400".toList⟩⟩ := by
    decide +kernel
  obtain ⟨n, e, whole, fraction, t, hn, he, hplain, -, hwhole, hfraction, htext, -⟩ :=
    normalize_infinite_length .default hread (.inl (by decide))
  rw [hnumeral, Option.some.injEq] at hn
  subst hn
  cases he
  rw [if_pos (by decide +kernel)] at htext
  exact ⟨hread, whole, fraction, htext ▸ hplain, hwhole.trans (by decide +kernel),
    hfraction.trans (by decide +kernel)⟩

/-! ### Where the bound is missed -/

/-- The exponent `e400`. -/
def exponent400 : Exponent := ⟨'e', none, "400".toList⟩

theorem wellFormed_exponent400 : exponent400.WellFormed :=
  ⟨.inl rfl, List.all_eq_true.1 (by decide), by decide⟩

theorem value_exponent400 : exponent400.value = 400 := rfl

/-- A numeral with this exponent that is no less than `10 ^ 309` reads as infinite. -/
theorem ofNumeral_exponent400 {n : Numeral} (he : n.exponent = some exponent400)
    (h : 10 ^ (309 + (n.toDecimal 400).places) ≤ (n.toDecimal 400).scaled) :
    Binary64.ofNumeral n = .infinite (n.sign = some .minus) := by
  rw [Binary64.ofNumeral_eq he (by rw [value_exponent400]; decide), value_exponent400]
  exact Binary64.ofDecimal_eq_infinite h

/-- The numeral `1.11…1e400`, with so many digits after its point. -/
def manyOnes (k : Nat) : Numeral := ⟨none, ['1'], some (List.replicate k '1'), some exponent400⟩

theorem text_manyOnes (k : Nat) :
    (manyOnes k).text = '1' :: '.' :: (List.replicate k '1' ++ "e400".toList) := rfl

theorem wellFormed_manyOnes (k : Nat) : (manyOnes k).WellFormed where
  whole := (digits_cons_iff _ _).2 ⟨by decide, by simp [Digits]⟩
  fraction f hf c hc := by
    cases hf
    rw [List.eq_of_mem_replicate hc]
    decide
  exponent x hx := Option.some.inj hx ▸ wellFormed_exponent400

theorem digits_manyOnes (k : Nat) : (manyOnes k).digits = List.replicate (k + 1) '1' := rfl

theorem ofNumeral_manyOnes {k : Nat} (hk : 400 ≤ k) :
    Binary64.ofNumeral (manyOnes k) = .infinite false := by
  have hplaces : ((manyOnes k).toDecimal 400).places = k - 400 := by
    simp only [Numeral.toDecimal, Decimal.places, manyOnes, Option.getD_some,
      List.length_replicate]
    omega
  have hvalue : 10 ^ k ≤ digitsValue (List.replicate (k + 1) '1') := by
    rw [digitsValue_eq, List.replicate_succ, Nat.ofDigitChars_cons,
      Nat.ofDigitChars_eq_ofDigitChars_zero, List.length_replicate]
    exact Nat.le_trans (Nat.le_mul_of_pos_right _ (by decide)) (Nat.le_add_right _ _)
  refine ofNumeral_exponent400 rfl ?_
  calc 10 ^ (309 + ((manyOnes k).toDecimal 400).places)
      ≤ 10 ^ k := Nat.pow_le_pow_right (by decide) (by omega)
    _ ≤ digitsValue (manyOnes k).digits := hvalue
    _ ≤ ((manyOnes k).toDecimal 400).scaled :=
        Nat.le_mul_of_pos_right _ (Nat.pow_pos (by decide))

/-- All digits after the point are written, however many they are. -/
theorem normalize_manyOnes (o : Options) {k : Nat} (hk : 400 ≤ k) :
    ∃ whole fraction, IsPlain false whole fraction (normalize o (manyOnes k).text).1 ∧
      whole.length + fraction.length = k + 1 := by
  have hn : Numeral.ofText? (manyOnes k).text = some (manyOnes k) :=
    Numeral.ofText?_text (wellFormed_manyOnes k) (List.cons_ne_nil _ _)
  have hinf := ofNumeral_manyOnes hk
  have hpoint : ((manyOnes k).whole.length : Int) + exponent400.value = 401 := by
    rw [value_exponent400]
    rfl
  have hhead : (List.replicate (k + 1) '1').head? ≠ some '0' := by
    rw [List.replicate_succ, List.head?_cons]
    decide
  have hlast : (List.replicate (k + 1) '1').getLast? ≠ some '0' := by
    rw [List.getLast?_replicate, if_neg (Nat.succ_ne_zero k)]
    decide
  have hplain := isPlain_toPlain_toDecimal (wellFormed_manyOnes k) exponent400.value
  have hwhole := length_whole (Numeral.exists_ne_zero hinf) 401
  have hfraction := length_fraction (Numeral.exists_ne_zero hinf) 401
  rw [digits_manyOnes, leadingZeros_eq_zero hhead] at hwhole
  rw [digits_manyOnes, dropTrailingZeros_eq_self hlast, List.length_replicate] at hfraction
  have hfits : -2 ^ 63 ≤ exponent400.value ∧ exponent400.value < 2 ^ 63 ∧
      (((manyOnes k).whole.length : Int) + exponent400.value).natAbs ≤ 1024 := by
    rw [hpoint, value_exponent400]
    decide
  rw [normalize_of_infinite o hn rfl hinf, if_pos hfits]
  rw [hpoint] at hplain
  refine ⟨_, _, hplain, ?_⟩
  rw [digits_manyOnes, hwhole, hfraction]
  omega

/-- The numeral `00…01e400`, with so many zeros in front. -/
def manyZeros (k : Nat) : Numeral :=
  ⟨none, List.replicate k '0' ++ ['1'], none, some exponent400⟩

theorem text_manyZeros (k : Nat) :
    (manyZeros k).text = List.replicate k '0' ++ "1e400".toList := by
  simp only [Numeral.text, manyZeros, signText, fractionText, exponentText, List.nil_append,
    List.append_nil, List.append_assoc]
  rfl

theorem wellFormed_manyZeros (k : Nat) : (manyZeros k).WellFormed where
  whole := digits_append (digits_replicate_zero k)
    ((digits_cons_iff _ _).2 ⟨by decide, by simp [Digits]⟩)
  fraction f hf := by cases hf
  exponent x hx := Option.some.inj hx ▸ wellFormed_exponent400

theorem toDecimal_manyZeros (k : Nat) : (manyZeros k).toDecimal 400 = ⟨false, 1, 400⟩ := by
  have hvalue : digitsValue (List.replicate k '0' ++ ['1']) = 1 := by
    rw [digitsValue_eq, Nat.ofDigitChars_append, Nat.ofDigitChars_replicate_zero, Nat.mul_zero]
    decide
  simp [Numeral.toDecimal, manyZeros, Numeral.digits, hvalue]

theorem ofNumeral_manyZeros (k : Nat) :
    Binary64.ofNumeral (manyZeros k) = .infinite false := by
  refine ofNumeral_exponent400 rfl ?_
  rw [toDecimal_manyZeros]
  exact Decimal.pow_le_scaled (by decide) (by decide)

/-- With so many zeros in front `10 ^ 400` is not written out. -/
theorem normalize_manyZeros (o : Options) {k : Nat} (hk : 624 ≤ k) :
    (normalize o (manyZeros k).text).1 = (manyZeros k).text := by
  have hn : Numeral.ofText? (manyZeros k).text = some (manyZeros k) :=
    Numeral.ofText?_text (wellFormed_manyZeros k) (by simp [manyZeros])
  rw [normalize_of_infinite o hn rfl (ofNumeral_manyZeros k), if_neg]
  rw [value_exponent400]
  simp only [manyZeros, List.length_append, List.length_replicate, List.length_singleton]
  omega

theorem value?_manyZeros (k : Nat) : value? (manyZeros k).text = some (10 ^ 400) := by
  have hn : Numeral.ofText? (manyZeros k).text = some (manyZeros k) :=
    Numeral.ofText?_text (wellFormed_manyZeros k) (by simp [manyZeros])
  rw [value?, hn, Option.map_some, Numeral.value_of_exponent rfl, value_exponent400,
    toDecimal_manyZeros, Decimal.value]
  norm_num

theorem isPlain_pow_ten (k : Nat) :
    IsPlain false ('1' :: List.replicate k '0') [] ('1' :: List.replicate k '0') where
  text_eq := by simp
  digits_whole := (digits_cons_iff _ _).2 ⟨by decide, digits_replicate_zero k⟩
  whole_ne_nil := List.cons_ne_nil _ _
  leading h := by simp at h
  digits_fraction c hc := by cases hc
  trailing := by simp

theorem value?_pow_ten (k : Nat) : value? ('1' :: List.replicate k '0') = some (10 ^ k) := by
  have hdigits : '1' :: List.replicate k '0' = Nat.toDigits 10 (10 ^ k) := by
    have happend := toDigits_append Nat.one_pos (digits_replicate_zero k)
    rwa [Nat.ofDigitChars_replicate_zero, Nat.mul_one] at happend
  rw [hdigits, value?_toDigits, Nat.cast_pow, Nat.cast_ofNat]

/-- Two literals for which the position of the point does not decide how long they become.
The first has its point near the start of its digits and is written with more than 1024 of
them. The second has many zeros in front of its only other digit, and is kept although the
number that it denotes is written with 401 digits. -/
theorem length_missed :
    (∃ l : Text, l = '1' :: '.' :: (List.replicate 1024 '1' ++ "e400".toList) ∧
      Binary64.ofText? l = some (.infinite false) ∧
      ∃ whole fraction, IsPlain false whole fraction (normalize .default l).1 ∧
        whole.length + fraction.length = 1025) ∧
    ∃ l : Text, l = List.replicate 624 '0' ++ "1e400".toList ∧
      Binary64.ofText? l = some (.infinite false) ∧ (normalize .default l).1 = l ∧
      (∃ n, Numeral.ofText? l = some n ∧ n.exponent.map Exponent.value = some 400) ∧
      ∃ whole t, IsPlain false whole [] t ∧ whole.length = 401 ∧
        ∃ q, value? l = some q ∧ value? t = some q := by
  constructor
  · have hn : Numeral.ofText? (manyOnes 1024).text = some (manyOnes 1024) :=
      Numeral.ofText?_text (wellFormed_manyOnes 1024) (List.cons_ne_nil _ _)
    have hk : 400 ≤ 1024 := by decide
    have hlength := normalize_manyOnes .default hk
    refine ⟨(manyOnes 1024).text, text_manyOnes 1024, ?_, hlength⟩
    rw [Binary64.ofText?_eq_ofNumeral hn, ofNumeral_manyOnes hk]
  · have hn : Numeral.ofText? (manyZeros 624).text = some (manyZeros 624) :=
      Numeral.ofText?_text (wellFormed_manyZeros 624) (List.concat_ne_nil _ _)
    have hkept := normalize_manyZeros .default (Nat.le_refl 624)
    refine ⟨(manyZeros 624).text, text_manyZeros 624, ?_, hkept,
      ⟨manyZeros 624, hn, congrArg some value_exponent400⟩, _, _, isPlain_pow_ten 400, ?_,
      10 ^ 400, value?_manyZeros 624, value?_pow_ten 400⟩
    · rw [Binary64.ofText?_eq_ofNumeral hn, ofNumeral_manyZeros]
    · rw [List.length_cons, List.length_replicate]

end Literal

end QuizFormula

import QuizFormula.Proofs.Meaning.Fixed
import QuizFormula.Proofs.Meaning.Nearness

/-!
# Literals beyond the finite numbers

A literal with an exponent that reads as infinite is written out by moving its point, and
denotes the same number then; if the point would have to be moved too far, it is kept
(`Literal.normalize_infinite`). A number below one does not read as infinite, so the point
stands behind a digit then. Only an exponent that is not read in full makes an exception:
a number can read as infinite whose exponent brings it back below one
(`Literal.normalize_infinite_below_one`).
-/

namespace QuizFormula

/-! ### The position of the point -/

/-- A decimal whose point stands in front of all its digits other than zero is less than
one. -/
theorem Numeral.scaled_lt_of_point_le {n : Numeral} (hn : n.WellFormed) {x : Int}
    (h : n.whole.length + x ≤ leadingZeros n.digits) :
    (n.toDecimal x).scaled < Nat.pow 10 (n.toDecimal x).places := by
  have hle := leadingZeros_le n.digits
  have hlength : n.digits.length = n.whole.length + (n.fraction.getD []).length := by
    rw [digits, List.length_append]
  have hexponent : (x - ((n.fraction.getD []).length : Int)).toNat = 0 := by omega
  have hplaces : n.digits.length - leadingZeros n.digits ≤
      (-(x - ((n.fraction.getD []).length : Int))).toNat := by omega
  calc (n.toDecimal x).scaled = Nat.ofDigitChars 10 n.digits 0 := by
        rw [toDecimal, Decimal.scaled, hexponent, Nat.pow_eq, Nat.pow_zero, Nat.mul_one,
          digitsValue_eq]
    _ < 10 ^ (n.digits.length - leadingZeros n.digits) :=
        ofDigitChars_lt_of_leadingZeros hn.digits_digits
    _ ≤ 10 ^ (n.toDecimal x).places := Nat.pow_le_pow_right (by decide) hplaces

/-- Where a numeral reads as infinite its point stands behind a digit, unless its exponent
has more digits than are read. -/
theorem Numeral.point_pos {n : Numeral} (hn : n.WellFormed) {e : Exponent}
    (he : n.exponent = some e) {negative : Bool}
    (hinf : Binary64.ofNumeral n = .infinite negative) (hlarge : -655360 < e.value) :
    0 < n.whole.length + e.value := by
  by_contra hpoint
  have hmagnitude : e.value.natAbs < 10 * Exponent.ceiling := by
    rw [Exponent.ceiling]
    omega
  rw [Binary64.ofNumeral_eq he hmagnitude, Binary64.ofDecimal] at hinf
  have hgt := Binary64.lt_of_ofRatio_eq_infinite (Nat.pow_pos (by decide)) hinf
  exact Nat.lt_asymm hgt (Numeral.scaled_lt_of_point_le hn (by omega))

/-! ### Expansion -/

theorem fitsWord_iff (e : Int) : Literal.fitsWord e = true ↔ -2 ^ 63 ≤ e ∧ e < 2 ^ 63 := by
  rw [Literal.fitsWord, Bool.and_eq_true, decide_eq_true_iff, decide_eq_true_iff]
  exact Iff.rfl

theorem Binary64.negative_of_ofNumeral {n : Numeral} {negative : Bool}
    (h : ofNumeral n = .infinite negative) : decide (n.sign = some .minus) = negative := by
  rw [ofNumeral, ofDecimal, ofRatio] at h
  split at h
  · cases h
  · cases h
    rfl

/-- A literal with an exponent that reads as infinite is written in plain notation, with
its sign and its value, as long as its point need not be moved far; then the point stands
behind a digit, unless the exponent has more digits than are read. Any other literal that
reads as infinite is kept. -/
theorem Literal.normalize_infinite (o : Options) {l : Text} {negative : Bool}
    (hread : Binary64.ofText? l = some (.infinite negative)) (hmark : 'e' ∈ l ∨ 'E' ∈ l) :
    ∃ n e, Numeral.ofText? l = some n ∧ n.exponent = some e ∧
      (-2 ^ 63 ≤ e.value ∧ e.value < 2 ^ 63 ∧ (n.whole.length + e.value).natAbs ≤ 1024 →
        (∃ whole fraction, IsPlain negative whole fraction (normalize o l).1) ∧
        'e' ∉ (normalize o l).1 ∧ 'E' ∉ (normalize o l).1 ∧ '+' ∉ (normalize o l).1 ∧
        (∃ q, value? l = some q ∧ value? (normalize o l).1 = some q) ∧
        (-655360 < e.value → 0 < n.whole.length + e.value)) ∧
      (¬ (-2 ^ 63 ≤ e.value ∧ e.value < 2 ^ 63 ∧
          (n.whole.length + e.value).natAbs ≤ 1024) →
        (normalize o l).1 = l) := by
  obtain ⟨n, e, hn, he, hinf⟩ := exists_numeral hread hmark
  have hwf := Numeral.wellFormed_of_ofText? hn
  have htext : (normalize o l).1 = (expanded? n e.value).getD l := by
    rw [normalize, text_of_exponent_eq_some _ hn he, hinf, writtenOut]
    simp
  have hfits : (fitsWord e.value ∧ (n.whole.length + e.value).natAbs ≤ maxExpandedDigits) ↔
      -2 ^ 63 ≤ e.value ∧ e.value < 2 ^ 63 ∧ (n.whole.length + e.value).natAbs ≤ 1024 := by
    rw [fitsWord_iff, and_assoc, maxExpandedDigits]
  rw [htext, expanded?_eq hwf]
  refine ⟨n, e, hn, he, ?_, ?_⟩
  · intro h
    rw [if_pos (hfits.2 h), Option.getD_some]
    have hplain := (n.toDecimal e.value).isPlain_toPlain
    rw [show (n.toDecimal e.value).negative = negative from
      Binary64.negative_of_ofNumeral hinf] at hplain
    refine ⟨⟨_, _, hplain⟩, ?_, ?_, ?_, ?_, Numeral.point_pos hwf he hinf⟩
    · exact hplain.not_mem (by decide) (by decide)
    · exact hplain.not_mem (by decide) (by decide)
    · exact hplain.not_mem (by decide) (by decide)
    · refine ⟨n.value, by rw [value?, hn, Option.map_some], ?_⟩
      rw [value?_toPlain, Numeral.value_of_exponent he]
  · intro h
    rw [if_neg (fun hfit => h (hfits.1 hfit)), Option.getD_none]

/-- A literal with digits missing in front of its point, and with too few digits for its
exponent. -/
theorem Literal.normalize_infinite_missing_digits :
    Binary64.ofText? "-.5e400".toList = some (.infinite true) ∧
      ∃ q, value? "-.5e400".toList = some q ∧
        value? (normalize .default "-.5e400".toList).1 = some q := by
  have hread : Binary64.ofText? "-.5e400".toList = some (.infinite true) := by decide +kernel
  obtain ⟨n, e, hn, he, hexpanded, -⟩ := normalize_infinite .default hread (.inl (by decide))
  have hnumeral : Numeral.ofText? "-.5e400".toList =
      some ⟨some .minus, [], some ['5'], some ⟨'e', none, "400".toList⟩⟩ := by
    decide +kernel
  rw [hnumeral, Option.some.injEq] at hn
  subst hn
  cases he
  obtain ⟨-, -, -, -, hvalue, -⟩ := hexpanded (by decide +kernel)
  exact ⟨hread, hvalue⟩

/-! ### An exponent that is not read in full -/

/-- A decimal of `10 ^ 309` and above reads as infinite. -/
theorem Binary64.ofDecimal_eq_infinite {d : Decimal} (h : 10 ^ (309 + d.places) ≤ d.scaled) :
    ofDecimal d = .infinite d.negative := by
  have hlarge := unitsBound_bounds.2.2
  have hbound : 2 * (unitsBound * Nat.pow 10 d.places) ≤ d.scaled * Nat.pow 2 unitExponent := by
    generalize unitsBound = bound at *
    generalize Nat.pow 2 unitExponent = unit at *
    calc 2 * (bound * 10 ^ d.places)
        = 10 ^ d.places * (2 * bound) := by ring
      _ ≤ 10 ^ d.places * (10 ^ 309 * unit) := Nat.mul_le_mul_left _ hlarge
      _ = 10 ^ (309 + d.places) * unit := by rw [Nat.add_comm, pow_add, Nat.mul_assoc]
      _ ≤ d.scaled * unit := Nat.mul_le_mul_right _ h
  rw [ofDecimal]
  exact ofRatio_eq_infinite (Nat.pow_pos (by decide)) hbound

theorem dropTrailingZeros_append_zeros (s : Text) (n : Nat) :
    dropTrailingZeros (s ++ List.replicate n '0') = dropTrailingZeros s := by
  have hzeros : ∀ c ∈ List.replicate n '0', decide (c = '0') = true := by
    intro c hc
    simp [List.eq_of_mem_replicate hc]
  rw [dropTrailingZeros, List.reverse_append, List.reverse_replicate,
    List.dropWhile_append_of_pos hzeros, dropTrailingZeros]

/-- The numeral with a 5, so many zeros behind it, and the exponent. -/
def fiveAndZeros (zeros : Nat) (exponent : Exponent) : Numeral :=
  ⟨none, '5' :: List.replicate zeros '0', none, some exponent⟩

theorem text_fiveAndZeros (zeros : Nat) (e : Exponent) :
    (fiveAndZeros zeros e).text = '5' :: (List.replicate zeros '0' ++ e.text) := by
  simp only [Numeral.text, fiveAndZeros, signText, fractionText, exponentText,
    List.nil_append, List.append_nil, List.cons_append]

theorem wellFormed_fiveAndZeros (zeros : Nat) {e : Exponent} (he : e.WellFormed) :
    (fiveAndZeros zeros e).WellFormed where
  whole := (digits_cons_iff _ _).2 ⟨by decide, digits_replicate_zero zeros⟩
  fraction f hf := by cases hf
  exponent x hx := Option.some.inj hx ▸ he

/-- When the exponent takes back all digits, a half is left. -/
theorem expanded?_fiveAndZeros {zeros : Nat} {e : Exponent} {x : Int}
    (hfits : Literal.fitsWord x) (hx : zeros + 1 + x = 0) :
    Literal.expanded? (fiveAndZeros zeros e) x = some "0.5".toList := by
  have hpoint : ((fiveAndZeros zeros e).whole.length : Int) + x = 0 := by
    rw [fiveAndZeros, List.length_cons, List.length_replicate]
    omega
  have hfraction : dropTrailingZeros (fiveAndZeros zeros e).digits = ['5'] := by
    rw [fiveAndZeros, Numeral.digits, Option.getD_none, List.append_nil,
      ← List.singleton_append, dropTrailingZeros_append_zeros]
    rfl
  rw [Literal.expanded?, hpoint, if_pos ⟨hfits, Nat.zero_le _⟩]
  simp only [Literal.splitAtPoint, Decimal.plainText, Int.natAbs_zero, List.replicate_zero,
    List.nil_append, hfraction, Int.le_refl, if_true]
  rfl

theorem digitsValue_fiveAndZeros (zeros : Nat) (e : Exponent) :
    digitsValue (fiveAndZeros zeros e).digits = 10 ^ zeros * 5 := by
  rw [fiveAndZeros, Numeral.digits, Option.getD_none, List.append_nil, digitsValue_eq,
    Nat.ofDigitChars_cons, Nat.ofDigitChars_replicate_zero]
  rfl

/-- When fewer digits are taken back than the exponent says, the numeral reads as
infinite. -/
theorem ofNumeral_fiveAndZeros {zeros taken : Nat} {e : Exponent}
    (he : e.saturated = -taken) (hzeros : taken + 309 ≤ zeros) :
    Binary64.ofNumeral (fiveAndZeros zeros e) = .infinite false := by
  have hscaled : ((fiveAndZeros zeros e).toDecimal (-taken)).scaled = 10 ^ zeros * 5 := by
    rw [Numeral.toDecimal, digitsValue_fiveAndZeros, Decimal.scaled]
    simp [fiveAndZeros]
  have hplaces : ((fiveAndZeros zeros e).toDecimal (-taken)).places = taken := by
    simp [Numeral.toDecimal, Decimal.places, fiveAndZeros]
  have hbound : 10 ^ (309 + ((fiveAndZeros zeros e).toDecimal (-taken)).places) ≤
      ((fiveAndZeros zeros e).toDecimal (-taken)).scaled := by
    rw [hscaled, hplaces]
    calc 10 ^ (309 + taken) ≤ 10 ^ zeros := Nat.pow_le_pow_right (by decide) (by omega)
      _ ≤ 10 ^ zeros * 5 := Nat.le_mul_of_pos_right _ (by decide)
  rw [Binary64.ofNumeral, fiveAndZeros, Option.map_some, Option.getD_some, he,
    ← fiveAndZeros.eq_1 zeros e]
  exact Binary64.ofDecimal_eq_infinite hbound

/-- The number 0.5, written with an exponent of which only the first digits are read. It
reads as infinite, and its point is moved to the start of its digits. -/
theorem Literal.normalize_infinite_below_one :
    ∃ l : Text, l = '5' :: (List.replicate 655359 '0' ++ "e-655360".toList) ∧
      Binary64.ofText? l = some (.infinite false) ∧ 'e' ∈ l ∧
      (normalize .default l).1 = "0.5".toList ∧
      ∃ n e, Numeral.ofText? l = some n ∧ n.exponent = some e ∧
        ¬ 0 < n.whole.length + e.value := by
  let e : Exponent := ⟨'e', some .minus, "655360".toList⟩
  have hdigits : e.digits.all Char.isDigit = true := by decide
  have hwf : e.WellFormed := ⟨.inl rfl, List.all_eq_true.1 hdigits, by decide⟩
  have htext : (fiveAndZeros 655359 e).text =
      '5' :: (List.replicate 655359 '0' ++ "e-655360".toList) :=
    text_fiveAndZeros 655359 e
  have hn : Numeral.ofText? (fiveAndZeros 655359 e).text = some (fiveAndZeros 655359 e) :=
    Numeral.ofText?_text (wellFormed_fiveAndZeros _ hwf) (List.cons_ne_nil _ _)
  have hsaturated : e.saturated = -(65536 : Nat) := by decide +kernel
  have hvalue : e.value = -655360 := by decide +kernel
  have hinf : Binary64.ofNumeral (fiveAndZeros 655359 e) = .infinite false :=
    ofNumeral_fiveAndZeros hsaturated (by decide)
  have hexpanded : expanded? (fiveAndZeros 655359 e) e.value = some "0.5".toList :=
    expanded?_fiveAndZeros (by decide +kernel) (by rw [hvalue]; decide)
  refine ⟨_, htext, ?_, ?_, ?_, fiveAndZeros 655359 e, e, hn, rfl, ?_⟩
  · rw [Binary64.ofText?_eq_ofNumeral hn, hinf]
  · rw [htext]
    exact List.mem_cons_of_mem _ (List.mem_append_right _ (by decide))
  · rw [normalize, text_of_exponent_eq_some _ hn rfl, hinf, writtenOut, hexpanded]
    · rfl
    · simp
  · rw [hvalue, fiveAndZeros, List.length_cons, List.length_replicate]
    decide

end QuizFormula

import QuizFormula.Literal
import QuizFormula.Proofs.Grammar.Digits

/-!
# Literals that are written out are numbers

A decimal in plain notation is a number of the grammar, and so is the text of a literal
that is prepared for `fp`, whether it is written out or kept. Moving the point of a numeral
writes the decimal that it is in plain notation (`Literal.expanded?_eq`).
-/

namespace QuizFormula

theorem digits_fractionDigits (places n : Nat) : Digits (fractionDigits places n) := by
  intro c hc
  rw [fractionDigits, dropTrailingZeros, List.mem_reverse] at hc
  have hmem := List.mem_reverse.1 (List.dropWhile_subset _ hc)
  rw [List.leftpad, List.mem_append] at hmem
  rcases hmem with hmem | hmem
  · rw [List.eq_of_mem_replicate hmem]
    decide
  · exact digits_toDigits n c hmem

namespace Decimal

/-- The numeral that a decimal is written as in plain notation. -/
def plainNumeral (d : Decimal) : Numeral where
  sign := if d.negative then some .minus else none
  whole := Nat.toDigits 10 (d.scaled / Nat.pow 10 d.places)
  fraction :=
    let f := fractionDigits d.places (d.scaled % Nat.pow 10 d.places)
    if f.isEmpty then none else some f
  exponent := none

theorem text_plainNumeral (d : Decimal) : d.plainNumeral.text = d.toPlain := by
  have hsign : signText d.plainNumeral.sign = if d.negative then ['-'] else [] := by
    cases h : d.negative <;> simp [plainNumeral, h, signText]
  have hfraction : fractionText d.plainNumeral.fraction =
      if (fractionDigits d.places (d.scaled % Nat.pow 10 d.places)).isEmpty then []
      else '.' :: fractionDigits d.places (d.scaled % Nat.pow 10 d.places) := by
    simp only [plainNumeral]
    split <;> rfl
  rw [Numeral.text, hsign, hfraction]
  simp [plainNumeral, toPlain, exponentText]

theorem wellFormed_plainNumeral (d : Decimal) : d.plainNumeral.WellFormed where
  whole := digits_toDigits _
  fraction f hf := by
    simp only [plainNumeral] at hf
    split at hf
    · simp at hf
    · cases hf
      exact digits_fractionDigits _ _
  exponent e he := by simp [plainNumeral] at he

theorem isNumber_toPlain (d : Decimal) : IsNumber d.toPlain :=
  ⟨d.plainNumeral, d.wellFormed_plainNumeral, Nat.toDigits_ne_nil, d.text_plainNumeral⟩

end Decimal

namespace Literal

theorem isNumber_fixed (precision : Nat) (negative : Bool) (units : Nat) :
    IsNumber (fixed precision negative units) := by
  rw [fixed]
  exact Decimal.isNumber_toPlain _

theorem digits_splitAtPoint {digits : Text} (h : Digits digits) (point : Int) :
    Digits (splitAtPoint digits point).1 ∧ Digits (splitAtPoint digits point).2 := by
  have hzeros := digits_replicate_zero
  unfold splitAtPoint
  split
  · exact ⟨hzeros 1, digits_append (hzeros _) h⟩
  · refine ⟨digits_append (fun c hc => h c (List.mem_of_mem_take hc)) (hzeros _), ?_⟩
    exact fun c hc => h c (List.mem_of_mem_drop hc)

/-- Digits that are split at a point are written like the decimal with this point. -/
theorem plainText_splitAtPoint (negative : Bool) {digits : Text} (h : Digits digits)
    (point : Int) :
    Decimal.plainText negative (splitAtPoint digits point).1 (splitAtPoint digits point).2 =
      Decimal.toPlain ⟨negative, digitsValue digits, point - digits.length⟩ := by
  obtain ⟨hwhole, hfraction⟩ := digits_splitAtPoint h point
  rw [Decimal.plainText_eq_toPlain negative hwhole hfraction, splitAtPoint]
  by_cases hpoint : point ≤ 0
  · -- The point stands in front of the digits, after one zero.
    have hexponent : -((point.natAbs + digits.length : Nat) : Int) = point - digits.length := by
      omega
    simp only [if_pos hpoint, digitsValue_eq, List.length_append, List.length_replicate,
      hexponent, ofDigitChars_append, Nat.ofDigitChars_replicate_zero]
    simp [Nat.ofDigitChars]
  · rw [if_neg hpoint]
    rcases Nat.le_total point.toNat digits.length with hle | hle
    · have hexponent : -((digits.length - point.toNat : Nat) : Int) = point - digits.length := by
        omega
      simp only [Nat.sub_eq_zero_of_le hle, List.replicate_zero, List.append_nil,
        List.take_append_drop, List.length_drop, hexponent]
    · -- The point stands after the digits and the zeros that are put there.
      have hexponent : ((point.toNat - digits.length : Nat) : Int) = point - digits.length := by
        omega
      have hvalue : digitsValue (digits ++ List.replicate (point.toNat - digits.length) '0') =
          digitsValue digits * 10 ^ (point.toNat - digits.length) := by
        rw [digitsValue_eq, digitsValue_eq, Nat.ofDigitChars_append,
          Nat.ofDigitChars_replicate_zero, Nat.mul_comm]
      simp only [List.take_of_length_le hle, List.drop_of_length_le hle, List.append_nil,
        List.length_nil, hvalue]
      rw [← hexponent]
      exact Decimal.toPlain_mul_pow negative _ _

/-- The digits of a numeral, split where its exponent puts the point, are written like the
decimal that the numeral is. -/
theorem plainText_splitAtPoint_digits {n : Numeral} (hn : n.WellFormed) (e : Int) :
    Decimal.plainText (n.sign = some .minus)
      (splitAtPoint n.digits (n.whole.length + e)).1
      (splitAtPoint n.digits (n.whole.length + e)).2 = (n.toDecimal e).toPlain := by
  have hexponent : n.whole.length + e - n.digits.length =
      e - ((n.fraction.getD []).length : Int) := by
    rw [Numeral.digits, List.length_append]
    omega
  rw [plainText_splitAtPoint _ hn.digits_digits, hexponent, Numeral.toDecimal]

/-- A numeral that is expanded is written as the decimal that it is. -/
theorem expanded?_eq {n : Numeral} (hn : n.WellFormed) (e : Int) :
    expanded? n e =
      if fitsWord e ∧ (n.whole.length + e).natAbs ≤ maxExpandedDigits then
        some (n.toDecimal e).toPlain
      else none := by
  simp only [expanded?, plainText_splitAtPoint_digits hn]

theorem isNumber_of_expanded? {n : Numeral} (hn : n.WellFormed) {e : Int} {t : Text}
    (h : expanded? n e = some t) : IsNumber t := by
  rw [expanded?_eq hn, Option.ite_none_right_eq_some] at h
  rw [← Option.some.inj h.2]
  exact Decimal.isNumber_toPlain _

theorem isNumber_writtenOut (precision : Nat) {l : Text} (hl : IsNumber l) {n : Numeral}
    (hn : n.WellFormed) (e : Exponent) (x : Binary64) :
    IsNumber (writtenOut precision l n e x) := by
  have hexpanded : IsNumber ((expanded? n e.value).getD l) := by
    cases h : expanded? n e.value with
    | none => exact hl
    | some t => exact isNumber_of_expanded? hn h
  cases x with
  | finite negative units => exact isNumber_fixed precision negative units
  | infinite negative => exact hexpanded
  | nan => exact hexpanded

/-- A number is a number also in the form in which `fp` gets it. -/
theorem isNumber_text (precision : Nat) {l : Text} (hl : IsNumber l) :
    IsNumber (text precision l) := by
  cases h : Numeral.ofText? l with
  | none =>
      rw [text_of_ofText?_eq_none precision h]
      exact hl
  | some n =>
      cases he : n.exponent with
      | none =>
          rw [text_of_exponent_eq_none precision h he]
          exact hl
      | some e =>
          rw [text_of_exponent_eq_some precision h he]
          exact isNumber_writtenOut precision hl (Numeral.wellFormed_of_ofText? h) e _

end Literal

end QuizFormula

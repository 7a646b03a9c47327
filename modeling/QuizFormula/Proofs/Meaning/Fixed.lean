import QuizFormula.Literal
import QuizFormula.Proofs.Meaning.Rounding

/-!
# Literals in fixed notation

A literal with an exponent that reads as a finite number is written in plain notation, and
what is written denotes the exact value of that number, rounded to the precision asked for
(`Literal.normalize_finite`). Its sign is that of the number, also where zero is left.
-/

namespace QuizFormula

/-! ### Literals with an exponent -/

theorem Numeral.exists_exponent {n : Numeral} (hn : n.WellFormed) {c : Char}
    (hc : c = 'e' ∨ c = 'E') (hmem : c ∈ n.text) : ∃ e, n.exponent = some e := by
  rcases hn.mem_text_or_exponent hmem with h | h | h
  · rcases hc with rfl | rfl <;> exact absurd h (by decide)
  · rcases hc with rfl | rfl <;> exact absurd h (by decide)
  · cases he : n.exponent with
    | none => simp [he, exponentText] at h
    | some e => exact ⟨e, rfl⟩

/-- None of the words for numbers has an `e`, of either case. -/
theorem Binary64.ofWord?_eq_none {negative : Bool} {word : Text}
    (he : 'e' ∈ word ∨ 'E' ∈ word) : ofWord? negative word = none := by
  have hlower : 'e' ∈ word.map Char.toLower := by
    rcases he with he | he
    · exact List.mem_map.2 ⟨'e', he, by decide⟩
    · exact List.mem_map.2 ⟨'E', he, by decide⟩
  have hne : ∀ {w : Text}, 'e' ∉ w → word.map Char.toLower ≠ w := by
    rintro w hw rfl
    exact hw hlower
  have hinf := hne (w := "inf".toList) (by decide)
  have hinfinity := hne (w := "infinity".toList) (by decide)
  have hnan := hne (w := "nan".toList) (by decide)
  simp only [ofWord?, hinf, hinfinity, hnan, or_self, if_false]

/-- A text with an `e` reads as a number only if it is a numeral with an exponent. -/
theorem Literal.exists_numeral {l : Text} {x : Binary64} (hread : Binary64.ofText? l = some x)
    (he : 'e' ∈ l ∨ 'E' ∈ l) :
    ∃ n e, Numeral.ofText? l = some n ∧ n.exponent = some e ∧ Binary64.ofNumeral n = x := by
  cases hn : Numeral.ofText? l with
  | none =>
      have hparts : 'e' ∈ (scanSign l).2 ∨ 'E' ∈ (scanSign l).2 := by
        rw [← signText_append_scanSign l, List.mem_append, List.mem_append] at he
        have hsign : ∀ {c : Char}, c ∈ signText (scanSign l).1 → c = '+' ∨ c = '-' := mem_signText
        rcases he with (h | h) | (h | h)
        · exact absurd (hsign h) (by decide)
        · exact .inl h
        · exact absurd (hsign h) (by decide)
        · exact .inr h
      simp [Binary64.ofText?, hn, Binary64.ofWord?_eq_none hparts] at hread
  | some n =>
      have hwf := Numeral.wellFormed_of_ofText? hn
      rw [← Numeral.text_of_ofText? hn] at he
      obtain ⟨e, hexp⟩ : ∃ e, n.exponent = some e := by
        rcases he with he | he
        · exact Numeral.exists_exponent hwf (.inl rfl) he
        · exact Numeral.exists_exponent hwf (.inr rfl) he
      rw [Binary64.ofText?_eq_ofNumeral hn, Option.some.injEq] at hread
      exact ⟨n, e, rfl, hexp, hread⟩

/-- A literal with an exponent that reads as a finite number is written in fixed
notation. -/
theorem Literal.text_eq_fixed (precision : Nat) {l : Text} {negative : Bool} {units : Nat}
    (hread : Binary64.ofText? l = some (.finite negative units)) (he : 'e' ∈ l ∨ 'E' ∈ l) :
    text precision l = fixed precision negative units := by
  obtain ⟨n, e, hn, hexp, hx⟩ := exists_numeral hread he
  rw [text_of_exponent_eq_some precision hn hexp, hx, writtenOut]

/-! ### Fixed notation -/

theorem Decimal.length_fraction_le (d : Decimal) :
    (fractionDigits d.places (d.scaled % Nat.pow 10 d.places)).length ≤ d.places :=
  length_fractionDigits_le (Nat.mod_lt d.scaled (Nat.pow_pos (by decide)))

theorem Literal.isPlain_fixed (precision : Nat) (negative : Bool) (units : Nat) :
    ∃ whole fraction, IsPlain negative whole fraction (fixed precision negative units) ∧
      fraction.length ≤ precision := by
  have hplain := ((Binary64.exactDecimal negative units).roundTo precision).isPlain_toPlain
  rw [Decimal.negative_roundTo] at hplain
  refine ⟨_, _, hplain, Nat.le_trans (Decimal.length_fraction_le _) ?_⟩
  exact Decimal.places_roundTo_le precision _

/-- A literal with an exponent that reads as a finite number is prepared in plain notation,
with at most as many digits after the point as asked for. It has the sign of the number
and denotes its exact value, rounded to these digits with a half going to the even
neighbour. -/
theorem Literal.normalize_finite (o : Options) {l : Text} {negative : Bool} {units : Nat}
    (hread : Binary64.ofText? l = some (.finite negative units)) (he : 'e' ∈ l ∨ 'E' ∈ l) :
    (∃ whole fraction, IsPlain negative whole fraction (normalize o l).1 ∧
      fraction.length ≤ o.fixedPrecision) ∧
    'e' ∉ (normalize o l).1 ∧ 'E' ∉ (normalize o l).1 ∧
    ∃ q, value? (normalize o l).1 = some q ∧
      RoundsTo o.fixedPrecision (Binary64.value negative units) q := by
  have htext : (normalize o l).1 = fixed o.fixedPrecision negative units :=
    text_eq_fixed o.fixedPrecision hread he
  rw [htext]
  obtain ⟨whole, fraction, hplain, hlength⟩ := isPlain_fixed o.fixedPrecision negative units
  refine ⟨⟨whole, fraction, hplain, hlength⟩, ?_, ?_, value?_fixed _ _ _⟩
  · exact hplain.not_mem (by decide) (by decide)
  · exact hplain.not_mem (by decide) (by decide)

/-- Half a whole number, written without fractional digits: the even neighbour. -/
theorem Literal.normalize_finite_half :
    Binary64.ofText? "-25e-1".toList = some (.finite true (5 * 2 ^ 1073)) ∧
      (normalize { fixedPrecision := 0 } "-25e-1".toList).1 = "-2".toList ∧
      RoundsTo 0 (Binary64.value true (5 * 2 ^ 1073)) (-2) := by
  have hread : Binary64.ofText? "-25e-1".toList = some (.finite true (5 * 2 ^ 1073)) := by
    decide +kernel
  have htext : (normalize { fixedPrecision := 0 } "-25e-1".toList).1 = "-2".toList := by
    decide +kernel
  have hvalue : value? "-2".toList = some (-2) := by
    decide +kernel
  obtain ⟨-, -, -, q, hq, hround⟩ :=
    normalize_finite { fixedPrecision := 0 } hread (.inl (by decide))
  rw [htext, hvalue, Option.some.injEq] at hq
  exact ⟨hread, htext, hq ▸ hround⟩

end QuizFormula

import QuizFormula.Proofs.Meaning.Fixed
import QuizFormula.Proofs.Meaning.Nearness

/-!
# Literals that keep their value

A literal that reads as a finite number is written from that number, so it keeps its value
exactly when the number, rounded to the precision, is its value (`Literal.normalize_exact`).
That is so whenever its value is less than `2 ^ 52` units of the last place that is
written: the number is off by less than half such a unit then. Larger numbers may be off by
more; `0.1e0` does not keep its value (`Literal.normalize_inexact`).
-/

namespace QuizFormula

/-- A number less than half a unit of the last place away from a decimal of so many places
is rounded to it. -/
theorem roundsTo_of_abs_sub_lt {places : Nat} {x y : ℚ} {k : ℤ} (hk : y * 10 ^ places = k)
    (h : |x - y| * 10 ^ places < 1 / 2) : RoundsTo places x y := by
  have hpos : (0 : ℚ) < 10 ^ places := by positivity
  have hdist : |x * 10 ^ places - k| < 1 / 2 := by
    rwa [← hk, ← sub_mul, abs_mul, abs_of_pos hpos]
  refine ⟨k, ⟨hdist.le, fun hhalf => absurd hhalf hdist.ne⟩, ?_⟩
  rw [← hk, mul_div_cancel_right₀ _ hpos.ne']

/-- How far the number that a numeral reads as is from its value. -/
theorem Numeral.abs_value_sub_le {n : Numeral} {e : Exponent} (he : n.exponent = some e)
    (hsmall : e.value.natAbs < 655360) {negative : Bool} {units : Nat}
    (hread : Binary64.ofNumeral n = .finite negative units) :
    |Binary64.value negative units - n.value| ≤
      max (1 / 2 / 2 ^ Binary64.unitExponent) (|n.value| / 2 ^ 53) := by
  rw [Binary64.ofNumeral_eq he hsmall, Binary64.ofDecimal] at hread
  have hden : 0 < Nat.pow 10 (n.toDecimal e.value).places := Nat.pow_pos (by decide)
  have hle := Binary64.abs_value_sub_le hden hread
  have hnonneg : (0 : ℚ) ≤ (n.toDecimal e.value).scaled / 10 ^ (n.toDecimal e.value).places := by
    positivity
  rw [Nat.pow_eq, Nat.cast_pow, Nat.cast_ofNat] at hle
  rwa [value_of_exponent he, Decimal.value_eq, abs_mul, Decimal.abs_signFactor, one_mul,
    abs_of_nonneg hnonneg]

/-- The last place that is written is coarser than the units of the numbers. -/
theorem Options.Valid.pow_lt {o : Options} (ho : o.Valid) :
    (10 : ℚ) ^ o.fixedPrecision < 2 ^ Binary64.unitExponent :=
  calc (10 : ℚ) ^ o.fixedPrecision ≤ 10 ^ 18 := pow_le_pow_right₀ (by norm_num) ho.2.2
    _ < 2 ^ 60 := by norm_num
    _ ≤ 2 ^ Binary64.unitExponent := pow_le_pow_right₀ (by norm_num) (by decide)

/-- A number as near to a value as it is read is less than half a place away from it, where
the value is less than `2 ^ 52` places and a place is coarser than a unit. -/
theorem abs_sub_mul_lt_half {x y scale : ℚ} (hpos : 0 < scale)
    (hscale : scale < 2 ^ Binary64.unitExponent) (hfew : |y| * scale < 2 ^ 52)
    (hle : |x - y| ≤ max (1 / 2 / 2 ^ Binary64.unitExponent) (|y| / 2 ^ 53)) :
    |x - y| * scale < 1 / 2 := by
  rcases le_max_iff.1 hle with hle | hle
  · calc |x - y| * scale
        ≤ 1 / 2 / 2 ^ Binary64.unitExponent * scale := mul_le_mul_of_nonneg_right hle hpos.le
      _ < 1 / 2 := by
          rw [div_mul_eq_mul_div, div_lt_iff₀ (by positivity)]
          linarith
  · calc |x - y| * scale ≤ |y| / 2 ^ 53 * scale := mul_le_mul_of_nonneg_right hle hpos.le
      _ = |y| * scale / 2 ^ 53 := div_mul_eq_mul_div _ _ _
      _ < 1 / 2 := by
          rw [div_lt_iff₀ (by positivity)]
          linarith

/-- A literal with an exponent that reads as a finite number, and whose value has no more
places than are written, keeps its value exactly when this number is rounded to it. It does
so if its value is less than `2 ^ 52` units of the last place. -/
theorem Literal.normalize_exact {o : Options} (ho : o.Valid) {l : Text} {negative : Bool}
    {units : Nat} (hread : Binary64.ofText? l = some (.finite negative units))
    (hmark : 'e' ∈ l ∨ 'E' ∈ l) {q : ℚ} (hq : value? l = some q) {k : ℤ}
    (hk : q * 10 ^ o.fixedPrecision = k) :
    (value? (normalize o l).1 = some q ↔
      RoundsTo o.fixedPrecision (Binary64.value negative units) q) ∧
    ∀ n e, Numeral.ofText? l = some n → n.exponent = some e → e.value.natAbs < 655360 →
      |k| < 2 ^ 52 → value? (normalize o l).1 = some q := by
  have htext : (normalize o l).1 = fixed o.fixedPrecision negative units :=
    text_eq_fixed o.fixedPrecision hread hmark
  obtain ⟨r, hr, hround⟩ := value?_fixed o.fixedPrecision negative units
  have hiff : value? (normalize o l).1 = some q ↔
      RoundsTo o.fixedPrecision (Binary64.value negative units) q := by
    rw [htext, hr, Option.some.injEq]
    constructor
    · rintro rfl
      exact hround
    · exact hround.unique
  refine ⟨hiff, ?_⟩
  intro n e hn he hsmall hfew
  rw [Binary64.ofText?_eq_ofNumeral hn, Option.some.injEq] at hread
  rw [value?, hn, Option.map_some, Option.some.injEq] at hq
  subst hq
  have hle := Numeral.abs_value_sub_le he hsmall hread
  have hpos : (0 : ℚ) < 10 ^ o.fixedPrecision := by positivity
  have hcount : |n.value| * 10 ^ o.fixedPrecision < 2 ^ 52 := by
    rw [← abs_of_pos hpos, ← abs_mul, hk]
    exact_mod_cast hfew
  rw [hiff]
  exact roundsTo_of_abs_sub_lt hk (abs_sub_mul_lt_half hpos ho.pow_lt hcount hle)

/-- A literal for 0.0012, which is no binary fraction, keeps its value. -/
theorem Literal.normalize_exact_thousandths :
    value? "-1.2e-3".toList = some (-12 / 10000) ∧
      value? (normalize .default "-1.2e-3".toList).1 = some (-12 / 10000) := by
  have hread : Binary64.ofText? "-1.2e-3".toList =
      some (.finite true (Binary64.roundSignificand (12 * Nat.pow 2 1074) 10000)) := by
    decide +kernel
  have hvalue : value? "-1.2e-3".toList = some (-12 / 10000) := by decide +kernel
  have hplaces : (-12 / 10000 : ℚ) * 10 ^ Options.default.fixedPrecision =
      ((-1200000000000000 : ℤ) : ℚ) := by decide +kernel
  obtain ⟨-, hexact⟩ :=
    normalize_exact (by decide +kernel) hread (.inl (by decide)) hvalue hplaces
  have hnumeral : Numeral.ofText? "-1.2e-3".toList =
      some ⟨some .minus, ['1'], some ['2'], some ⟨'e', some .minus, ['3']⟩⟩ := by
    decide +kernel
  exact ⟨hvalue, hexact _ _ hnumeral rfl (by decide +kernel) (by decide)⟩

/-- A tenth, written with an exponent, is prepared as another number. -/
theorem Literal.normalize_inexact :
    IsNumber "0.1e0".toList ∧ 'e' ∈ "0.1e0".toList ∧ Options.default.Valid ∧
      (∃ units, Binary64.ofText? "0.1e0".toList = some (.finite false units)) ∧
      value? "0.1e0".toList = some (1 / 10) ∧
      (∃ k : ℤ, (1 / 10 : ℚ) * 10 ^ Options.default.fixedPrecision = k) ∧
      (normalize .default "0.1e0".toList).1 = "0.100000000000000006".toList ∧
      value? (normalize .default "0.1e0".toList).1 ≠ some (1 / 10) := by
  refine ⟨by decide +kernel, by decide, by decide +kernel, ?_, by decide +kernel, ?_,
    by decide +kernel, by decide +kernel⟩
  · exact ⟨Binary64.roundSignificand (Nat.pow 2 1074) 10, by decide +kernel⟩
  · exact ⟨100000000000000000, by decide +kernel⟩

end QuizFormula

import QuizFormula.Literal
import QuizFormula.Proofs.Meaning.Threshold

/-!
# Which literals are reported

Whether a literal is reported is decided by comparing the double precision number it reads
as with the limit. In terms of its exact value, the literal is reported if its magnitude
lies beyond the middle between the limit and the next number
(`Literal.warning?_eq`). The default limit is `10 ^ 18`, where neighbouring numbers are 128
apart, so what is reported by default lies beyond `10 ^ 18 + 64` (`Literal.reported_default`).
-/

namespace QuizFormula

/-- A literal is reported if its magnitude lies beyond the middle between the limit and the
next number. The limit is one of `m * 2 ^ k` units, with an even significand. -/
theorem Literal.warning?_eq {l : Text} {q : ℚ} (hq : valueAsRead? l = some q) {m k : Nat}
    (hm : Even m) (hlow : 2 ^ 52 ≤ m) (hup : m < 2 ^ 53)
    (hlimit : m * 2 ^ k < Binary64.unitsBound) :
    warning? (.finite false (m * 2 ^ k)) l =
      if (m + 1 / 2) * 2 ^ k < |q| * 2 ^ Binary64.unitExponent then some (.overflow l)
      else none := by
  obtain ⟨n, hn, rfl⟩ := Option.map_eq_some_iff.1 hq
  have hexceeds : Binary64.lt (.finite false (m * 2 ^ k)) (Binary64.ofNumeral n).abs = true ↔
      (m + 1 / 2 : ℚ) * 2 ^ k < |n.valueAsRead| * 2 ^ Binary64.unitExponent := by
    rw [Binary64.ofNumeral, Binary64.finite_lt_abs_ofDecimal hlimit, ← not_le,
      Binary64.unitsOf_le_iff _ hm hlow hup, not_le]
    rfl
  rw [warning?, Binary64.ofText?_eq_ofNumeral hn]
  exact if_congr hexceeds rfl rfl

/-- By default a number is reported exactly if its magnitude exceeds `10 ^ 18 + 64`. Of its
exponent as many digits count as are read; an exponent below 655360 is read in full. -/
theorem Literal.reported_default {l : Text} (hl : IsNumber l) :
    ∃ q, valueAsRead? l = some q ∧
      (normalize .default l).2 =
        (if 10 ^ 18 + 64 < |q| then some (.overflow l) else none) ∧
      ((∀ n e, Numeral.ofText? l = some n → n.exponent = some e → e.value.natAbs < 655360) →
        value? l = some q) := by
  obtain ⟨q, hq⟩ := exists_valueAsRead? hl
  refine ⟨q, hq, ?_, fun hsmall => (valueAsRead?_eq hsmall).symm.trans hq⟩
  have hlimit : Options.default.overflowLimit = .finite false (7812500000000000 * 2 ^ 1081) := by
    decide +kernel
  have hbound : 7812500000000000 * 2 ^ 1081 < Binary64.unitsBound := by decide +kernel
  rw [normalize, hlimit, warning?_eq hq (by decide) (by decide) (by decide) hbound]
  refine if_congr ?_ rfl rfl
  -- A unit is `2 ^ (-1074)`, so seven powers of two are left.
  have hsplit : (2 : ℚ) ^ 1081 = 2 ^ 7 * 2 ^ Binary64.unitExponent := by
    rw [← pow_add]
    rfl
  have hpos : (0 : ℚ) < 2 ^ Binary64.unitExponent := by positivity
  rw [hsplit, ← mul_assoc, mul_lt_mul_iff_of_pos_right hpos]
  norm_num

/-- The least whole number that is reported. -/
theorem Literal.reported_default_least :
    IsNumber "1000000000000000065".toList ∧
      value? "1000000000000000065".toList = some (10 ^ 18 + 65) ∧
      (normalize .default "1000000000000000065".toList).2 =
        some (.overflow "1000000000000000065".toList) := by
  have hl : IsNumber "1000000000000000065".toList := by decide +kernel
  have hvalue : value? "1000000000000000065".toList = some (10 ^ 18 + 65) := by decide +kernel
  have hnumeral : Numeral.ofText? "1000000000000000065".toList =
      some ⟨none, "1000000000000000065".toList, none, none⟩ := by
    decide +kernel
  obtain ⟨q, -, hreport, hexact⟩ := reported_default hl
  have hq : value? "1000000000000000065".toList = some q := by
    apply hexact
    intro n e hn he
    rw [hnumeral, Option.some.injEq] at hn
    subst hn
    cases he
  rw [hvalue, Option.some.injEq] at hq
  subst hq
  refine ⟨hl, hvalue, hreport.trans (if_pos ?_)⟩
  rw [abs_of_pos (by norm_num)]
  norm_num

/-- The greatest number that `fp` can hold is `10 ^ 18 - 1 / 10 ^ 18`; what is `10 ^ 18` is
not reported all the same. -/
theorem Literal.unreported_default :
    IsNumber "1000000000000000000".toList ∧
      value? "1000000000000000000".toList = some (10 ^ 18) ∧
      (10 ^ 18 - 1 / 10 ^ 18 : ℚ) < |10 ^ 18| ∧
      (normalize .default "1000000000000000000".toList).2 = none := by
  refine ⟨by decide +kernel, by decide +kernel, ?_, by decide +kernel⟩
  rw [abs_of_pos (by norm_num)]
  norm_num

end QuizFormula

import QuizFormula.Proofs.Meaning.Nearness

/-!
# From where on a number is read as more

A quotient is rounded to more than a given number exactly if it lies beyond the middle
between this number and the next one, and to less exactly if it lies below the middle
between this number and the one before. The middle itself belongs to the even significand.
So whether a decimal reads as more than a number with an even significand is a comparison
of its exact value (`Binary64.unitsOf_le_iff`, `Binary64.le_unitsOf_iff`).
-/

namespace QuizFormula

/-! ### Integers -/

theorem IsNearest.le_iff {x : ℚ} {k m : ℤ} (h : IsNearest x k) (hm : Even m) :
    k ≤ m ↔ x ≤ m + 1 / 2 := by
  obtain ⟨hdist, hties⟩ := h
  obtain ⟨hlow, hup⟩ := abs_le.1 hdist
  constructor
  · intro hle
    have hcast : (k : ℚ) ≤ m := by exact_mod_cast hle
    linarith
  · intro hx
    by_contra hlt
    have hnext : m + 1 ≤ k := not_le.1 hlt
    have hcast : (m + 1 : ℚ) ≤ k := by exact_mod_cast hnext
    -- Only the middle is left, and it would have been rounded to the odd neighbour.
    have hk : k = m + 1 := by
      have hle : (k : ℚ) ≤ (m + 1 : ℤ) := by push_cast; linarith
      exact le_antisymm (by exact_mod_cast hle) hnext
    have hhalf : |x - k| = 1 / 2 := by
      rw [hk] at hlow ⊢
      push_cast at hlow ⊢
      have hx' : x - (m + 1) = -(1 / 2) := by linarith
      rw [hx', abs_neg, abs_of_pos (by norm_num)]
    have heven := hties hhalf
    rw [hk, Int.even_add_one] at heven
    exact heven hm

theorem IsNearest.ge_iff {x : ℚ} {k m : ℤ} (h : IsNearest x k) (hm : Even m) :
    m ≤ k ↔ m - 1 / 2 ≤ x := by
  rw [← neg_le_neg_iff, h.neg.le_iff hm.neg, Int.cast_neg]
  constructor <;> intro hle <;> linarith

/-! ### Quotients -/

theorem le_roundDiv {num den c : Nat} (hden : 0 < den) (h : c * den ≤ num) :
    c ≤ roundDiv num den := by
  have hquotient : c ≤ num / den := (Nat.le_div_iff_mul_le hden).2 h
  rcases roundDiv_eq_or num den with hround | hround <;> omega

theorem roundDiv_le {num den c : Nat} (hden : 0 < den) (h : num ≤ c * den) :
    roundDiv num den ≤ c := by
  rcases Nat.lt_or_eq_of_le h with hlt | rfl
  · have hquotient : num / den < c := (Nat.div_lt_iff_lt_mul hden).2 hlt
    rcases roundDiv_eq_or num den with hround | hround <;> omega
  · exact (roundDiv_mul c den hden).le

namespace Binary64

section Significand

variable {num den : Nat}

theorem le_roundSignificand (hden : 0 < den) {c : Nat} (hdvd : significandStep num den ∣ c)
    (h : c * den ≤ num) : c ≤ roundSignificand num den := by
  obtain ⟨r, rfl⟩ := hdvd
  have hstep := significandStep_pos num den
  have hr : r ≤ roundDiv num (den * significandStep num den) := by
    apply le_roundDiv (Nat.mul_pos hden hstep)
    calc r * (den * significandStep num den) = significandStep num den * r * den := by ring
      _ ≤ num := h
  rw [Nat.mul_comm]
  exact Nat.mul_le_mul_right _ hr

theorem roundSignificand_le (hden : 0 < den) {c : Nat} (hdvd : significandStep num den ∣ c)
    (h : num ≤ c * den) : roundSignificand num den ≤ c := by
  obtain ⟨r, rfl⟩ := hdvd
  have hstep := significandStep_pos num den
  have hr : roundDiv num (den * significandStep num den) ≤ r := by
    apply roundDiv_le (Nat.mul_pos hden hstep)
    calc num ≤ significandStep num den * r * den := h
      _ = r * (den * significandStep num den) := by ring
  rw [Nat.mul_comm (significandStep num den)]
  exact Nat.mul_le_mul_right _ hr

/-- Below `2 ^ (52 + k)` steps are at most `2 ^ k`. -/
theorem of_log2_lt {k : Nat} (hden : 0 < den) (h : (num / den).log2 < 52 + k) :
    num < 2 ^ (52 + k) * den ∧ significandStep num den ∣ 2 ^ k := by
  have hquotient : num / den < 2 ^ (52 + k) := by
    rcases eq_or_ne (num / den) 0 with hzero | hne
    · rw [hzero]
      exact Nat.pow_pos (by decide)
    · exact (Nat.log2_lt hne).1 h
  refine ⟨(Nat.div_lt_iff_lt_mul hden).1 hquotient, ?_⟩
  rw [significandStep, significandBits, Nat.pow_eq]
  exact Nat.pow_dvd_pow 2 (by omega)

/-- From `2 ^ (52 + k)` up to its double, the significand is rounded to a natural number. -/
theorem exists_significand {k : Nat} (hden : 0 < den) (h : (num / den).log2 = 52 + k) :
    ∃ r : Nat, roundSignificand num den = r * 2 ^ k ∧
      IsNearest ((num : ℚ) / den / 2 ^ k) r := by
  have hstep : significandStep num den = 2 ^ k := by
    rw [significandStep, significandBits, h, Nat.add_sub_cancel_left, Nat.pow_eq]
  refine ⟨roundDiv num (den * 2 ^ k), ?_, ?_⟩
  · rw [roundSignificand, ← significandStep, hstep]
  · have hnearest := isNearest_roundDiv num (Nat.mul_pos hden (Nat.pow_pos (n := k) two_pos))
    rwa [Nat.cast_mul, Nat.cast_pow, Nat.cast_ofNat, ← div_div] at hnearest

/-- What lies at `2 ^ (53 + k)` or beyond stays there. -/
theorem of_lt_log2 {k : Nat} (hden : 0 < den) (h : 52 + k < (num / den).log2) :
    2 ^ (53 + k) * den ≤ num ∧ 2 ^ (53 + k) ≤ roundSignificand num den := by
  have hne : num / den ≠ 0 := by
    intro hzero
    rw [hzero, Nat.log2_zero] at h
    omega
  have hpow : 2 ^ (53 + k) ≤ 2 ^ (num / den).log2 := Nat.pow_le_pow_right (by decide) (by omega)
  have hnum : 2 ^ (num / den).log2 * den ≤ num :=
    calc 2 ^ (num / den).log2 * den
        ≤ num / den * den := Nat.mul_le_mul_right den (Nat.log2_self_le hne)
      _ ≤ num := Nat.div_mul_le_self num den
  have hdvd : significandStep num den ∣ 2 ^ (num / den).log2 := by
    rw [significandStep, Nat.pow_eq]
    exact Nat.pow_dvd_pow 2 (Nat.sub_le _ _)
  exact ⟨(Nat.mul_le_mul_right den hpow).trans hnum,
    hpow.trans (le_roundSignificand hden hdvd hnum)⟩

/-- A quotient is rounded to more than `m * 2 ^ k` exactly if it lies beyond the middle
between `m` and `m + 1`. -/
theorem roundSignificand_le_iff (hden : 0 < den) {m k : Nat} (hm : Even m)
    (hlow : 2 ^ 52 ≤ m) (hup : m < 2 ^ 53) :
    roundSignificand num den ≤ m * 2 ^ k ↔ (num : ℚ) / den ≤ (m + 1 / 2) * 2 ^ k := by
  have hpos : (0 : ℚ) < den := by exact_mod_cast hden
  have hpow : (0 : ℚ) < 2 ^ k := by positivity
  rcases Nat.lt_trichotomy (num / den).log2 (52 + k) with h | h | h
  · obtain ⟨hlt, hdvd⟩ := of_log2_lt hden h
    have hnum : num ≤ m * 2 ^ k * den := by
      rw [pow_add] at hlt
      exact hlt.le.trans (Nat.mul_le_mul_right den (Nat.mul_le_mul_right _ hlow))
    have hround := roundSignificand_le hden (Dvd.dvd.mul_left hdvd m) hnum
    refine iff_of_true hround ?_
    have hcast : (num : ℚ) ≤ m * 2 ^ k * den := by exact_mod_cast hnum
    rw [div_le_iff₀ hpos]
    exact hcast.trans (mul_le_mul_of_nonneg_right
      (mul_le_mul_of_nonneg_right (by linarith) hpow.le) hpos.le)
  · obtain ⟨r, hr, hnearest⟩ := exists_significand hden h
    have hiff := hnearest.le_iff (m := m) (by exact_mod_cast hm)
    rw [hr, Nat.mul_le_mul_right_iff (Nat.pow_pos (by decide)), ← Nat.cast_le (α := ℤ), hiff,
      div_le_iff₀ hpow, Int.cast_natCast]
  · obtain ⟨hle, hround⟩ := of_lt_log2 hden h
    have hnext : (m + 1) * 2 ^ k ≤ 2 ^ (53 + k) := by
      rw [pow_add]
      exact Nat.mul_le_mul_right _ hup
    refine iff_of_false (not_le.2 (lt_of_lt_of_le ?_ (hnext.trans hround))) (not_le.2 ?_)
    · exact Nat.mul_lt_mul_of_pos_right (Nat.lt_succ_self m) (Nat.pow_pos (by decide))
    · have hnum : ((m + 1) * 2 ^ k * den : ℚ) ≤ num := by
        exact_mod_cast (Nat.mul_le_mul_right den hnext).trans hle
      rw [lt_div_iff₀ hpos]
      refine lt_of_lt_of_le (mul_lt_mul_of_pos_right ?_ hpos) hnum
      exact mul_lt_mul_of_pos_right (by linarith) hpow

/-- A quotient is rounded to less than `m * 2 ^ k` exactly if it lies below the middle
between `m - 1` and `m`. -/
theorem le_roundSignificand_iff (hden : 0 < den) {m k : Nat} (hm : Even m)
    (hlow : 2 ^ 52 < m) (hup : m ≤ 2 ^ 53) :
    m * 2 ^ k ≤ roundSignificand num den ↔ (m - 1 / 2) * 2 ^ k ≤ (num : ℚ) / den := by
  have hpos : (0 : ℚ) < den := by exact_mod_cast hden
  have hpow : (0 : ℚ) < 2 ^ k := by positivity
  rcases Nat.lt_trichotomy (num / den).log2 (52 + k) with h | h | h
  · obtain ⟨hlt, hdvd⟩ := of_log2_lt hden h
    have hround : roundSignificand num den ≤ 2 ^ (52 + k) :=
      roundSignificand_le hden (hdvd.trans (Nat.pow_dvd_pow 2 (Nat.le_add_left k 52))) hlt.le
    refine iff_of_false (not_le.2 (lt_of_le_of_lt hround ?_)) (not_le.2 ?_)
    · rw [pow_add]
      exact Nat.mul_lt_mul_of_pos_right hlow (Nat.pow_pos (by decide))
    · have hnum : (num : ℚ) < 2 ^ 52 * 2 ^ k * den := by
        rw [pow_add] at hlt
        exact_mod_cast hlt
      have hm' : (2 ^ 52 + 1 : ℚ) ≤ m := by exact_mod_cast hlow
      rw [div_lt_iff₀ hpos]
      refine hnum.trans (mul_lt_mul_of_pos_right ?_ hpos)
      exact mul_lt_mul_of_pos_right (by linarith) hpow
  · obtain ⟨r, hr, hnearest⟩ := exists_significand hden h
    have hiff := hnearest.ge_iff (m := m) (by exact_mod_cast hm)
    rw [hr, Nat.mul_le_mul_right_iff (Nat.pow_pos (by decide)), ← Nat.cast_le (α := ℤ), hiff,
      le_div_iff₀ hpow, Int.cast_natCast]
  · obtain ⟨hle, hround⟩ := of_lt_log2 hden h
    have hnext : m * 2 ^ k ≤ 2 ^ (53 + k) := by
      rw [pow_add]
      exact Nat.mul_le_mul_right _ hup
    refine iff_of_true (hnext.trans hround) ?_
    have hnum : (m * 2 ^ k * den : ℚ) ≤ num := by
      exact_mod_cast (Nat.mul_le_mul_right den hnext).trans hle
    rw [le_div_iff₀ hpos]
    refine (mul_le_mul_of_nonneg_right ?_ hpos.le).trans hnum
    exact mul_le_mul_of_nonneg_right (by linarith) hpow.le

end Significand

/-! ### Decimals -/

/-- The units that a decimal is rounded to, also where they are too many for a finite
number. -/
def unitsOf (d : Decimal) : Nat :=
  roundSignificand (d.scaled * Nat.pow 2 unitExponent) (Nat.pow 10 d.places)

theorem ofDecimal_eq (d : Decimal) :
    ofDecimal d =
      if unitsOf d < unitsBound then .finite d.negative (unitsOf d)
      else .infinite d.negative :=
  rfl

theorem abs_value_eq (d : Decimal) :
    ((d.scaled * Nat.pow 2 unitExponent : Nat) : ℚ) / (Nat.pow 10 d.places : Nat) =
      |d.value| * 2 ^ unitExponent := by
  have hnonneg : (0 : ℚ) ≤ d.scaled / 10 ^ d.places := by positivity
  rw [Decimal.value_eq, abs_mul, Decimal.abs_signFactor, one_mul, abs_of_nonneg hnonneg,
    Nat.pow_eq, Nat.pow_eq, Nat.cast_mul, Nat.cast_pow, Nat.cast_pow, Nat.cast_ofNat,
    Nat.cast_ofNat, div_mul_eq_mul_div]

/-- A decimal reads as at most `m * 2 ^ k` units, with an even significand `m`, exactly if
its magnitude lies no further than half way to the next number. -/
theorem unitsOf_le_iff (d : Decimal) {m k : Nat} (hm : Even m) (hlow : 2 ^ 52 ≤ m)
    (hup : m < 2 ^ 53) :
    unitsOf d ≤ m * 2 ^ k ↔ |d.value| * 2 ^ unitExponent ≤ (m + 1 / 2) * 2 ^ k := by
  have hden : 0 < Nat.pow 10 d.places := Nat.pow_pos (by decide)
  rw [unitsOf, roundSignificand_le_iff hden hm hlow hup, abs_value_eq]

/-- A decimal reads as at least `m * 2 ^ k` units, with an even significand `m`, exactly if
its magnitude lies at least half way from the number before. -/
theorem le_unitsOf_iff (d : Decimal) {m k : Nat} (hm : Even m) (hlow : 2 ^ 52 < m)
    (hup : m ≤ 2 ^ 53) :
    m * 2 ^ k ≤ unitsOf d ↔ (m - 1 / 2) * 2 ^ k ≤ |d.value| * 2 ^ unitExponent := by
  have hden : 0 < Nat.pow 10 d.places := Nat.pow_pos (by decide)
  rw [unitsOf, le_roundSignificand_iff hden hm hlow hup, abs_value_eq]

/-- Whether the magnitude of what a decimal reads as exceeds a finite number. -/
theorem finite_lt_abs_ofDecimal {limit : Nat} (hlimit : limit < unitsBound) (d : Decimal) :
    lt (.finite false limit) (ofDecimal d).abs = true ↔ limit < unitsOf d := by
  rw [ofDecimal_eq]
  split
  · simp [abs, lt, signedUnits]
  · exact iff_of_true rfl (by omega)

end Binary64

/-! ### Numerals -/

/-- The value of a numeral, with as many digits of its exponent as are read. -/
def Numeral.valueAsRead (n : Numeral) : ℚ :=
  (n.toDecimal ((n.exponent.map Exponent.saturated).getD 0)).value

/-- The value of a literal, with as many digits of its exponent as are read. -/
def Literal.valueAsRead? (l : Text) : Option ℚ := (Numeral.ofText? l).map Numeral.valueAsRead

theorem Literal.exists_valueAsRead? {l : Text} (hl : IsNumber l) :
    ∃ q, valueAsRead? l = some q := by
  obtain ⟨n, hn, hwhole, rfl⟩ := hl
  exact ⟨n.valueAsRead, by rw [valueAsRead?, Numeral.ofText?_text hn hwhole, Option.map_some]⟩

/-- An exponent is read in full unless digits follow when the ceiling is reached. -/
theorem Numeral.valueAsRead_eq {n : Numeral}
    (h : ∀ e, n.exponent = some e → e.value.natAbs < 655360) : n.valueAsRead = n.value := by
  rw [valueAsRead, value]
  cases he : n.exponent with
  | none => rfl
  | some e => rw [Option.map_some, Option.map_some, Exponent.saturated_eq (h e he)]

theorem Literal.valueAsRead?_eq {l : Text}
    (h : ∀ n e, Numeral.ofText? l = some n → n.exponent = some e → e.value.natAbs < 655360) :
    valueAsRead? l = value? l := by
  apply Option.map_congr
  intro n hn
  exact Numeral.valueAsRead_eq fun e he => h n e (Option.mem_def.1 hn) he

end QuizFormula

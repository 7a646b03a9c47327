import QuizFormula.Proofs.Document.Accepted
import QuizFormula.Proofs.Meaning.Threshold
import QuizFormula.Proofs.Translation.Constants
import QuizFormula.Proofs.Translation.Degree

/-!
# Square roots for Moodle

A root becomes a square root if its degree is a number that reads as two, and a power
otherwise. A number reads as two if its value is so near to two that no other double
precision number is nearer (`Moodle.isTwo_iff`). What is written for a root stands in the new
document, unless the root is in the arguments of `pi` (`roots_written`).
-/

namespace QuizFormula

/-! ### Numbers that read as two -/

namespace Binary64

theorem ofDecimal_eq_finite_iff {d : Decimal} {negative : Bool} {units : Nat}
    (h : units < unitsBound) :
    ofDecimal d = .finite negative units ↔ d.negative = negative ∧ unitsOf d = units := by
  rw [ofDecimal, ofRatio_eq_finite_iff, and_iff_left h, unitsOf]

/-- Below two, neighbouring numbers are `2 ^ (-52)` apart. -/
theorem two_le_unitsOf_iff (d : Decimal) :
    2 ^ 53 * 2 ^ 1022 ≤ unitsOf d ↔ 2 - 1 / 2 ^ 53 ≤ |d.value| := by
  have hunit : (2 : ℚ) ^ unitExponent = 2 ^ 52 * 2 ^ 1022 := pow_add 2 52 1022
  rw [le_unitsOf_iff d (by decide) (by decide) (by decide), hunit, ← mul_assoc,
    mul_le_mul_iff_of_pos_right (by positivity)]
  push_cast
  constructor <;> intro h <;> linarith

/-- Above two, neighbouring numbers are `2 ^ (-51)` apart. -/
theorem unitsOf_le_two_iff (d : Decimal) :
    unitsOf d ≤ 2 ^ 52 * 2 ^ 1023 ↔ |d.value| ≤ 2 + 1 / 2 ^ 52 := by
  have hunit : (2 : ℚ) ^ unitExponent = 2 ^ 51 * 2 ^ 1023 := pow_add 2 51 1023
  rw [unitsOf_le_iff d (by decide) (by decide) (by decide), hunit, ← mul_assoc,
    mul_le_mul_iff_of_pos_right (by positivity)]
  push_cast
  constructor <;> intro h <;> linarith

/-- A decimal reads as two if it is no further from two than half way to the next number on
either side. -/
theorem ofDecimal_eq_two_iff (d : Decimal) :
    ofDecimal d = ofNat 2 ↔ 2 - 1 / 2 ^ 53 ≤ d.value ∧ d.value ≤ 2 + 1 / 2 ^ 52 := by
  have hnonneg : (0 : ℚ) ≤ d.scaled / 10 ^ d.places := by positivity
  have htwo : ofNat 2 = .finite false (2 ^ 52 * 2 ^ 1023) := by decide +kernel
  have hbound : 2 ^ 52 * 2 ^ 1023 < unitsBound := by decide +kernel
  have hsame : 2 ^ 53 * 2 ^ 1022 = 2 ^ 52 * 2 ^ 1023 := by decide +kernel
  have hunits : unitsOf d = 2 ^ 52 * 2 ^ 1023 ↔
      2 - 1 / 2 ^ 53 ≤ |d.value| ∧ |d.value| ≤ 2 + 1 / 2 ^ 52 := by
    rw [← two_le_unitsOf_iff, ← unitsOf_le_two_iff, hsame, and_comm, ← le_antisymm_iff]
  rw [htwo, ofDecimal_eq_finite_iff hbound, hunits]
  cases hsign : d.negative with
  | false =>
      have habs : |d.value| = d.value := by
        rw [abs_eq_self, Decimal.value_eq, hsign]
        simpa [Decimal.signFactor] using hnonneg
      rw [habs]
      exact and_iff_right rfl
  | true =>
      have hnonpos : d.value ≤ 0 := by
        rw [Decimal.value_eq, hsign]
        simpa [Decimal.signFactor] using hnonneg
      refine iff_of_false (fun h => absurd h.1 (by decide)) ?_
      rintro ⟨hlow, -⟩
      linarith

end Binary64

namespace Moodle

/-- A number reads as two if its value is no further from two than half way to the next
number on either side. -/
theorem isTwo_iff {l : Text} {q : ℚ} (hq : Literal.valueAsRead? l = some q) :
    isTwo l = true ↔ 2 - 1 / 2 ^ 53 ≤ q ∧ q ≤ 2 + 1 / 2 ^ 52 := by
  obtain ⟨n, hn, rfl⟩ := Option.map_eq_some_iff.1 hq
  rw [isTwo, decide_eq_true_iff, Binary64.ofText?_eq_ofNumeral hn, Option.some.injEq]
  exact Binary64.ofDecimal_eq_two_iff _

/-! ### Where a call is written -/

/-- The arguments of a call stand in what is written for it, unless it is a call of `pi`, or
unless they are a number. -/
theorem infix_call {n t : Text} {ts : List Text} (hpi : n ≠ "pi".toList) (ht : t ∈ ts)
    (hbracket : t.any isBracket = true) : t <:+: call n ts := by
  have hroot : ∀ degree radicand, t ∈ [degree, radicand] → t <:+: root degree radicand := by
    intro degree radicand ht
    rw [List.mem_pair] at ht
    unfold root
    split
    · rename_i htwo
      rcases ht with rfl | rfl
      · -- The degree is left out only where it is a number.
        obtain ⟨n, hn⟩ := exists_ofText?_of_isTwo htwo
        rw [ofText?_eq_none_of_bracket hbracket] at hn
        exact absurd hn (by simp)
      · exact infix_callText _ (List.mem_singleton_self _)
    · rcases ht with rfl | rfl
      · have hargument : t <:+: "1/(".toList ++ (t ++ [')']) :=
          ⟨"1/(".toList, [')'], List.append_assoc _ _ _⟩
        exact hargument.trans (infix_callText _ (by simp))
      · exact infix_callText _ (by simp)
  cases n using name_cases with
  | root =>
      match ts with
      | [degree, radicand] => exact hroot degree radicand ht
      | [] | [_] | _ :: _ :: _ :: _ => exact infix_callText _ ht
  | pow =>
      rw [← exchangePair_exchangePair ts] at ht
      exact infix_callText _ (mem_exchangePair ht)
  | neg => exact (infix_callText [] ht).trans (List.suffix_cons _ _).isInfix
  | clip => exact infix_callText _ ht
  | pi => exact absurd rfl hpi
  | other n hroot hother =>
      rw [call_of_not_mem hroot hother]
      exact infix_callText _ ht

theorem embeds_rendering : rendering.Embeds fun t => t.any isBracket = true where
  pi _ := rfl
  minus _ := (List.suffix_cons _ _).isInfix
  call := infix_call
  of_call := any_isBracket_call
  of_part hpart ht := by
    obtain ⟨c, hc, hbracket⟩ := List.any_eq_true.1 ht
    exact List.any_eq_true.2 ⟨c, hpart.mem hc, hbracket⟩

end Moodle

/-! ### Written roots -/

/-- The formula is a number that is no further from two than half way to the next double
precision number on either side, its exponent counting as far as it is read. -/
def Expr.IsAboutTwo (e : Expr) : Prop :=
  ∃ l q, e = .last (.number l) ∧ Literal.valueAsRead? l = some q ∧
    2 - 1 / 2 ^ 53 ≤ q ∧ q ≤ 2 + 1 / 2 ^ 52

theorem Moodle.isTwo_render_iff {e : Expr} (he : e.WellFormed) :
    isTwo (e.render rendering) = true ↔ e.IsAboutTwo := by
  rw [isTwo_render he]
  constructor
  · intro h
    obtain ⟨l, rfl, htwo⟩ := exists_number_of_isDegreeTwo h
    obtain ⟨q, hq⟩ := Literal.exists_valueAsRead? he
    exact ⟨l, q, rfl, hq, (isTwo_iff hq).1 htwo⟩
  · rintro ⟨l, q, rfl, hq, hnear⟩
    exact (isTwo_iff hq).2 hnear

/-- A root that a document has outside of the arguments of `pi` is written in the new
document: as a square root if its degree is a number about two, and as a power otherwise.
The value of a degree is read in full unless its exponent is huge. -/
theorem roots_written {s : Text} {e : Expr} (he : e ∈ fpBlocks s) {degree radicand : Expr}
    (hc : ("root".toList, Args.cons degree (.cons radicand .nil)) ∈
      (e.rewrite constantPi).calls) :
    ∃ written, written <:+: (translateToMoodle s).text ∧
      (Atom.call "root".toList (.cons degree (.cons radicand .nil))).render Moodle.rendering =
        written ∧
      (degree.IsAboutTwo →
        written = callText "sqrt".toList [radicand.render Moodle.rendering]) ∧
      (¬ degree.IsAboutTwo →
        written = callText "pow".toList [radicand.render Moodle.rendering,
          "1/(".toList ++ (degree.render Moodle.rendering ++ [')'])]) ∧
      ∀ l, degree = .last (.number l) →
        (∀ n x, Numeral.ofText? l = some n → n.exponent = some x → x.value.natAbs < 655360) →
        Literal.valueAsRead? l = Literal.value? l := by
  have hwell := wellFormed_of_mem_fpBlocks he
  have hdegree : degree.WellFormed := (hwell.rewrite_constantPi.of_mem_calls _ hc).1
  have hblock : Moodle.block e <:+: (translateToMoodle s).text := infix_assemble Moodle.block he
  have hformula : e.render Moodle.rendering <:+: Moodle.block e :=
    ⟨Dialect.moodle.opener, ['}'], List.append_assoc _ _ _⟩
  have hcall := Moodle.embeds_rendering.infix_render hwell _ hc
  refine ⟨_, hcall.trans (hformula.trans hblock), rfl, ?_, ?_,
    fun _ _ => Literal.valueAsRead?_eq⟩
  · intro htwo
    exact if_pos ((Moodle.isTwo_render_iff hdegree).2 htwo)
  · intro htwo
    exact if_neg fun h => htwo ((Moodle.isTwo_render_iff hdegree).1 h)

/-- A degree with a sign, a point and an exponent. -/
theorem roots_written_signed :
    ∃ e ∈ fpBlocks r"fp{3-root(+2.0e0,x)}".toList,
      ("root".toList, Args.cons (.last (.number "+2.0e0".toList))
        (.cons (.last (.wildcard "x".toList)) .nil)) ∈ (e.rewrite constantPi).calls ∧
      r"sqrt({x})".toList <:+:
        (translateToMoodle r"fp{3-root(+2.0e0,x)}".toList).text := by
  let call : Atom := .call "root".toList (.cons (.last (.number "+2.0e0".toList))
    (.cons (.last (.wildcard "x".toList)) .nil))
  have he : Expr.chain (.number ['3']) .sub (.last call) ∈
      fpBlocks r"fp{3-root(+2.0e0,x)}".toList := by
    decide +kernel
  refine ⟨_, he, List.mem_singleton_self _, ?_⟩
  obtain ⟨written, hpart, -, hsqrt, -⟩ := roots_written he (List.mem_singleton_self _)
  rw [hsqrt ⟨_, 2, rfl, by decide +kernel, by norm_num, by norm_num⟩] at hpart
  exact hpart

/-- A degree that is not two, and a square root is written all the same. -/
theorem roots_near_two :
    IsNumber "2.0000000000000001".toList ∧
      Literal.value? "2.0000000000000001".toList = some (2 + 1 / 10 ^ 16) ∧
      (translateToMoodle r"fp{root(2.0000000000000001,x)}".toList).text =
        r"{=sqrt({x})}".toList := by
  decide +kernel

end QuizFormula

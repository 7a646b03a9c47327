import QuizFormula.Proofs.Grammar.WellFormed
import QuizFormula.Proofs.Translation.Names

/-!
# Degrees of roots

Whether a root has degree two is decided by the written degree. A formula that is no
single number is never written as a numeral, since it has a parenthesis, a brace or an
operator in it. So the written degree is that of a number literal
(`Moodle.isTwo_render`).
-/

namespace QuizFormula

/-- What goes on after a number is no part of a numeral. -/
theorem Numeral.ofText?_append_eq_none {l r : Text} (hl : IsNumber l) (hr : AtBoundary r)
    (hne : r ≠ []) : Numeral.ofText? (l ++ r) = none := by
  obtain ⟨n, hn, hwhole, rfl⟩ := hl
  unfold ofText?
  rw [scan_text_append hn hwhole hr]
  split
  · rename_i heq
    exact absurd (Prod.mk.inj heq).2 hne
  · rfl

namespace Moodle

/-- The characters of which one is in every written atom other than a number. -/
def isBracket (c : Char) : Bool := c = '(' || c = '{'

theorem ofText?_eq_none_of_bracket {t : Text} (h : t.any isBracket = true) :
    Numeral.ofText? t = none := by
  cases hread : Numeral.ofText? t with
  | none => rfl
  | some n =>
      obtain ⟨c, hc, hbracket⟩ := List.any_eq_true.1 h
      rw [← Numeral.text_of_ofText? hread] at hc
      simp only [isBracket, Bool.or_eq_true, decide_eq_true_eq] at hbracket
      have hwell := Numeral.wellFormed_of_ofText? hread
      rcases hbracket with rfl | rfl
      all_goals exact absurd hc (hwell.not_mem_text (by decide) (by decide))

theorem any_isBracket_callText (n : Text) (ts : List Text) :
    (callText n ts).any isBracket = true := by
  simp [callText, isBracket]

theorem any_isBracket_call (n : Text) (ts : List Text) :
    (call n ts).any isBracket = true := by
  have hroot : ∀ d x, (root d x).any isBracket = true := by
    intro d x
    unfold root
    split <;> exact any_isBracket_callText _ _
  cases n using name_cases with
  | root =>
      match ts with
      | [degree, radicand] => exact hroot degree radicand
      | [] | [_] | _ :: _ :: _ :: _ => exact any_isBracket_callText _ _
  | pow => exact any_isBracket_callText _ _
  | neg =>
      change ('-' :: callText [] ts).any isBracket = true
      rw [List.any_cons, any_isBracket_callText, Bool.or_true]
  | clip => exact any_isBracket_callText _ _
  | pi => exact (by decide : pi.any isBracket = true)
  | other n hroot hother =>
      rw [call_of_not_mem hroot hother]
      exact any_isBracket_callText _ _

theorem any_isBracket_render : ∀ {a : Atom}, a.WellFormed → a.isNumber = false →
    (a.render rendering).any isBracket = true
  | .number _, _, h => absurd h (by simp [Atom.isNumber])
  | .wildcard n, _, _ => by
      simp only [Atom.render, rendering]
      split
      · decide
      · simp [isBracket]
  | .group _, _, _ => by simp [Atom.render, isBracket]
  | .call _ _, _, _ => any_isBracket_call _ _
  | .minus _, ha, _ => by
      have hinner := any_isBracket_render ha.1 ha.2
      simp only [Atom.render, rendering, List.any_cons] at hinner ⊢
      rw [hinner, Bool.or_true]

/-- What is written for a formula is a numeral only if the formula is a number. -/
theorem exists_number_of_ofText?_render {e : Expr} (he : e.WellFormed) {n : Numeral}
    (h : Numeral.ofText? (e.render rendering) = some n) : ∃ l, e = .last (.number l) := by
  have hatom : ∀ {a : Atom} {r : Text}, a.WellFormed →
      Numeral.ofText? (a.render rendering ++ r) = some n → ∃ l, a = .number l := by
    intro a r ha hread
    by_cases hnumber : a.isNumber = true
    · cases a with
      | number l => exact ⟨l, rfl⟩
      | _ => simp [Atom.isNumber] at hnumber
    · have hbracket := any_isBracket_render ha (Bool.eq_false_iff.2 hnumber)
      rw [ofText?_eq_none_of_bracket] at hread
      · simp at hread
      · rw [List.any_append, hbracket, Bool.true_or]
  cases e with
  | last a =>
      obtain ⟨l, rfl⟩ := hatom (r := []) he (by rwa [List.append_nil])
      exact ⟨l, rfl⟩
  | chain a op e =>
      -- A number in front is scanned to its end, and the operator is left over.
      obtain ⟨l, rfl⟩ := hatom he.1 h
      have hboundary : AtBoundary (op.char :: e.render rendering) :=
        (stops_cons _ _ _).2 op.isTokenChar_char
      change Numeral.ofText? (l ++ op.char :: e.render rendering) = some n at h
      rw [Numeral.ofText?_append_eq_none he.1 hboundary (List.cons_ne_nil _ _)] at h
      simp at h

theorem exists_ofText?_of_isTwo {t : Text} (h : isTwo t = true) :
    ∃ n, Numeral.ofText? t = some n := by
  have htwo : ∀ negative, Binary64.ofNat 2 ≠ .infinite negative := by
    intro negative
    cases negative <;> decide +kernel
  have hnan : Binary64.ofNat 2 ≠ .nan := by decide +kernel
  have hword : ∀ negative word, Binary64.ofWord? negative word ≠ some (Binary64.ofNat 2) := by
    intro negative word hread
    simp only [Binary64.ofWord?] at hread
    split at hread
    · exact htwo negative (Option.some.inj hread).symm
    · split at hread
      · exact hnan (Option.some.inj hread).symm
      · simp at hread
  cases hread : Numeral.ofText? t with
  | some n => exact ⟨n, rfl⟩
  | none =>
      have htext := of_decide_eq_true h
      simp only [Binary64.ofText?, hread] at htext
      exact absurd htext (hword _ _)

/-- Whether a formula is a number that reads as two. -/
def isDegreeTwo : Expr → Bool
  | .last (.number l) => isTwo l
  | _ => false

theorem exists_number_of_isDegreeTwo {e : Expr} (h : isDegreeTwo e = true) :
    ∃ l, e = .last (.number l) ∧ isTwo l = true := by
  unfold isDegreeTwo at h
  split at h
  · exact ⟨_, rfl, h⟩
  · simp at h

/-- A written degree reads as two if and only if the degree is a number that does. -/
theorem isTwo_render {e : Expr} (he : e.WellFormed) :
    isTwo (e.render rendering) = isDegreeTwo e := by
  rw [Bool.eq_iff_iff]
  constructor
  · intro h
    obtain ⟨n, hn⟩ := exists_ofText?_of_isTwo h
    obtain ⟨l, rfl⟩ := exists_number_of_ofText?_render he hn
    exact h
  · intro h
    obtain ⟨l, rfl, hl⟩ := exists_number_of_isDegreeTwo h
    exact hl

end Moodle

end QuizFormula

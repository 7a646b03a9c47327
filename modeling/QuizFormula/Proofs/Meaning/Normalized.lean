import QuizFormula.Proofs.Meaning.Fixed

/-!
# Normalizing once is enough

What a literal is rewritten as has no exponent, and a text without an exponent is kept
whatever it is: a number, one of the words for numbers, or anything else. A text that is
kept with its exponent is kept by all options. So a text that has been normalized is not
changed any more (`Literal.normalize_normalize`).
-/

namespace QuizFormula

theorem Numeral.mem_of_exponent {l : Text} {n : Numeral} {e : Exponent}
    (hn : ofText? l = some n) (he : n.exponent = some e) : 'e' ∈ l ∨ 'E' ∈ l := by
  have hmark : e.mark ∈ l := by
    rw [← text_of_ofText? hn, text, he, exponentText, Exponent.text]
    exact List.mem_append_right _ List.mem_cons_self
  rcases ((wellFormed_of_ofText? hn).exponent e he).mark with h | h <;> rw [h] at hmark
  · exact .inl hmark
  · exact .inr hmark

theorem Decimal.not_mem_toPlain (d : Decimal) : 'e' ∉ d.toPlain ∧ 'E' ∉ d.toPlain :=
  ⟨d.isPlain_toPlain.not_mem (by decide) (by decide),
    d.isPlain_toPlain.not_mem (by decide) (by decide)⟩

namespace Literal

theorem text_of_not_mem (precision : Nat) {l : Text} (he : 'e' ∉ l) (hE : 'E' ∉ l) :
    text precision l = l := by
  cases hn : Numeral.ofText? l with
  | none => exact text_of_ofText?_eq_none precision hn
  | some n =>
      cases hx : n.exponent with
      | none => exact text_of_exponent_eq_none precision hn hx
      | some e => exact absurd (Numeral.mem_of_exponent hn hx) (not_or.2 ⟨he, hE⟩)

theorem writtenOut_eq_or (l : Text) {n : Numeral} (hn : n.WellFormed) (e : Exponent)
    (x : Binary64) :
    (∀ precision, writtenOut precision l n e x = l) ∨
      ∀ precision, 'e' ∉ writtenOut precision l n e x ∧ 'E' ∉ writtenOut precision l n e x := by
  -- What is no finite number is kept or expanded, whatever the precision is.
  have hbeyond : (expanded? n e.value).getD l = l ∨
      'e' ∉ (expanded? n e.value).getD l ∧ 'E' ∉ (expanded? n e.value).getD l := by
    rw [expanded?_eq hn]
    split
    · exact .inr (Decimal.not_mem_toPlain _)
    · exact .inl rfl
  cases x with
  | finite negative units => exact .inr fun _ => Decimal.not_mem_toPlain _
  | infinite negative => exact hbeyond.imp (fun h _ => h) (fun h _ => h)
  | nan => exact hbeyond.imp (fun h _ => h) (fun h _ => h)

/-- A literal is kept whatever the precision is, or rewritten without an exponent. -/
theorem text_eq_or (l : Text) :
    (∀ precision, text precision l = l) ∨
      ∀ precision, 'e' ∉ text precision l ∧ 'E' ∉ text precision l := by
  cases hn : Numeral.ofText? l with
  | none => exact .inl fun precision => text_of_ofText?_eq_none precision hn
  | some n =>
      cases hx : n.exponent with
      | none => exact .inl fun precision => text_of_exponent_eq_none precision hn hx
      | some e =>
          simp only [text_of_exponent_eq_some _ hn hx]
          exact writtenOut_eq_or l (Numeral.wellFormed_of_ofText? hn) e _

/-- A literal is kept or rewritten without an exponent, and what comes out is kept by all
options. -/
theorem normalize_normalize (o o' : Options) (l : Text) :
    ((normalize o l).1 = l ∨ 'e' ∉ (normalize o l).1 ∧ 'E' ∉ (normalize o l).1) ∧
      (normalize o' (normalize o l).1).1 = (normalize o l).1 := by
  change (text o.fixedPrecision l = l ∨
      'e' ∉ text o.fixedPrecision l ∧ 'E' ∉ text o.fixedPrecision l) ∧
    text o'.fixedPrecision (text o.fixedPrecision l) = text o.fixedPrecision l
  rcases text_eq_or l with hkept | hrewritten
  · rw [hkept]
    exact ⟨.inl rfl, hkept _⟩
  · obtain ⟨he, hE⟩ := hrewritten o.fixedPrecision
    exact ⟨.inr ⟨he, hE⟩, text_of_not_mem _ he hE⟩

end Literal

end QuizFormula

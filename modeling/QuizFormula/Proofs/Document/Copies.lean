import QuizFormula.Proofs.Document.Inert

/-!
# Documents with some parts replaced

`Copies X s y` says that `y` is the document `s` with some of its parts replaced: a part
`u` by a text `x` with `X u x`, while all other characters are copied. Characters that no
such `x` begins with are in `y` only where they are copied from `s`
(`Copies.exists_append`).

In a Moodle document spans of math are kept, and other parts are replaced by inert texts
that begin with a backslash (`Replaces`). Then no delimiter of math and no wildcard is
completed or broken where copied text meets another part.
-/

namespace QuizFormula

/-- The text `y` is the text `s` with parts replaced as `X` allows. -/
inductive Copies (X : Text → Text → Prop) : Text → Text → Prop
  | nil : Copies X [] []
  | part {u x s y : Text} (hx : X u x) (h : Copies X s y) : Copies X (u ++ s) (x ++ y)
  | char {s y : Text} (c : Char) (h : Copies X s y) : Copies X (c :: s) (c :: y)

/-- No text that takes the place of a part begins with the character `d`. -/
def NeverBegins (X : Text → Text → Prop) (d : Char) : Prop :=
  ∀ u x, X u x → ∃ c t, x = c :: t ∧ c ≠ d

section Copies

variable {X : Text → Text → Prop}

/-- A character is copied, or it begins a text that takes the place of a part. -/
theorem Copies.exists_cons_or {s y : Text} {d : Char} (h : Copies X s (d :: y)) :
    (∃ t, s = d :: t ∧ Copies X t y) ∨ ∃ u x, X u x ∧ x <+: d :: y := by
  generalize hz : d :: y = z at h ⊢
  cases h with
  | nil => exact absurd hz (List.cons_ne_nil d y)
  | part hx h => exact .inr ⟨_, _, hx, List.prefix_append _ _⟩
  | char c h =>
      obtain ⟨rfl, rfl⟩ := List.cons.inj hz
      exact .inl ⟨_, rfl, h⟩

theorem Copies.exists_cons {s y : Text} {d : Char} (hd : NeverBegins X d)
    (h : Copies X s (d :: y)) : ∃ t, s = d :: t ∧ Copies X t y := by
  rcases h.exists_cons_or with hcopied | ⟨u, x, hx, hprefix⟩
  · exact hcopied
  · obtain ⟨c, t, rfl, hc⟩ := hd u x hx
    exact absurd (List.cons_prefix_cons.1 hprefix).1 hc

/-- Characters that begin no replaced part are copied. -/
theorem Copies.exists_append {w s y : Text} (hw : ∀ d ∈ w, NeverBegins X d)
    (h : Copies X s (w ++ y)) : ∃ t, s = w ++ t ∧ Copies X t y := by
  induction w generalizing s with
  | nil => exact ⟨s, rfl, h⟩
  | cons d w ih =>
      obtain ⟨hd, hw⟩ := List.forall_mem_cons.1 hw
      obtain ⟨t, rfl, ht⟩ := h.exists_cons hd
      obtain ⟨t', rfl, ht'⟩ := ih hw ht
      exact ⟨t', rfl, ht'⟩

end Copies

/-! ### Moodle documents -/

/-- What may take the place of a part of a Moodle document: a span of math stays as it is,
and any other part becomes an inert text that begins with a backslash. -/
inductive Replaces : Text → Text → Prop
  | math {a r : Text} (h : mathSpan? (a ++ r) = some (a, r)) : Replaces a a
  | written {u x : Text} (hx : Inert x) (hhead : x.head? = some '\\') : Replaces u x

theorem Replaces.exists_cons {u x : Text} (h : Replaces u x) :
    ∃ c t, x = c :: t ∧ (c = '$' ∨ c = '\\') := by
  cases h with
  | math h =>
      obtain ⟨d, hd, t, rfl, -⟩ := exists_eq_of_mathSpan? h
      obtain ⟨q, o, k, hopen, -⟩ := exists_isDelimiter hd
      rw [hopen.pair]
      exact ⟨q, o :: t, rfl, hopen.first⟩
  | written hx hhead =>
      obtain ⟨t, rfl⟩ := List.head?_eq_some_iff.1 hhead
      exact ⟨'\\', t, rfl, .inr rfl⟩

theorem neverBegins_of_ne {d : Char} (hdollar : d ≠ '$') (hslash : d ≠ '\\') :
    NeverBegins Replaces d := by
  intro u x h
  obtain ⟨c, t, hx, hc⟩ := h.exists_cons
  refine ⟨c, t, hx, ?_⟩
  rintro rfl
  rcases hc with rfl | rfl
  · exact hdollar rfl
  · exact hslash rfl

theorem neverBegins_of_isMark {d : Char} (h : isMark d = false) : NeverBegins Replaces d := by
  apply neverBegins_of_ne
  · rintro rfl
    exact absurd h (by decide)
  · rintro rfl
    exact absurd h (by decide)

namespace Copies

variable {s t y : Text}

/-- Only backslashes are written where the document has something else. -/
theorem head?_eq {d : Char} (hd : d ≠ '\\') (h : Copies Replaces s y)
    (hy : y.head? = some d) : s.head? = some d := by
  cases h with
  | nil => exact hy
  | part hx h =>
      obtain ⟨c, t, rfl, -⟩ := hx.exists_cons
      cases hx with
      | math hmath => exact hy
      | written hinert hhead =>
          rw [List.cons_append, List.head?_cons] at hy
          rw [List.head?_cons] at hhead
          exact absurd (Option.some.inj (hy.symm.trans hhead)) hd
  | char c h => exact hy

/-- A pair of characters in `a ++ x` is in `a ++ y` if it is in `y` whenever it is in
`x`, and if `y` begins with the second one whenever `x` does. -/
theorem infix_append_of_infix {q k : Char} {a x y : Text}
    (hhead : x.head? = some k → y.head? = some k) (hpair : [q, k] <:+: x → [q, k] <:+: y)
    (h : [q, k] <:+: a ++ x) : [q, k] <:+: a ++ y := by
  induction a with
  | nil => exact hpair h
  | cons c a ih =>
      rw [List.cons_append, List.infix_cons_iff] at h ⊢
      rcases h with h | h
      · left
        rw [List.cons_prefix_cons] at h ⊢
        refine ⟨h.1, ?_⟩
        cases a with
        | nil =>
            obtain ⟨u, hu⟩ := h.2
            have hx : x.head? = some k := by
              rw [← List.nil_append x, ← hu]
              rfl
            obtain ⟨v, rfl⟩ := List.head?_eq_some_iff.1 (hhead hx)
            exact ⟨v, rfl⟩
        | cons b a =>
            rw [List.cons_append, List.cons_prefix_cons] at h ⊢
            exact ⟨h.2.1, List.nil_prefix⟩
      · exact .inr (ih h)

/-- No closing delimiter is written that the document does not have. -/
theorem isInfix {d : Text} {q k : Char} (hd : IsDelimiter d q k) (h : Copies Replaces s y)
    (hy : d <:+: y) : d <:+: s := by
  induction h with
  | nil => exact hy
  | @part u x s y hx h ih =>
      cases hx with
      | math hmath =>
          rw [hd.pair] at hy ih ⊢
          exact infix_append_of_infix (h.head?_eq hd.second.1) ih hy
      | written hinert hhead =>
          -- The delimiter is not in what is written for the part, so it comes after it.
          exact (ih (infix_of_inert_append hd hinert hy)).trans (List.suffix_append u s).isInfix
  | @char s y c h ih =>
      rw [hd.pair] at hy ih ⊢
      exact infix_append_of_infix (a := [c]) (h.head?_eq hd.second.1) ih hy

/-- No math begins where a character is copied. -/
theorem mathSpan?_cons {c : Char} (h : Copies Replaces t y) (hnone : mathSpan? (c :: t) = none) :
    mathSpan? (c :: y) = none := by
  rw [mathSpan?_eq_none_iff] at hnone ⊢
  intro d hd u hu hclose
  obtain ⟨q, o, k, hopen, hend⟩ := exists_isDelimiter hd
  rw [hopen.pair] at hu
  obtain ⟨rfl, hy⟩ := List.cons.inj hu
  have hopened : ∀ w, t = o :: w → ¬ d.2 <:+: w := by
    intro w hw
    apply hnone d hd w
    rw [hopen.pair, hw]
    rfl
  by_cases hdollar : o = '$'
  · -- What begins with a dollar sign may be math that is kept, but then there is a closing
    -- delimiter right in it, and the first dollar sign would have opened math before.
    subst hdollar
    cases h with
    | nil => exact absurd hy.symm (List.cons_ne_nil _ _)
    | part hx h =>
        cases hx with
        | math hmath =>
            obtain ⟨d', hd', x, rfl, hclose'⟩ := exists_eq_of_mathSpan? hmath
            obtain ⟨q', o', k', hopen', hend'⟩ := exists_isDelimiter hd'
            rw [hopen'.pair] at hy hopened
            obtain ⟨rfl, -⟩ := List.cons.inj hy
            apply hopened _ rfl
            rw [hend.pair, hopen.dollar.2 rfl, hend.dollar.1 (hopen.dollar.2 rfl)]
            rw [hend'.pair, hend'.dollar.1 rfl] at hclose'
            exact hclose'.trans (List.infix_append [o'] x _)
        | written hinert hhead =>
            obtain ⟨x, rfl⟩ := List.head?_eq_some_iff.1 hhead
            exact absurd (List.cons.inj hy).1 (by decide)
    | char c h =>
        obtain ⟨rfl, rfl⟩ := List.cons.inj hy
        exact hopened _ rfl (h.isInfix hend hclose)
  · subst hy
    obtain ⟨w, rfl, hw⟩ := h.exists_cons (neverBegins_of_ne hdollar hopen.second.1)
    exact hopened w rfl (hw.isInfix hend hclose)

/-- No wildcard begins where a character is copied. -/
theorem bracedName?_cons {c : Char} (h : Copies Replaces t y)
    (hnone : bracedName? (c :: t) = none) : bracedName? (c :: y) = none := by
  cases hread : bracedName? (c :: y) with
  | none => rfl
  | some x =>
      obtain ⟨u, hu, hname⟩ := (bracedName?_eq_some_iff _ x.1 x.2).1 hread
      obtain ⟨rfl, rfl⟩ := List.cons.inj hu
      have hn := isName_of_name? hname
      have hchars : ∀ d ∈ x.1 ++ ['}'], NeverBegins Replaces d := by
        intro d hd
        apply neverBegins_of_isMark
        rcases List.mem_append.1 hd with hd | hd
        · exact isMark_eq_false_of_isNameChar (hn.isNameChar d hd)
        · rw [List.mem_singleton.1 hd]
          decide
      have hy : y = (x.1 ++ ['}']) ++ x.2 := by
        rw [← append_eq_of_name? hname]
        simp
      obtain ⟨v, rfl, -⟩ := (hy ▸ h).exists_append hchars
      rw [List.append_assoc, List.singleton_append, bracedName?_append hn] at hnone
      simp at hnone

end Copies

end QuizFormula

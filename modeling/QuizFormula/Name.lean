import QuizFormula.Dialect

/-!
# Names

Variables and functions are called by names: an ASCII letter, then ASCII letters,
digits and underscores. `name?` reads the longest name at the start of a text, and
`bracedName?` reads a name between braces with nothing else between them.
`macroName?` reads a TeX macro, whose name has letters and digits only and is ended
by a blank. The macro for the number pi needs no such blank.
-/

namespace QuizFormula

/-- The characters that may continue a name. -/
def isNameChar (c : Char) : Bool := c.isAlphanum || c = '_'

/-- The longest name at the start of the text, and the rest. -/
def name? : Text → Option (Text × Text)
  | [] => none
  | c :: s =>
    if c.isAlpha then some (c :: s.takeWhile isNameChar, s.dropWhile isNameChar) else none

/-- The name in `{name}` at the start of the text, and the rest. Blanks inside the
braces are not allowed. -/
def bracedName? : Text → Option (Text × Text)
  | '{' :: s =>
    match name? s with
    | some (n, '}' :: r) => some (n, r)
    | _ => none
  | _ => none

/-- The name of the TeX macro for the number pi. -/
def piMacro : Text := "FPpi".toList

/-- The name of the TeX macro at the start of the text, and the rest. -/
def macroName? : Text → Option (Text × Text)
  | '\\' :: s =>
    let n := s.takeWhile Char.isAlphanum
    if n = piMacro then some (n, s.dropWhile Char.isAlphanum)
    else if n = [] then none
    else
      match s.dropWhile Char.isAlphanum with
      | ' ' :: r => some (n, r)
      | _ => none
  | _ => none

/-- The name of a wildcard that is marked as one, and the rest. A bare wildcard has no
mark that tells it from a function. -/
def markedName? : WildcardStyle → Text → Option (Text × Text)
  | .braced => bracedName?
  | .bare => fun _ => none
  | .tex => macroName?

theorem append_eq_of_name? {s n r : Text} (h : name? s = some (n, r)) : n ++ r = s := by
  cases s with
  | nil => simp [name?] at h
  | cons c t =>
    by_cases hc : c.isAlpha
    · simp only [name?, hc, if_true, Option.some.injEq, Prod.mk.injEq] at h
      rw [← h.1, ← h.2, List.cons_append, List.takeWhile_append_dropWhile]
    · simp [name?, hc] at h

theorem ne_nil_of_name? {s n r : Text} (h : name? s = some (n, r)) : n ≠ [] := by
  cases s with
  | nil => simp [name?] at h
  | cons c t =>
    by_cases hc : c.isAlpha
    · simp only [name?, hc, if_true, Option.some.injEq, Prod.mk.injEq] at h
      simp [← h.1]
    · simp [name?, hc] at h

theorem length_lt_of_name? {s n r : Text} (h : name? s = some (n, r)) :
    r.length < s.length := by
  have hs := append_eq_of_name? h
  have hn := List.length_pos_iff.2 (ne_nil_of_name? h)
  rw [← hs, List.length_append]
  omega

theorem bracedName?_eq_some_iff (s n r : Text) :
    bracedName? s = some (n, r) ↔ ∃ t, s = '{' :: t ∧ name? t = some (n, '}' :: r) := by
  unfold bracedName?
  split
  · split
    · simp_all
    · simp_all
  · simp_all

theorem length_lt_of_bracedName? {s n r : Text} (h : bracedName? s = some (n, r)) :
    r.length < s.length := by
  obtain ⟨t, rfl, ht⟩ := (bracedName?_eq_some_iff s n r).1 h
  have hlt := length_lt_of_name? ht
  simp only [List.length_cons] at hlt ⊢
  omega

theorem length_lt_of_macroName? {s n r : Text} (h : macroName? s = some (n, r)) :
    r.length < s.length := by
  unfold macroName? at h
  split at h
  · rename_i t
    have hle : (t.dropWhile Char.isAlphanum).length ≤ t.length :=
      (List.dropWhile_suffix Char.isAlphanum).length_le
    simp only at h
    split at h
    · cases h
      simp only [List.length_cons]
      omega
    · split at h
      · simp at h
      · split at h
        · rename_i u hu
          cases h
          rw [hu, List.length_cons] at hle
          simp only [List.length_cons]
          omega
        · simp at h
  · simp at h

theorem length_lt_of_markedName? {w : WildcardStyle} {s n r : Text}
    (h : markedName? w s = some (n, r)) : r.length < s.length := by
  cases w with
  | braced => exact length_lt_of_bracedName? h
  | bare => simp [markedName?] at h
  | tex => exact length_lt_of_macroName? h

end QuizFormula

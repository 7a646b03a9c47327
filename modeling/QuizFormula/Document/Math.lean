import QuizFormula.Document.Segment

/-!
# Math in documents

TeX math is full of braces that are no blocks and no wildcards, so Moodle documents
keep it as it is. A span of math goes from an opening delimiter to the first closing
one after it, both included. An opening delimiter that is never closed is plain text.
-/

namespace QuizFormula

/-- The opening delimiters of math, each with its closing one. -/
def mathDelimiters : List (Text × Text) :=
  [(['$', '$'], ['$', '$']), (['\\', '('], ['\\', ')']), (['\\', '['], ['\\', ']'])]

/-- The text up to and including the first `close`, and the rest. -/
def through? (close : Text) : Text → Option (Text × Text)
  | [] => if close = [] then some ([], []) else none
  | c :: s =>
    match close.isPrefixOf? (c :: s) with
    | some r => some (close, r)
    | none => (through? close s).map fun x => (c :: x.1, x.2)

/-- A span of math between two delimiters at the start of a text, and the rest. -/
def delimited? (opening close s : Text) : Option (Text × Text) :=
  match opening.isPrefixOf? s with
  | none => none
  | some t => (through? close t).map fun x => (opening ++ x.1, x.2)

def mathSpan? (s : Text) : Option (Text × Text) :=
  mathDelimiters.findSome? fun d => delimited? d.1 d.2 s

theorem length_le_of_through? {close s a r : Text} (h : through? close s = some (a, r)) :
    r.length ≤ s.length := by
  induction s generalizing a with
  | nil =>
    simp only [through?] at h
    split at h
    · cases h
      exact Nat.le_refl 0
    · simp at h
  | cons c s ih =>
    simp only [through?] at h
    split at h
    · rename_i t ht
      cases h
      rw [length_of_isPrefixOf? ht]
      exact Nat.le_add_left r.length close.length
    · obtain ⟨⟨a', r'⟩, hx, heq⟩ := Option.map_eq_some_iff.1 h
      cases heq
      exact Nat.le_succ_of_le (ih hx)

theorem length_lt_of_delimited? {opening close s a r : Text} (hne : opening ≠ [])
    (h : delimited? opening close s = some (a, r)) : r.length < s.length := by
  unfold delimited? at h
  split at h
  · simp at h
  · rename_i t ht
    obtain ⟨⟨a', r'⟩, hx, heq⟩ := Option.map_eq_some_iff.1 h
    cases heq
    have hs := length_of_isPrefixOf? ht
    have hle := length_le_of_through? hx
    have hpos := List.length_pos_iff.2 hne
    show r'.length < s.length
    omega

theorem length_lt_of_mathSpan? {s a r : Text} (h : mathSpan? s = some (a, r)) :
    r.length < s.length := by
  obtain ⟨d, hd, hs⟩ := List.exists_of_findSome?_eq_some h
  refine length_lt_of_delimited? ?_ hs
  simp only [mathDelimiters, List.mem_cons, List.not_mem_nil, or_false] at hd
  rcases hd with rfl | rfl | rfl <;> simp

/-- The pattern of math, which copies what it finds. -/
def math (α : Type) : Pattern (Segment α) where
  read? s := (mathSpan? s).map fun x => (.copied x.1, x.2)
  shorter h := by
    obtain ⟨⟨a, r⟩, hx, heq⟩ := Option.map_eq_some_iff.1 h
    cases heq
    exact length_lt_of_mathSpan? hx

end QuizFormula

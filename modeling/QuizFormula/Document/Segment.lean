import QuizFormula.Pattern

/-!
# Documents in segments

A document is split from left to right into segments: at each place a pattern either
finds a value or says how much is copied, and where it reads nothing one character
is copied. The document is put together again from the texts of its segments, and
the values that were found are listed in their order.
-/

namespace QuizFormula

/-- A part of a document: text that is copied, or a value that was found. -/
inductive Segment (α : Type) where
  | copied (text : Text)
  | found (value : α)

namespace Segment

/-- The text of a segment, where `f` writes the values. -/
def text {α : Type} (f : α → Text) : Segment α → Text
  | copied t => t
  | found a => f a

def value? {α : Type} : Segment α → Option α
  | copied _ => none
  | found a => some a

end Segment

/-- The segments of a document. -/
def segments {α : Type} (p : Pattern (Segment α)) : Text → List (Segment α)
  | [] => []
  | c :: t =>
    match _ : p.read? (c :: t) with
    | some (g, r) => g :: segments p r
    | none => .copied [c] :: segments p t
termination_by s => s.length
decreasing_by
  · exact p.shorter ‹p.read? (c :: t) = some (g, r)›
  · simp

/-- The document that segments make up, where `f` writes the values. -/
def assemble {α : Type} (f : α → Text) (gs : List (Segment α)) : Text :=
  gs.flatMap (Segment.text f)

def foundValues {α : Type} (gs : List (Segment α)) : List α :=
  gs.filterMap Segment.value?

@[simp] theorem segments_nil {α : Type} (p : Pattern (Segment α)) : segments p [] = [] := by
  rw [segments]

theorem segments_of_read? {α : Type} {p : Pattern (Segment α)} {s r : Text} {g : Segment α}
    (h : p.read? s = some (g, r)) : segments p s = g :: segments p r := by
  cases s with
  | nil => simp at h
  | cons c t =>
    rw [segments]
    split
    · rename_i g' r' h'
      rw [h] at h'
      cases h'
      rfl
    · rename_i h'
      rw [h] at h'
      cases h'

theorem segments_cons_of_read?_eq_none {α : Type} {p : Pattern (Segment α)} {c : Char}
    {s : Text} (h : p.read? (c :: s) = none) :
    segments p (c :: s) = .copied [c] :: segments p s := by
  rw [segments]
  split
  · rename_i h'
    rw [h] at h'
    cases h'
  · rfl

@[simp] theorem assemble_nil {α : Type} (f : α → Text) : assemble f [] = [] := rfl

@[simp] theorem assemble_cons {α : Type} (f : α → Text) (g : Segment α)
    (gs : List (Segment α)) : assemble f (g :: gs) = g.text f ++ assemble f gs := by
  simp [assemble]

theorem assemble_append {α : Type} (f : α → Text) (gs hs : List (Segment α)) :
    assemble f (gs ++ hs) = assemble f gs ++ assemble f hs := by
  simp [assemble]

theorem foundValues_append {α : Type} (gs hs : List (Segment α)) :
    foundValues (gs ++ hs) = foundValues gs ++ foundValues hs := by
  simp [foundValues]

end QuizFormula

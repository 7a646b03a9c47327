import QuizFormula.Text

/-!
# Sets of wildcards

The wildcards that a translator has met are kept in the order of their names, each
one once. A name counts as smaller than another one if it comes first in a
dictionary by code points.
-/

namespace QuizFormula

/-- A sorted list of names with one more name, unless it is there already. -/
def insertName (n : Text) : List Text → List Text
  | [] => [n]
  | m :: ms =>
    if n < m then n :: m :: ms
    else if n = m then m :: ms
    else m :: insertName n ms

theorem mem_insertName (a n : Text) (ms : List Text) :
    a ∈ insertName n ms ↔ a = n ∨ a ∈ ms := by
  induction ms with
  | nil => simp [insertName]
  | cons m ms ih =>
    simp only [insertName]
    split
    · simp
    · split
      · rename_i h
        subst h
        simp
      · simp only [List.mem_cons, ih]
        constructor
        · rintro (h | h | h)
          · exact Or.inr (Or.inl h)
          · exact Or.inl h
          · exact Or.inr (Or.inr h)
        · rintro (h | h | h)
          · exact Or.inr (Or.inl h)
          · exact Or.inl h
          · exact Or.inr (Or.inr h)

theorem pairwise_insertName (n : Text) {ms : List Text} (h : ms.Pairwise (· < ·)) :
    (insertName n ms).Pairwise (· < ·) := by
  induction ms with
  | nil => simp [insertName]
  | cons m ms ih =>
    have hm := List.pairwise_cons.1 h
    simp only [insertName]
    split
    · rename_i hnm
      refine List.pairwise_cons.2 ⟨fun a ha => ?_, h⟩
      rcases List.mem_cons.1 ha with rfl | ha
      · exact hnm
      · exact List.lt_trans hnm (hm.1 a ha)
    · rename_i hnm
      split
      · exact h
      · rename_i hne
        refine List.pairwise_cons.2 ⟨fun a ha => ?_, ih hm.2⟩
        rcases (mem_insertName a n ms).1 ha with rfl | ha
        · exact (List.le_iff_lt_or_eq.1 (List.not_lt.1 hnm)).resolve_right fun h => hne h.symm
        · exact hm.1 a ha

/-- A set of names of wildcards. -/
structure Wildcards where
  /-- The names in increasing order. -/
  names : List Text
  /-- No name is there twice. -/
  increasing : names.Pairwise (· < ·)

namespace Wildcards

def empty : Wildcards := ⟨[], List.Pairwise.nil⟩

def insert (w : Wildcards) (n : Text) : Wildcards :=
  ⟨insertName n w.names, pairwise_insertName n w.increasing⟩

def insertAll (w : Wildcards) (ns : List Text) : Wildcards := ns.foldl insert w

@[simp] theorem names_empty : empty.names = [] := rfl

theorem mem_insert (a n : Text) (w : Wildcards) :
    a ∈ (w.insert n).names ↔ a = n ∨ a ∈ w.names :=
  mem_insertName a n w.names

theorem mem_insertAll (a : Text) (w : Wildcards) (ns : List Text) :
    a ∈ (w.insertAll ns).names ↔ a ∈ w.names ∨ a ∈ ns := by
  induction ns generalizing w with
  | nil => simp [insertAll]
  | cons n ns ih =>
    have hstep : w.insertAll (n :: ns) = (w.insert n).insertAll ns := rfl
    rw [hstep, ih, mem_insert, List.mem_cons]
    constructor
    · rintro ((h | h) | h)
      · exact Or.inr (Or.inl h)
      · exact Or.inl h
      · exact Or.inr (Or.inr h)
    · rintro (h | h | h)
      · exact Or.inl (Or.inr h)
      · exact Or.inl (Or.inl h)
      · exact Or.inr h

end Wildcards

end QuizFormula

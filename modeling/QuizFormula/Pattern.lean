import QuizFormula.Text

/-!
# Patterns

A pattern reads a value at the very start of a text and hands back the rest. It
carries the proof that the rest is shorter, so whatever repeats a pattern ends
because the text runs out: neither the formulas nor the documents need a bound
of their own.
-/

namespace QuizFormula

/-- A reader of values of type `α` that uses up at least one character. -/
structure Pattern (α : Type) where
  /-- The value at the start of the text and the rest of the text. -/
  read? : Text → Option (α × Text)
  /-- A successful reading leaves a shorter text. -/
  shorter : ∀ {s r : Text} {a : α}, read? s = some (a, r) → r.length < s.length

namespace Pattern

/-- The pattern that reads nothing. -/
def never (α : Type) : Pattern α where
  read? _ := none
  shorter h := by simp at h

/-- What `p` reads, and what `q` reads where `p` reads nothing. -/
def orElse {α : Type} (p q : Pattern α) : Pattern α where
  read? s := (p.read? s).or (q.read? s)
  shorter h := by
    rcases Option.or_eq_some_iff.1 h with hp | ⟨_, hq⟩
    · exact p.shorter hp
    · exact q.shorter hq

@[simp] theorem never_read? (α : Type) (s : Text) : (never α).read? s = none := rfl

theorem orElse_read? {α : Type} (p q : Pattern α) (s : Text) :
    (p.orElse q).read? s = (p.read? s).or (q.read? s) := rfl

/-- No pattern reads a value from the empty text. -/
@[simp] theorem read?_nil {α : Type} (p : Pattern α) : p.read? [] = none := by
  cases h : p.read? [] with
  | none => rfl
  | some x => exact absurd (p.shorter h) (by simp)

end Pattern

end QuizFormula

/-!
# Texts and blanks

A text is the list of its characters. Formulas may have blanks between their
tokens, and only there: `skipBlanks` passes over them, and `symbol?` reads one
expected character after them. Both leave a rest of the text they are given, so
that later definitions can recurse on its length.
-/

namespace QuizFormula

/-- A text, as the list of its characters. -/
abbrev Text := List Char

-- Which instance is found for lists of characters depends on what is imported. With this one
-- a decision on texts is the same term in every module.
instance : LawfulBEq Text := inferInstance

/-- The five blanks that may stand between tokens: space, tab, line feed, form
feed and carriage return. No other space character counts. -/
def isBlank (c : Char) : Bool :=
  c = ' ' || c = '\t' || c = '\n' || c = '\x0c' || c = '\r'

def isAscii (c : Char) : Bool := c.toNat < 128

def skipBlanks (s : Text) : Text := s.dropWhile isBlank

/-- What follows the character `c`, with blanks allowed before it. -/
def symbol? (c : Char) (s : Text) : Option Text :=
  match skipBlanks s with
  | [] => none
  | a :: r => if a = c then some r else none

/-- What follows a leading part has the rest of the length. -/
theorem length_of_isPrefixOf? {a s r : Text} (h : a.isPrefixOf? s = some r) :
    s.length = a.length + r.length := by
  induction a generalizing s with
  | nil =>
    cases h
    simp
  | cons c a ih =>
    cases s with
    | nil => cases h
    | cons b s =>
      change (if c == b then a.isPrefixOf? s else none) = some r at h
      split at h
      · rw [List.length_cons, List.length_cons, ih h, Nat.add_right_comm]
      · cases h

@[simp] theorem skipBlanks_nil : skipBlanks [] = [] := rfl

theorem length_skipBlanks_le (s : Text) : (skipBlanks s).length ≤ s.length :=
  (List.dropWhile_suffix isBlank).length_le

theorem symbol?_eq_some_iff (c : Char) (s r : Text) :
    symbol? c s = some r ↔ skipBlanks s = c :: r := by
  unfold symbol?
  cases h : skipBlanks s with
  | nil => simp
  | cons a t => by_cases ha : a = c <;> simp [ha]

theorem length_lt_of_symbol? {c : Char} {s r : Text} (h : symbol? c s = some r) :
    r.length < s.length := by
  have hs := (symbol?_eq_some_iff c s r).1 h
  have hle := length_skipBlanks_le s
  rw [hs, List.length_cons] at hle
  omega

end QuizFormula

import QuizFormula.Label.Accent

/-!
# Labels of questions

A label holds ASCII letters, digits, colons, hyphens and single blanks between them.
The label of a question is made from its name in three steps: accents are stripped,
a few European characters are spelled out, and every run of characters that labels
cannot hold becomes one blank. Blanks at the ends are dropped.
-/

namespace QuizFormula

/-- The ASCII spelling of some European characters; any other character is kept. -/
def spelling (c : Char) : Text :=
  match c with
  | 'œ' => ['o', 'e']
  | 'Œ' => ['O', 'E']
  | 'æ' => ['a', 'e']
  | 'Æ' => ['A', 'E']
  | '€' => [' ', 'E', 'u', 'r', 'o', 's']
  | 'ß' => ['s', 's']
  | '¿' => ['?']
  | c => [c]

def spellOut (s : Text) : Text := s.flatMap spelling

/-- The characters that labels are made of, besides blanks. -/
def isLabelChar (c : Char) : Bool := c.isAlphanum || c = ':' || c = '-'

/-- A text with a blank in front, unless there is one already. -/
def leadBlank : Text → Text
  | ' ' :: s => ' ' :: s
  | s => ' ' :: s

/-- The text with one blank for every run of characters that labels cannot hold. -/
def squeeze (s : Text) : Text :=
  s.foldr (fun c out => if isLabelChar c then c :: out else leadBlank out) []

def trimBlanks (s : Text) : Text :=
  ((s.dropWhile (· = ' ')).reverse.dropWhile (· = ' ')).reverse

/-- The label of a question, from its name. -/
def label (name : Text) : Text := trimBlanks (squeeze (spellOut (stripAccents name)))

@[simp] theorem spellOut_nil : spellOut [] = [] := rfl

theorem spellOut_cons (c : Char) (s : Text) :
    spellOut (c :: s) = spelling c ++ spellOut s := by
  simp [spellOut]

theorem spellOut_append (s t : Text) : spellOut (s ++ t) = spellOut s ++ spellOut t := by
  simp [spellOut]

@[simp] theorem squeeze_nil : squeeze [] = [] := rfl

theorem squeeze_cons (c : Char) (s : Text) :
    squeeze (c :: s) = if isLabelChar c then c :: squeeze s else leadBlank (squeeze s) := by
  simp [squeeze]

end QuizFormula

import QuizFormula.Text

/-!
# Accents

Accented Latin letters are folded to their base letters, and combining marks are
dropped, so that a letter and its decomposed form fold to the same text. Letters
that have no base letter, such as a stroked o, are kept.
-/

namespace QuizFormula

/-- The accented letters of the Latin-1 Supplement and of Latin Extended-A, by their
base letters. -/
def accentTable : List (Char × String) :=
  [('A', "ÀÁÂÃÄÅĀĂĄ"),
    ('C', "ÇĆĈĊČ"),
    ('D', "Ď"),
    ('E', "ÈÉÊËĒĔĖĘĚ"),
    ('G', "ĜĞĠĢ"),
    ('H', "Ĥ"),
    ('I', "ÌÍÎÏĨĪĬĮİ"),
    ('J', "Ĵ"),
    ('K', "Ķ"),
    ('L', "ĹĻĽ"),
    ('N', "ÑŃŅŇ"),
    ('O', "ÒÓÔÕÖŌŎŐ"),
    ('R', "ŔŖŘ"),
    ('S', "ŚŜŞŠ"),
    ('T', "ŢŤ"),
    ('U', "ÙÚÛÜŨŪŬŮŰŲ"),
    ('W', "Ŵ"),
    ('Y', "ÝŶŸ"),
    ('Z', "ŹŻŽ"),
    ('a', "àáâãäåāăą"),
    ('c', "çćĉċč"),
    ('d', "ď"),
    ('e', "èéêëēĕėęě"),
    ('g', "ĝğġģ"),
    ('h', "ĥ"),
    ('i', "ìíîïĩīĭį"),
    ('j', "ĵ"),
    ('k', "ķ"),
    ('l', "ĺļľ"),
    ('n', "ñńņň"),
    ('o', "òóôõöōŏő"),
    ('r', "ŕŗř"),
    ('s', "śŝşš"),
    ('t', "ţť"),
    ('u', "ùúûüũūŭůűų"),
    ('w', "ŵ"),
    ('y', "ýÿŷ"),
    ('z', "źżž")]

/-- The base letter of an accented letter; any other character is kept. -/
def baseLetter (c : Char) : Char :=
  ((accentTable.find? fun row => c ∈ row.2.toList).map Prod.fst).getD c

/-- Whether a character is a combining diacritical mark. -/
def isCombiningMark (c : Char) : Bool := 0x300 ≤ c.toNat && c.toNat ≤ 0x36F

/-- The text with base letters in place of accented letters. -/
def stripAccents (s : Text) : Text := (s.filter fun c => !isCombiningMark c).map baseLetter

@[simp] theorem stripAccents_nil : stripAccents [] = [] := rfl

theorem stripAccents_cons (c : Char) (s : Text) :
    stripAccents (c :: s) =
      if isCombiningMark c then stripAccents s else baseLetter c :: stripAccents s := by
  by_cases h : isCombiningMark c <;> simp [stripAccents, h]

theorem stripAccents_append (s t : Text) :
    stripAccents (s ++ t) = stripAccents s ++ stripAccents t := by
  simp [stripAccents]

end QuizFormula

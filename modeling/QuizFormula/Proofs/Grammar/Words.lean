import QuizFormula.Proofs.Grammar.Characters

/-!
# Words of a text

A word of a text is a name that stands on its own: it is not the end of a longer token or
the name of a macro, and it is as long as it can be. A word with a parenthesis after it,
blanks aside, is the name of a function, and any other word is a variable. `words` finds
the words of a text from left to right (`mem_words_iff`). It looks back at one character
only, so what it finds in a formula are the names among the tokens.
-/

namespace QuizFormula

/-- The characters that no word begins after: those of tokens, and the backslash of a
macro. -/
def isJoint (c : Char) : Bool := isTokenChar c || c = '\\'

/-- Between `p` and `q` the name `n` stands on its own. -/
structure IsWord (p n q : Text) : Prop where
  isName : IsName n
  begins : ∀ c ∈ p.getLast?, isJoint c = false
  ends : Stops isNameChar q

/-- The name is a word of the text that has no parenthesis after it. -/
def IsVariableIn (n t : Text) : Prop := ∃ p q, t = p ++ (n ++ q) ∧ IsWord p n q ∧ NoCall q

/-- The name is a word of the text that has a parenthesis after it. -/
def IsFunctionIn (n t : Text) : Prop := ∃ p q, t = p ++ (n ++ q) ∧ IsWord p n q ∧ ¬ NoCall q

/-- The words of a text, each with the text after it. If the text is joined to a character
before it, no word begins at once. -/
def words (joined : Bool) : Text → List (Text × Text)
  | [] => []
  | c :: t => (if joined then [] else (name? (c :: t)).toList) ++ words (isJoint c) t

/-- The words that are variables, from left to right. -/
def variableNames (t : Text) : List Text :=
  ((words false t).filter fun w => nextChar w.2 ≠ some '(').map Prod.fst

/-- The words that are names of functions, from left to right. -/
def functionNames (joined : Bool) (t : Text) : List Text :=
  ((words joined t).filter fun w => nextChar w.2 = some '(').map Prod.fst

/-! ### Finding words -/

theorem name?_eq_some_iff (s n r : Text) :
    name? s = some (n, r) ↔ s = n ++ r ∧ IsName n ∧ Stops isNameChar r := by
  constructor
  · intro h
    refine ⟨(append_eq_of_name? h).symm, isName_of_name? h, ?_⟩
    cases s with
    | nil => simp [name?] at h
    | cons c t =>
        rw [name?, Option.ite_none_right_eq_some, Option.some_inj, Prod.mk.injEq] at h
        rw [← h.2.2]
        exact stops_dropWhile isNameChar t
  · rintro ⟨rfl, hn, hr⟩
    exact name?_append hn hr

theorem begins_cons_iff (c : Char) (p : Text) :
    (∀ a ∈ (c :: p).getLast?, isJoint a = false) ↔
      (p = [] → isJoint c = false) ∧ ∀ a ∈ p.getLast?, isJoint a = false := by
  cases p with
  | nil => simp
  | cons a p => simp [List.getLast?_cons_cons]

theorem mem_words_joined_iff (joined : Bool) (t n q : Text) :
    (n, q) ∈ words joined t ↔
      ∃ p, t = p ++ (n ++ q) ∧ IsWord p n q ∧ (p = [] → joined = false) := by
  induction t generalizing joined with
  | nil =>
      constructor
      · exact fun h => absurd h List.not_mem_nil
      · rintro ⟨p, hp, hword, -⟩
        have hnil := List.append_eq_nil_iff.1 (List.append_eq_nil_iff.1 hp.symm).2
        exact absurd hnil.1 hword.isName.ne_nil
  | cons c t ih =>
      have hhere : (n, q) ∈ (if joined then [] else (name? (c :: t)).toList) ↔
          joined = false ∧ name? (c :: t) = some (n, q) := by
        cases joined <;> simp
      -- A word that does not begin at `c` is a word of `t`, and begins there at once only if
      -- `c` is no joint.
      rw [words, List.mem_append, hhere, ih, name?_eq_some_iff]
      constructor
      · rintro (⟨hjoined, ht, hn, hq⟩ | ⟨p, rfl, hword, hp⟩)
        · exact ⟨[], ht, ⟨hn, by simp, hq⟩, fun _ => hjoined⟩
        · refine ⟨c :: p, rfl, ⟨hword.isName, ?_, hword.ends⟩, by simp⟩
          exact (begins_cons_iff c p).2 ⟨hp, hword.begins⟩
      · rintro ⟨p, hp, hword, hjoined⟩
        cases p with
        | nil => exact .inl ⟨hjoined rfl, hp, hword.isName, hword.ends⟩
        | cons a p =>
            obtain ⟨rfl, rfl⟩ := List.cons.inj hp
            obtain ⟨hbegins, hrest⟩ := (begins_cons_iff c p).1 hword.begins
            exact .inr ⟨p, rfl, ⟨hword.isName, hrest, hword.ends⟩, hbegins⟩

theorem mem_words_iff (t n q : Text) :
    (n, q) ∈ words false t ↔ ∃ p, t = p ++ (n ++ q) ∧ IsWord p n q := by
  rw [mem_words_joined_iff]
  simp

theorem mem_variableNames_iff (n t : Text) : n ∈ variableNames t ↔ IsVariableIn n t := by
  simp only [variableNames, List.mem_map, List.mem_filter, decide_eq_true_eq, Prod.exists,
    exists_and_right, exists_eq_right, mem_words_iff, IsVariableIn, noCall_iff]
  constructor
  · rintro ⟨q, ⟨p, ht, hword⟩, hq⟩
    exact ⟨p, q, ht, hword, hq⟩
  · rintro ⟨p, q, ht, hword, hq⟩
    exact ⟨q, ⟨p, ht, hword⟩, hq⟩

theorem mem_functionNames_iff (n t : Text) : n ∈ functionNames false t ↔ IsFunctionIn n t := by
  simp only [functionNames, List.mem_map, List.mem_filter, decide_eq_true_eq, Prod.exists,
    exists_and_right, exists_eq_right, mem_words_iff, IsFunctionIn, noCall_iff, not_not]
  constructor
  · rintro ⟨q, ⟨p, ht, hword⟩, hq⟩
    exact ⟨p, q, ht, hword, hq⟩
  · rintro ⟨p, q, ht, hword, hq⟩
    exact ⟨q, ⟨p, ht, hword⟩, hq⟩

/-! ### Words beside tokens -/

theorem isJoint_of_isTokenChar {c : Char} (h : isTokenChar c = true) : isJoint c = true := by
  simp [isJoint, h]

theorem name?_cons_eq_none {c : Char} (hc : c.isAlpha = false) (t : Text) :
    name? (c :: t) = none := by
  simp [name?, hc]

/-- No word begins at a character that is no letter. -/
theorem words_cons {c : Char} (hc : c.isAlpha = false) (joined : Bool) (t : Text) :
    words joined (c :: t) = words (isJoint c) t := by
  rw [words, name?_cons_eq_none hc]
  cases joined <;> rfl

theorem isAlpha_eq_false_of_isTokenChar {c : Char} (h : isTokenChar c = false) :
    c.isAlpha = false := by
  rw [← Bool.not_eq_true] at h ⊢
  exact fun halpha => h (isTokenChar_of_isAlpha halpha)

theorem isAlpha_eq_false_of_isDigit {c : Char} (h : c.isDigit = true) : c.isAlpha = false := by
  rw [← Bool.not_eq_true]
  intro halpha
  rw [isDigit_eq_false_of_isAlpha halpha] at h
  exact absurd h (by decide)

theorem isTokenChar_of_mem_separators {c : Char} (hc : c ∈ separators) :
    isTokenChar c = false :=
  forall_mem_separators (P := fun c => isTokenChar c = false) (by decide) c hc

theorem atBoundary_of_mem_separators {b : Text} (hb : Blank b) {c : Char}
    (hc : c ∈ separators) (r : Text) : AtBoundary (b ++ c :: r) :=
  atBoundary_append_cons hb (isTokenChar_of_mem_separators hc) r

theorem words_of_separator {c : Char} (hc : c ∈ separators) (joined : Bool) (t : Text) :
    words joined (c :: t) = words false t := by
  have hjoint : isJoint c = false :=
    forall_mem_separators (P := fun c => isJoint c = false) (by decide) c hc
  rw [words_cons (isAlpha_eq_false_of_isTokenChar (isTokenChar_of_mem_separators hc)), hjoint]

theorem words_of_isBlank {c : Char} (hc : isBlank c = true) (joined : Bool) (t : Text) :
    words joined (c :: t) = words false t := by
  have htoken := isTokenChar_eq_false_of_isBlank hc
  have hjoint : isJoint c = false := by
    simp only [isBlank, Bool.or_eq_true, decide_eq_true_eq] at hc
    rcases hc with (((rfl | rfl) | rfl) | rfl) | rfl <;> decide
  rw [words_cons (isAlpha_eq_false_of_isTokenChar htoken), hjoint]

/-- At a boundary it does not matter what comes before it. -/
theorem words_of_atBoundary {r : Text} (hr : AtBoundary r) (joined : Bool) :
    words joined r = words false r := by
  cases r with
  | nil => rfl
  | cons c r =>
      have hc := isAlpha_eq_false_of_isTokenChar ((stops_cons _ _ _).1 hr)
      rw [words_cons hc, words_cons hc]

/-- No word begins inside of a token. -/
theorem words_of_isTokenChar {l : Text} (hl : ∀ c ∈ l, isTokenChar c = true) (t : Text) :
    words true (l ++ t) = words true t := by
  induction l with
  | nil => rfl
  | cons c l ih =>
      obtain ⟨hc, hl⟩ := List.forall_mem_cons.1 hl
      rw [List.cons_append, words, if_pos rfl, List.nil_append, isJoint_of_isTokenChar hc, ih hl]

theorem words_of_digits {l : Text} (hl : Digits l) (hne : l ≠ []) (joined : Bool) (t : Text) :
    words joined (l ++ t) = words true t := by
  cases l with
  | nil => exact absurd rfl hne
  | cons c l =>
      obtain ⟨hc, hl⟩ := List.forall_mem_cons.1 hl
      rw [List.cons_append, words_cons (isAlpha_eq_false_of_isDigit hc),
        isJoint_of_isTokenChar (isTokenChar_of_isDigit hc),
        words_of_isTokenChar fun a ha => isTokenChar_of_isDigit (hl a ha)]

theorem words_of_sign (sign : Option Sign) {l : Text} (hl : Digits l) (hne : l ≠ [])
    (joined : Bool) (t : Text) : words joined (signText sign ++ (l ++ t)) = words true t := by
  rcases sign with _ | _ | _
  · exact words_of_digits hl hne joined t
  all_goals
    exact (words_cons (by decide) joined _).trans (words_of_digits hl hne _ t)

/-- The mark of an exponent is a letter, and it stands right after a digit or a point. -/
theorem words_of_isNumber {l : Text} (hl : IsNumber l) (joined : Bool) (t : Text) :
    words joined (l ++ t) = words true t := by
  obtain ⟨⟨sign, whole, fraction, exponent⟩, hn, hne, rfl⟩ := hl
  have hfraction : ∀ t, words true (fractionText fraction ++ t) = words true t := by
    intro t
    apply words_of_isTokenChar
    cases fraction with
    | none => simp [fractionText]
    | some f =>
        rw [fractionText]
        refine List.forall_mem_cons.2 ⟨by decide, ?_⟩
        exact fun c hc => isTokenChar_of_isDigit (hn.fraction f rfl c hc)
  have hexponent : words true (exponentText exponent ++ t) = words true t := by
    cases exponent with
    | none => rfl
    | some e =>
        obtain ⟨hmark, hdigits, hdigitsne⟩ := hn.exponent e rfl
        have hjoint : isTokenChar e.mark = true := by rcases hmark with h | h <;> rw [h] <;> decide
        rw [exponentText, Exponent.text, List.cons_append, words, if_pos rfl, List.nil_append,
          List.append_assoc, words_of_sign e.sign hdigits hdigitsne]
  rw [Numeral.text, List.append_assoc, List.append_assoc, List.append_assoc,
    words_of_sign sign hn.whole hne, hfraction, hexponent]

/-- A name that stands on its own is one word. -/
theorem words_of_isName {n r : Text} (hn : IsName n) (hr : AtBoundary r) (joined : Bool) :
    words joined (n ++ r) = (if joined then [] else [(n, r)]) ++ words false r := by
  have hread := name?_append hn hr.stops_isNameChar
  obtain ⟨c, t, rfl, hc, ht⟩ := hn
  have htoken : ∀ a ∈ t, isTokenChar a = true := fun a ha => by simp [isTokenChar, ht a ha]
  rw [List.cons_append] at hread ⊢
  rw [words, hread, isJoint_of_isTokenChar (isTokenChar_of_isAlpha hc),
    words_of_isTokenChar htoken, words_of_atBoundary hr]
  rfl

end QuizFormula

import QuizFormula.Binary64.Reading
import QuizFormula.Proofs.Grammar.Numeral

/-!
# Two grammars of number texts

Formulas and the reader of floating-point numbers each have their own grammar of numbers:

    number   := sign? DIGIT+ ('.' DIGIT*)? exponent?
    float    := sign? (DIGIT+ | DIGIT+ '.' DIGIT* | DIGIT* '.' DIGIT+) exponent?
              | sign? ('inf' | 'infinity' | 'nan')
    exponent := ('e' | 'E') sign? DIGIT+

where the words are in any letter case. What a formula reads at the start of a text is the
longest number there (`number?_eq_some_iff`), so a mark without digits after it is left to
what follows. The reader of floating-point numbers takes a text as a whole, and accepts it
exactly if it is one of its grammar (`Binary64.isSome_ofText?_iff`). All numbers are
(`IsNumber.floatText`).
-/

namespace QuizFormula

/-! ### The longest number -/

/-- The text `s` is `l` and then `r`, and `l` is the longest leading part of it with the
property `P`. -/
structure IsLongestPrefix (P : Text → Prop) (s l r : Text) : Prop where
  append_eq : l ++ r = s
  holds : P l
  longest : ∀ l', P l' → l' <+: s → l' <+: l

theorem IsLongestPrefix.unique {P : Text → Prop} {s l r l' r' : Text}
    (h : IsLongestPrefix P s l r) (h' : IsLongestPrefix P s l' r') : l = l' ∧ r = r' := by
  have hle : l <+: l' := h'.longest l h.holds ⟨r, h.append_eq⟩
  have hge : l' <+: l := h.longest l' h'.holds ⟨r', h'.append_eq⟩
  obtain rfl : l = l' := hle.eq_of_length_le hge.length_le
  exact ⟨rfl, List.append_cancel_left (h.append_eq.trans h'.append_eq.symm)⟩

theorem exponentText_prefix_scan {x : Option Exponent}
    (hx : ∀ e, x = some e → e.WellFormed) (r : Text) :
    exponentText x <+: exponentText (Exponent.scan (exponentText x ++ r)).1 := by
  cases x with
  | none => exact List.nil_prefix
  | some e =>
      rw [exponentText, Exponent.scan_text_append (hx e rfl)]
      exact ⟨leadingDigits r, by simp [exponentText, Exponent.text]⟩

theorem fractionText_prefix_scan {f : Option Text} (hf : ∀ d, f = some d → Digits d)
    {x : Option Exponent} (hx : ∀ e, x = some e → e.WellFormed) (r : Text) :
    fractionText f ++ exponentText x <+:
      fractionText (scanFraction (fractionText f ++ (exponentText x ++ r))).1 ++
        exponentText
          (Exponent.scan (scanFraction (fractionText f ++ (exponentText x ++ r))).2).1 := by
  cases x with
  | some e =>
      -- The digits of the fraction end at the mark.
      have hstops : Stops (fun c => c.isDigit || c = '.') (exponentText (some e) ++ r) :=
        Exponent.stops_text_append (hx e rfl) r
      rw [scanFraction_append hf hstops]
      exact (List.prefix_append_right_inj _).2 (exponentText_prefix_scan hx r)
  | none =>
      cases f with
      | none => exact List.nil_prefix
      | some d =>
          simp only [fractionText, exponentText, List.cons_append, List.nil_append,
            List.append_nil, scanFraction, leadingDigits_append (hf d rfl), List.append_assoc]
          exact List.prefix_append ('.' :: d) _

/-- Whatever follows a numeral, all of it is scanned. -/
theorem Numeral.text_prefix_scan {n : Numeral} (hn : n.WellFormed) (hne : n.whole ≠ [])
    (r : Text) : n.text <+: (scan (n.text ++ r)).1.text := by
  have hsign := scanSign_append (stops_sign_of_digits hn.whole hne
    (fractionText n.fraction ++ (exponentText n.exponent ++ r))) n.sign
  have hrest := fractionText_prefix_scan hn.fraction hn.exponent r
  simp only [text, scan, List.append_assoc, hsign, leadingDigits_append hn.whole,
    afterDigits_append hn.whole, List.prefix_append_right_inj]
  by_cases hwhole : n.fraction = none ∧ n.exponent = none
  · rw [hwhole.1, hwhole.2]
    exact List.nil_prefix
  · have hstops : Stops Char.isDigit
        (fractionText n.fraction ++ (exponentText n.exponent ++ r)) := by
      cases he : n.exponent with
      | some e =>
          exact stops_isDigit_fractionText_append _
            (Exponent.stops_text_append (hn.exponent e he) r)
      | none =>
          obtain ⟨d, hd⟩ := Option.ne_none_iff_exists'.1 fun hf => hwhole ⟨hf, he⟩
          rw [hd]
          exact stops_isDigit_cons (by decide) _
    rw [leadingDigits_of_stops hstops, afterDigits_of_stops hstops, List.nil_append]
    exact hrest

theorem exists_number? {l : Text} (hl : IsNumber l) (r : Text) :
    ∃ x, number? (l ++ r) = some x := by
  obtain ⟨n, hn, hne, rfl⟩ := hl
  refine Option.ne_none_iff_exists'.1 fun hnone => ?_
  have hsign := scanSign_append (stops_sign_of_digits hn.whole hne
    (fractionText n.fraction ++ (exponentText n.exponent ++ r))) n.sign
  rw [number?_eq_none_iff, Numeral.text] at hnone
  simp only [List.append_assoc, hsign, leadingDigits_append hn.whole] at hnone
  exact hne (List.append_eq_nil_iff.1 hnone).1

theorem isLongestPrefix_of_number? {s l r : Text} (h : number? s = some (l, r)) :
    IsLongestPrefix IsNumber s l r where
  append_eq := append_eq_of_number? h
  holds := isNumber_of_number? h
  longest := by
    rintro _ ⟨n, hn, hne, rfl⟩ ⟨u, rfl⟩
    simp only [number?] at h
    split at h
    · cases h
    · cases h
      exact Numeral.text_prefix_scan hn hne u

/-- What is read at the start of a text is the longest number there. -/
theorem number?_eq_some_iff (s l r : Text) :
    number? s = some (l, r) ↔ IsLongestPrefix IsNumber s l r := by
  constructor
  · exact isLongestPrefix_of_number?
  · intro h
    obtain ⟨⟨l', r'⟩, hread⟩ := exists_number? h.holds r
    rw [h.append_eq] at hread
    obtain ⟨rfl, rfl⟩ := h.unique (isLongestPrefix_of_number? hread)
    exact hread

/-- Neither a second mark nor a mark with a sign and no digit belongs to the number. -/
example : number? "-5.E+x".toList = some ("-5.".toList, "E+x".toList) ∧
    number? "07e1e2".toList = some ("07e1".toList, "e2".toList) ∧
    number? ".5".toList = none := by
  decide

/-! ### The texts of floating-point numbers -/

/-- The words for floating-point numbers, in lower case. -/
def floatWords : List Text := ["inf", "infinity", "nan"].map String.toList

/-- A text of a floating-point number. -/
inductive FloatText : Text → Prop
  | whole (sign : Option Sign) {d : Text} {x : Option Exponent} (hd : Digits d) (hne : d ≠ [])
      (hx : ∀ e, x = some e → e.WellFormed) :
      FloatText (signText sign ++ (d ++ exponentText x))
  /-- Digits before a point, and any number of digits after it. -/
  | before (sign : Option Sign) {d f : Text} {x : Option Exponent} (hd : Digits d)
      (hne : d ≠ []) (hf : Digits f) (hx : ∀ e, x = some e → e.WellFormed) :
      FloatText (signText sign ++ (d ++ '.' :: (f ++ exponentText x)))
  /-- Digits after a point, and any number of digits before it. -/
  | after (sign : Option Sign) {d f : Text} {x : Option Exponent} (hd : Digits d)
      (hf : Digits f) (hne : f ≠ []) (hx : ∀ e, x = some e → e.WellFormed) :
      FloatText (signText sign ++ (d ++ '.' :: (f ++ exponentText x)))
  | word (sign : Option Sign) {w : Text} (hw : w.map Char.toLower ∈ floatWords) :
      FloatText (signText sign ++ w)

/-- A numeral with a digit is written as a floating-point number is. -/
theorem Numeral.WellFormed.floatText {n : Numeral} (hn : n.WellFormed)
    (hdigits : n.digits ≠ []) : FloatText n.text := by
  have hassoc : n.text = signText n.sign ++
      (n.whole ++ (fractionText n.fraction ++ exponentText n.exponent)) := by
    simp only [Numeral.text, List.append_assoc]
  rw [hassoc]
  cases hf : n.fraction with
  | none =>
      have hne : n.whole ≠ [] := by simpa [digits, hf] using hdigits
      exact .whole n.sign hn.whole hne hn.exponent
  | some f =>
      by_cases hne : n.whole = []
      · have hf' : f ≠ [] := by simpa [digits, hf, hne] using hdigits
        exact .after n.sign hn.whole (hn.fraction f hf) hf' hn.exponent
      · exact .before n.sign hn.whole hne (hn.fraction f hf) hn.exponent

/-- All numbers of formulas are texts of floating-point numbers. -/
theorem IsNumber.floatText {l : Text} (hl : IsNumber l) : FloatText l := by
  obtain ⟨n, hn, hne, rfl⟩ := hl
  exact hn.floatText (by simp [Numeral.digits, hne])

namespace Binary64

theorem isSome_ofWord?_iff (negative : Bool) (w : Text) :
    (ofWord? negative w).isSome ↔ w.map Char.toLower ∈ floatWords := by
  have hwords : w.map Char.toLower ∈ floatWords ↔
      (w.map Char.toLower = "inf".toList ∨ w.map Char.toLower = "infinity".toList) ∨
        w.map Char.toLower = "nan".toList := by
    simp only [floatWords, List.map_cons, List.map_nil, List.mem_cons, List.not_mem_nil,
      or_false, or_assoc]
  rw [hwords, ofWord?]
  split
  · rename_i hinf
    exact iff_of_true rfl (.inl hinf)
  · rename_i hinf
    split
    · rename_i hnan
      exact iff_of_true rfl (.inr hnan)
    · rename_i hnan
      exact iff_of_false Bool.false_ne_true (not_or.2 ⟨hinf, hnan⟩)

/-- A word is not taken for another sign. -/
theorem scanSign_append_word (sign : Option Sign) {w : Text}
    (hw : w.map Char.toLower ∈ floatWords) : scanSign (signText sign ++ w) = (sign, w) := by
  refine scanSign_append ?_ sign
  cases w with
  | nil => exact stops_nil _
  | cons c w =>
      rw [stops_cons, Bool.or_eq_false_iff, decide_eq_false_iff_not, decide_eq_false_iff_not]
      constructor
      · rintro rfl
        simp [floatWords] at hw
      · rintro rfl
        simp [floatWords] at hw

theorem isSome_ofText?_of_numeral {n : Numeral} (hn : n.WellFormed) (hdigits : n.digits ≠ []) :
    (ofText? n.text).isSome := by
  rw [ofText?_eq_ofNumeral ((Numeral.ofText?_eq_some_iff _ n).2 ⟨hn, hdigits, rfl⟩),
    Option.isSome_some]

/-- A text reads as a floating-point number exactly if it is one of the grammar. -/
theorem isSome_ofText?_iff (s : Text) : (ofText? s).isSome ↔ FloatText s := by
  constructor
  · intro h
    cases hn : Numeral.ofText? s with
    | some n =>
        obtain ⟨hwf, hdigits, rfl⟩ := (Numeral.ofText?_eq_some_iff s n).1 hn
        exact hwf.floatText hdigits
    | none =>
        simp only [ofText?, hn] at h
        rw [← signText_append_scanSign s]
        exact .word _ ((isSome_ofWord?_iff _ _).1 h)
  · intro h
    cases h with
    | @whole sign d x hd hne hx =>
        have hn : (⟨sign, d, none, x⟩ : Numeral).WellFormed := ⟨hd, by simp, hx⟩
        simpa [Numeral.text, fractionText] using
          isSome_ofText?_of_numeral hn (by simpa [Numeral.digits] using hne)
    | @before sign d f x hd hne hf hx =>
        have hn : (⟨sign, d, some f, x⟩ : Numeral).WellFormed := ⟨hd, by simpa using hf, hx⟩
        simpa [Numeral.text, fractionText] using
          isSome_ofText?_of_numeral hn (by simp [Numeral.digits, hne])
    | @after sign d f x hd hf hne hx =>
        have hn : (⟨sign, d, some f, x⟩ : Numeral).WellFormed := ⟨hd, by simpa using hf, hx⟩
        simpa [Numeral.text, fractionText] using
          isSome_ofText?_of_numeral hn (by simp [Numeral.digits, hne])
    | word sign hw =>
        have hword := (isSome_ofWord?_iff (sign = some .minus) _).2 hw
        unfold ofText?
        split
        · rfl
        · rwa [scanSign_append_word sign hw]

end Binary64

end QuizFormula

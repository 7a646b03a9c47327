import QuizFormula.Numeral
import QuizFormula.Proofs.Grammar.Token

/-!
# Numbers as tokens

A numeral is well formed when it has digits, and nothing else, wherever digits may
stand; a number of the grammar is the text of such a numeral with a digit before its
point. Scanning the numeral of a number with a boundary after it gives back that
numeral (`Numeral.scan_text_append`), and every number that a formula reads is one.
-/

namespace QuizFormula

def Digits (l : Text) : Prop := ∀ c ∈ l, c.isDigit = true

theorem digits_leadingDigits (s : Text) : Digits (leadingDigits s) := by
  intro c hc
  exact List.mem_takeWhile_imp hc

structure Exponent.WellFormed (e : Exponent) : Prop where
  mark : e.mark = 'e' ∨ e.mark = 'E'
  digits : Digits e.digits
  nonempty : e.digits ≠ []

/-- A numeral with digits where digits may stand. -/
structure Numeral.WellFormed (n : Numeral) : Prop where
  whole : Digits n.whole
  fraction : ∀ f, n.fraction = some f → Digits f
  exponent : ∀ e, n.exponent = some e → e.WellFormed

theorem Numeral.WellFormed.digits_digits {n : Numeral} (hn : n.WellFormed) :
    Digits n.digits := by
  intro c hc
  rcases List.mem_append.1 hc with hc | hc
  · exact hn.whole c hc
  · cases hf : n.fraction with
    | none => simp [hf] at hc
    | some f => exact hn.fraction f hf c (by simpa [hf] using hc)

/-- A number of the grammar: the text of a well-formed numeral with a digit before its
point. -/
def IsNumber (l : Text) : Prop := ∃ n : Numeral, n.WellFormed ∧ n.whole ≠ [] ∧ n.text = l

theorem stops_isDigit_cons {c : Char} (hc : c.isDigit = false) (r : Text) :
    Stops Char.isDigit (c :: r) :=
  (stops_cons Char.isDigit c r).2 hc

theorem AtBoundary.stops_isDigit {r : Text} (h : AtBoundary r) : Stops Char.isDigit r := by
  apply h.mono
  intro c hc
  simp [isTokenChar, isNameChar, Char.isAlphanum, hc]

theorem scanSign_append {s : Text} (hs : Stops (fun c => c = '+' || c = '-') s)
    (sign : Option Sign) : scanSign (signText sign ++ s) = (sign, s) := by
  cases sign with
  | none =>
      cases s with
      | nil => rfl
      | cons c s =>
          rw [stops_cons] at hs
          simp only [Bool.or_eq_false_iff, decide_eq_false_iff_not] at hs
          simp only [signText, List.nil_append]
          unfold scanSign
          split <;> simp_all
  | some sign => cases sign <;> rfl

theorem stops_sign_of_digits {l : Text} (hl : Digits l) (hne : l ≠ []) (r : Text) :
    Stops (fun c => c = '+' || c = '-') (l ++ r) := by
  cases l with
  | nil => exact absurd rfl hne
  | cons c l =>
      have hc := hl c (by simp)
      rw [List.cons_append, stops_cons]
      simp only [Bool.or_eq_false_iff, decide_eq_false_iff_not]
      constructor
      · rintro rfl
        simp [Char.isDigit] at hc
      · rintro rfl
        simp [Char.isDigit] at hc

theorem leadingDigits_append {d : Text} (hd : Digits d) (s : Text) :
    leadingDigits (d ++ s) = d ++ leadingDigits s :=
  List.takeWhile_append_of_pos hd

theorem afterDigits_append {d : Text} (hd : Digits d) (s : Text) :
    afterDigits (d ++ s) = afterDigits s :=
  List.dropWhile_append_of_pos hd

theorem leadingDigits_of_stops {s : Text} (hs : Stops Char.isDigit s) : leadingDigits s = [] :=
  takeWhile_append_of_stops (l := []) (fun _ hc => absurd hc List.not_mem_nil) hs

theorem afterDigits_of_stops {s : Text} (hs : Stops Char.isDigit s) : afterDigits s = s :=
  dropWhile_append_of_stops (l := []) (fun _ hc => absurd hc List.not_mem_nil) hs

/-- An exponent is read on as long as digits follow. -/
theorem Exponent.scan_text_append {e : Exponent} (he : e.WellFormed) (r : Text) :
    Exponent.scan (e.text ++ r) =
      (some { e with digits := e.digits ++ leadingDigits r }, afterDigits r) := by
  have hsign : scanSign (signText e.sign ++ (e.digits ++ r)) = (e.sign, e.digits ++ r) :=
    scanSign_append (stops_sign_of_digits he.digits he.nonempty r) e.sign
  have hne : e.digits ++ leadingDigits r ≠ [] := by simp [he.nonempty]
  simp only [Exponent.text, List.cons_append, List.append_assoc, Exponent.scan, hsign,
    leadingDigits_append he.digits, afterDigits_append he.digits, he.mark, hne, ne_eq,
    not_false_eq_true, and_self, if_true]

theorem Exponent.scan_append {x : Option Exponent} (hx : ∀ e, x = some e → e.WellFormed)
    {r : Text} (hr : AtBoundary r) : Exponent.scan (exponentText x ++ r) = (x, r) := by
  cases x with
  | none =>
      cases r with
      | nil => rfl
      | cons c r =>
          have hc : c ≠ 'e' ∧ c ≠ 'E' := by
            rw [AtBoundary, stops_cons] at hr
            constructor
            · rintro rfl
              simp [isTokenChar, isNameChar] at hr
            · rintro rfl
              simp [isTokenChar, isNameChar] at hr
          simp [exponentText, Exponent.scan, hc.1, hc.2]
  | some e =>
      rw [exponentText, Exponent.scan_text_append (hx e rfl),
        leadingDigits_of_stops hr.stops_isDigit, afterDigits_of_stops hr.stops_isDigit,
        List.append_nil]

theorem scanFraction_append {x : Option Text} (hx : ∀ f, x = some f → Digits f) {r : Text}
    (hr : Stops (fun c => c.isDigit || c = '.') r) :
    scanFraction (fractionText x ++ r) = (x, r) := by
  have hdigit : Stops Char.isDigit r := by
    apply hr.mono
    intro c hc
    simp [hc]
  cases x with
  | none =>
      cases r with
      | nil => rfl
      | cons c r =>
          rw [stops_cons] at hr
          simp only [fractionText, List.nil_append]
          unfold scanFraction
          split <;> simp_all
  | some f =>
      have hf := hx f rfl
      have htake : leadingDigits (f ++ r) = f := takeWhile_append_of_stops hf hdigit
      have hdrop : afterDigits (f ++ r) = r := dropWhile_append_of_stops hf hdigit
      simp only [fractionText, List.cons_append, scanFraction, htake, hdrop]

theorem Exponent.stops_text_append {e : Exponent} (he : e.WellFormed) (r : Text) :
    Stops (fun c => c.isDigit || c = '.') (e.text ++ r) := by
  rw [Exponent.text, List.cons_append, stops_cons]
  rcases he.mark with h | h <;> rw [h] <;> decide

theorem stops_exponentText_append {x : Option Exponent}
    (hx : ∀ e, x = some e → e.WellFormed) {r : Text} (hr : AtBoundary r) :
    Stops (fun c => c.isDigit || c = '.') (exponentText x ++ r) := by
  cases x with
  | none =>
      apply Stops.mono (p := isTokenChar) hr
      intro c hc
      rcases Bool.or_eq_true_iff.1 hc with hc | hc
      · simp [isTokenChar, isNameChar, Char.isAlphanum, hc]
      · simp [isTokenChar, hc]
  | some e => exact Exponent.stops_text_append (hx e rfl) r

theorem stops_isDigit_fractionText_append (x : Option Text) {r : Text}
    (hr : Stops (fun c => c.isDigit || c = '.') r) :
    Stops Char.isDigit (fractionText x ++ r) := by
  cases x with
  | none =>
      apply Stops.mono (p := fun c => c.isDigit || c = '.') hr
      intro c hc
      simp [hc]
  | some f => exact stops_isDigit_cons (by decide) (f ++ r)

/-- Scanning finds a well-formed numeral that ends at a boundary, if what is before its point
does not look like another sign. -/
theorem Numeral.scan_text_append_of_stops {n : Numeral} (hn : n.WellFormed) {r : Text}
    (hr : AtBoundary r) (hstops : Stops (fun c => c = '+' || c = '-')
      (n.whole ++ (fractionText n.fraction ++ (exponentText n.exponent ++ r)))) :
    Numeral.scan (n.text ++ r) = (n, r) := by
  have hexp := stops_exponentText_append hn.exponent hr
  have hfrac := stops_isDigit_fractionText_append n.fraction hexp
  have hsign := scanSign_append hstops n.sign
  have hwhole : leadingDigits (n.whole ++ (fractionText n.fraction ++
      (exponentText n.exponent ++ r))) = n.whole :=
    takeWhile_append_of_stops hn.whole hfrac
  have hafter : afterDigits (n.whole ++ (fractionText n.fraction ++
      (exponentText n.exponent ++ r))) = fractionText n.fraction ++
        (exponentText n.exponent ++ r) :=
    dropWhile_append_of_stops hn.whole hfrac
  simp only [Numeral.text, List.append_assoc, Numeral.scan, hsign, hwhole, hafter,
    scanFraction_append hn.fraction hexp, Exponent.scan_append hn.exponent hr]

/-- Scanning finds a well-formed numeral with a digit before its point that ends at a
boundary. -/
theorem Numeral.scan_text_append {n : Numeral} (hn : n.WellFormed) (hne : n.whole ≠ [])
    {r : Text} (hr : AtBoundary r) : Numeral.scan (n.text ++ r) = (n, r) :=
  scan_text_append_of_stops hn hr (stops_sign_of_digits hn.whole hne _)

/-- A well-formed numeral is all that is scanned of its own text. -/
theorem Numeral.scan_text {n : Numeral} (hn : n.WellFormed) : Numeral.scan n.text = (n, []) := by
  have hwhole : Stops (fun c => c = '+' || c = '-') n.whole := by
    cases h : n.whole with
    | nil => exact stops_nil _
    | cons c d =>
        have hd := stops_sign_of_digits hn.whole (by simp [h]) []
        rwa [List.append_nil, h] at hd
  have hfraction : Stops (fun c => c = '+' || c = '-') (fractionText n.fraction) := by
    cases n.fraction with
    | none => exact stops_nil _
    | some f => exact (stops_cons _ _ _).2 (by decide)
  have hexponent : Stops (fun c => c = '+' || c = '-') (exponentText n.exponent) := by
    cases he : n.exponent with
    | none => exact stops_nil _
    | some e =>
        rw [exponentText, Exponent.text, stops_cons]
        rcases (hn.exponent e he).mark with h | h <;> rw [h] <;> decide
  have hscan := scan_text_append_of_stops hn (stops_nil isTokenChar)
    (hwhole.append (hfraction.append (hexponent.append (stops_nil _))))
  rwa [List.append_nil] at hscan

theorem number?_append {l r : Text} (hl : IsNumber l) (hr : AtBoundary r) :
    number? (l ++ r) = some (l, r) := by
  obtain ⟨n, hn, hne, rfl⟩ := hl
  simp only [number?, Numeral.scan_text_append hn hne hr, hne, if_false]

/-- A number begins with a sign or with a digit. -/
theorem IsNumber.exists_cons {l : Text} (hl : IsNumber l) :
    ∃ c t, l = c :: t ∧ (c = '+' ∨ c = '-' ∨ c.isDigit = true) := by
  obtain ⟨⟨sign, whole, fraction, exponent⟩, hn, hne, rfl⟩ := hl
  cases sign with
  | none =>
      obtain ⟨c, t, hwhole⟩ := List.exists_cons_of_ne_nil hne
      simp only at hwhole
      have hc := hn.whole c (by simp [hwhole])
      refine ⟨c, t ++ (fractionText fraction ++ exponentText exponent), ?_, .inr (.inr hc)⟩
      simp [Numeral.text, signText, hwhole]
  | some sign =>
      cases sign with
      | plus => exact ⟨'+', _, rfl, .inl rfl⟩
      | minus => exact ⟨'-', _, rfl, .inr (.inl rfl)⟩

theorem IsNumber.ne_nil {l : Text} (hl : IsNumber l) : l ≠ [] := by
  obtain ⟨c, t, rfl, -⟩ := hl.exists_cons
  exact List.cons_ne_nil c t

theorem IsNumber.stops_isBlank {l : Text} (hl : IsNumber l) (r : Text) :
    Stops isBlank (l ++ r) := by
  obtain ⟨c, t, rfl, hc⟩ := hl.exists_cons
  rw [List.cons_append, stops_cons]
  rcases hc with rfl | rfl | hc
  · decide
  · decide
  · exact isBlank_eq_false_of_isTokenChar (isTokenChar_of_isDigit hc)

theorem mem_signText {sign : Option Sign} {c : Char} (hc : c ∈ signText sign) :
    c = '+' ∨ c = '-' := by
  rcases sign with _ | _ | _
  · exact absurd hc List.not_mem_nil
  · exact .inl (List.mem_singleton.1 hc)
  · exact .inr (List.mem_singleton.1 hc)

/-- In front of its exponent a numeral has digits, signs and a point only. -/
theorem Numeral.WellFormed.mem_text_or_exponent {n : Numeral} (hn : n.WellFormed) {c : Char}
    (hc : c ∈ n.text) :
    c.isDigit = true ∨ c ∈ ['+', '-', '.'] ∨ c ∈ exponentText n.exponent := by
  rw [Numeral.text, List.mem_append, List.mem_append, List.mem_append] at hc
  rcases hc with ((hc | hc) | hc) | hc
  · rcases mem_signText hc with rfl | rfl
    · exact .inr (.inl (by decide))
    · exact .inr (.inl (by decide))
  · exact .inl (hn.whole c hc)
  · cases hf : n.fraction with
    | none => simp [hf, fractionText] at hc
    | some f =>
        rw [hf, fractionText, List.mem_cons] at hc
        rcases hc with rfl | hc
        · exact .inr (.inl (by decide))
        · exact .inl (hn.fraction f hf c hc)
  · exact .inr (.inr hc)

/-- A numeral is written with digits and a few other characters only. -/
theorem Numeral.WellFormed.mem_text {n : Numeral} (hn : n.WellFormed) {c : Char}
    (hc : c ∈ n.text) : c.isDigit = true ∨ c ∈ ['+', '-', '.', 'e', 'E'] := by
  rcases hn.mem_text_or_exponent hc with hc | hc | hc
  · exact .inl hc
  · exact .inr (List.mem_append_left ['e', 'E'] hc)
  · cases he : n.exponent with
    | none => simp [he, exponentText] at hc
    | some e =>
        rw [he, exponentText, Exponent.text, List.mem_cons, List.mem_append] at hc
        rcases hc with rfl | hc | hc
        · rcases (hn.exponent e he).mark with h | h <;> simp [h]
        · rcases mem_signText hc with rfl | rfl <;> simp
        · exact .inl ((hn.exponent e he).digits c hc)

theorem Numeral.WellFormed.not_mem_text {n : Numeral} (hn : n.WellFormed) {c : Char}
    (hdigit : c.isDigit = false) (hother : c ∉ ['+', '-', '.', 'e', 'E']) : c ∉ n.text := by
  intro hmem
  rcases hn.mem_text hmem with h | h
  · rw [h] at hdigit
    exact absurd hdigit (by decide)
  · exact hother h

theorem IsNumber.mem {l : Text} (hl : IsNumber l) {c : Char} (hc : c ∈ l) :
    c.isDigit = true ∨ c ∈ ['+', '-', '.', 'e', 'E'] := by
  obtain ⟨n, hn, -, rfl⟩ := hl
  exact hn.mem_text hc

theorem IsNumber.not_mem {l : Text} (hl : IsNumber l) {c : Char} (hdigit : c.isDigit = false)
    (hother : c ∉ ['+', '-', '.', 'e', 'E']) : c ∉ l := by
  obtain ⟨n, hn, -, rfl⟩ := hl
  exact hn.not_mem_text hdigit hother

/-! ### Every number that is read is one -/

theorem Exponent.wellFormed_of_scan {s : Text} {e : Exponent}
    (h : (Exponent.scan s).1 = some e) : e.WellFormed := by
  cases s with
  | nil => simp [Exponent.scan] at h
  | cons c s =>
      simp only [Exponent.scan] at h
      split at h
      · rename_i hc
        cases h
        exact ⟨hc.1, digits_leadingDigits _, hc.2⟩
      · simp at h

theorem digits_of_scanFraction {s f : Text} (h : (scanFraction s).1 = some f) :
    Digits f := by
  unfold scanFraction at h
  split at h
  · cases h
    exact digits_leadingDigits _
  · simp at h

theorem Numeral.wellFormed_scan (s : Text) : (Numeral.scan s).1.WellFormed where
  whole := digits_leadingDigits _
  fraction _ hf := digits_of_scanFraction hf
  exponent _ he := Exponent.wellFormed_of_scan he

theorem Numeral.wellFormed_of_ofText? {s : Text} {n : Numeral} (h : ofText? s = some n) :
    n.WellFormed := by
  have hscan := wellFormed_scan s
  unfold ofText? at h
  split at h
  · rename_i m hm
    rw [hm] at hscan
    split at h
    · simp at h
    · cases h
      exact hscan
  · simp at h

/-- The numeral that makes up a text is the well-formed one that has a digit and is written
so. -/
theorem Numeral.ofText?_eq_some_iff (s : Text) (n : Numeral) :
    ofText? s = some n ↔ n.WellFormed ∧ n.digits ≠ [] ∧ n.text = s := by
  constructor
  · intro h
    refine ⟨wellFormed_of_ofText? h, ?_, text_of_ofText? h⟩
    unfold ofText? at h
    split at h
    · split at h
      · simp at h
      · rename_i hdigits
        cases h
        exact hdigits
    · simp at h
  · rintro ⟨hn, hdigits, rfl⟩
    simp only [ofText?, scan_text hn, if_neg hdigits]

theorem isNumber_of_number? {s l r : Text} (h : number? s = some (l, r)) : IsNumber l := by
  simp only [number?] at h
  split at h
  · simp at h
  · rename_i hwhole
    cases h
    exact ⟨_, Numeral.wellFormed_scan s, hwhole, rfl⟩

theorem isNumber_iff (l : Text) : IsNumber l ↔ number? l = some (l, []) := by
  constructor
  · intro hl
    have hread := number?_append hl (stops_nil isTokenChar)
    rwa [List.append_nil] at hread
  · exact isNumber_of_number?

instance (l : Text) : Decidable (IsNumber l) := decidable_of_iff _ (isNumber_iff l).symm

theorem number?_eq_none_iff (s : Text) :
    number? s = none ↔ leadingDigits (scanSign s).2 = [] := by
  have hwhole : (Numeral.scan s).1.whole = leadingDigits (scanSign s).2 := rfl
  rw [← hwhole]
  simp only [number?]
  split
  · rename_i h
    simp [h]
  · rename_i h
    simp [h]

end QuizFormula

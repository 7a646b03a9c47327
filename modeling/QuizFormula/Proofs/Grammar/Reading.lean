import QuizFormula.Expr.Reading
import QuizFormula.Proofs.Grammar.Rules

/-!
# Reading is derivation

The reader of formulas takes the longest token it can, tries numbers first and never
turns back, and yet it reads exactly what the grammar derives. Whatever it reads is
derived (`formula_sound`), which follows the recursion of the reader. Conversely it
reads every derived formula to its end (`formula_complete`), provided that no operator
and no character of a token comes after it (`EndsFormula`); this follows the formula,
and at each token the character after it shows that the reader stops there and takes
no other rule. Since the reader is a function, a text has one formula at most
(`FormulaAt.unique`).
-/

namespace QuizFormula

/-! ### What is read is derived -/

/-- What `inner` reads is derived and at most `m` levels deep. -/
def Derived (w : WildcardStyle) (m : Nat) (inner : Pattern Expr) : Prop :=
  ∀ {s r : Text} {e : Expr}, inner.read? s = some (e, r) → FormulaAt w e s r ∧ e.depth ≤ m

section Sound

variable {w : WildcardStyle} {m : Nat} {inner : Pattern Expr}

theorem items?_sound (hinner : Derived w m inner) {s r : Text} {args : Args}
    (h : items? inner s = some (args, r)) :
    (∃ e args', args = .cons e args') ∧ ArgumentsAt w args s r ∧ args.depth ≤ m := by
  fun_induction items? inner s generalizing args r with
  | case1 s hs => simp at h
  | case2 s e u hs t hu ih =>
      obtain ⟨⟨args', r'⟩, hx, heq⟩ := Option.map_eq_some_iff.1 h
      cases heq
      obtain ⟨⟨e', args'', rfl⟩, hargs, hdepth⟩ := ih hx
      obtain ⟨he, hedepth⟩ := hinner hs
      obtain ⟨b, hb, rfl⟩ := exists_blank_of_symbol? hu
      refine ⟨⟨e, _, rfl⟩, .more he hb hargs, ?_⟩
      exact Nat.max_le.2 ⟨hedepth, hdepth⟩
  | case3 s e u hs hu =>
      obtain ⟨t, ht, heq⟩ := Option.map_eq_some_iff.1 h
      cases heq
      obtain ⟨he, hedepth⟩ := hinner hs
      obtain ⟨b, hb, rfl⟩ := exists_blank_of_symbol? ht
      refine ⟨⟨e, _, rfl⟩, .one he hb, ?_⟩
      exact Nat.max_le.2 ⟨hedepth, Nat.zero_le m⟩

theorem arguments?_sound (hinner : Derived w m inner) {s r : Text} {args : Args}
    (h : arguments? inner s = some (args, r)) : ArgumentsAt w args s r ∧ args.depth ≤ m := by
  unfold arguments? at h
  split at h
  · rename_i t ht
    cases h
    obtain ⟨b, hb, rfl⟩ := exists_blank_of_symbol? ht
    exact ⟨.none hb, Nat.zero_le m⟩
  · exact (items?_sound hinner h).2

theorem wildcardAt_of_markedName? {s n r : Text} (h : markedName? w s = some (n, r)) :
    WildcardAt w n s r := by
  cases w with
  | braced =>
      obtain ⟨t, rfl, ht⟩ := (bracedName?_eq_some_iff s n r).1 h
      rw [← append_eq_of_name? ht]
      exact .braced (isName_of_name? ht)
  | bare => simp [markedName?] at h
  | tex =>
      obtain ⟨hn, rfl⟩ := eq_of_macroName? h
      by_cases hpi : n = piMacro
      · rw [if_pos hpi, hpi]
        exact .pi
      · rw [if_neg hpi]
        exact .tex hn hpi

theorem named?_sound (hinner : Derived w m inner) {s r : Text} {a : Atom}
    (h : named? w inner s = some (a, r)) : SignedAt w a s r ∧ a.depth ≤ m := by
  unfold named? at h
  split at h
  · simp at h
  · rename_i n u hn
    have hname := isName_of_name? hn
    have hs := append_eq_of_name? hn
    split at h
    · rename_i t ht
      obtain ⟨⟨args, r'⟩, hx, heq⟩ := Option.map_eq_some_iff.1 h
      cases heq
      obtain ⟨hargs, hdepth⟩ := arguments?_sound hinner hx
      obtain ⟨b, hb, rfl⟩ := exists_blank_of_symbol? ht
      rw [← hs]
      exact ⟨.call hname hb hargs, hdepth⟩
    · rename_i hcall
      rw [symbol?_eq_none_iff_nextChar, ← noCall_iff] at hcall
      cases w with
      | braced => simp at h
      | bare =>
          cases h
          rw [← hs]
          exact ⟨.wildcard (.bare hname hcall), Nat.zero_le m⟩
      | tex => simp at h

theorem primary?_sound (hinner : Derived w m inner) {s r : Text} {a : Atom}
    (h : primary? w inner s = some (a, r)) : SignedAt w a s r ∧ a.depth ≤ m := by
  unfold primary? at h
  split at h
  · rename_i t
    cases ht : inner.read? t with
    | none => simp [ht] at h
    | some x =>
        rw [ht] at h
        obtain ⟨u, hu, heq⟩ := Option.map_eq_some_iff.1 h
        cases heq
        obtain ⟨he, hdepth⟩ := hinner ht
        obtain ⟨b, hb, hx⟩ := exists_blank_of_symbol? hu
        rw [hx] at he
        exact ⟨.group he hb, hdepth⟩
  · split at h
    · rename_i n u hn
      cases h
      exact ⟨.wildcard (wildcardAt_of_markedName? hn), Nat.zero_le m⟩
    · exact named?_sound hinner h

theorem signed?_sound (hinner : Derived w m inner) {s r : Text} {a : Atom}
    (h : signed? w inner s = some (a, r)) : SignedAt w a s r ∧ a.depth ≤ m := by
  fun_induction signed? w inner s generalizing a r with
  | case1 s ih =>
      obtain ⟨⟨a', r'⟩, hx, heq⟩ := Option.map_eq_some_iff.1 h
      cases heq
      obtain ⟨ha, hdepth⟩ := ih hx
      obtain ⟨b, hb, hs⟩ := exists_blank_of_skipBlanks (s := s) rfl
      rw [hs]
      exact ⟨.minus hb ha, hdepth⟩
  | case2 s => exact primary?_sound hinner h

theorem atom?_sound (hinner : Derived w m inner) {s r : Text} {a : Atom}
    (h : atom? w inner s = some (a, r)) : AtomAt w a s r ∧ a.depth ≤ m := by
  obtain ⟨b, hb, hs⟩ := exists_blank_of_skipBlanks (s := s) rfl
  unfold atom? at h
  split at h
  · rename_i l u hl
    cases h
    rw [hs, ← append_eq_of_number? hl]
    exact ⟨.number hb (isNumber_of_number? hl), Nat.zero_le m⟩
  · obtain ⟨ha, hdepth⟩ := signed?_sound hinner h
    rw [hs]
    exact ⟨.signed hb ha, hdepth⟩

theorem chain?_sound (hinner : Derived w m inner) {s r : Text} {e : Expr}
    (h : chain? (atom w inner) s = some (e, r)) : FormulaAt w e s r ∧ e.depth ≤ m + 1 := by
  fun_induction chain? (atom w inner) s generalizing e r with
  | case1 s hs => simp at h
  | case2 s a u hs hu =>
      cases h
      obtain ⟨ha, hdepth⟩ := atom?_sound hinner hs
      exact ⟨.last ha, Nat.succ_le_succ hdepth⟩
  | case3 s a u hs op t hu ih =>
      obtain ⟨⟨e', r'⟩, hx, heq⟩ := Option.map_eq_some_iff.1 h
      cases heq
      obtain ⟨ha, hadepth⟩ := atom?_sound hinner hs
      obtain ⟨he, hedepth⟩ := ih hx
      obtain ⟨b, hb, rfl⟩ := exists_blank_of_skipBlanks ((operator?_eq_some_iff u t op).1 hu)
      exact ⟨.chain ha hb he, Nat.max_le.2 ⟨Nat.succ_le_succ hadepth, hedepth⟩⟩

end Sound

/-- A formula that is read is derived, and as deep as the reader allows at most. -/
theorem formula_sound (w : WildcardStyle) (depth : Nat) : Derived w depth (formula w depth) := by
  induction depth with
  | zero =>
      intro s r e h
      simp [formula_zero] at h
  | succ depth ih =>
      intro s r e h
      rw [formula_succ] at h
      exact chain?_sound ih h

/-! ### What is derived is read -/

/-- An atom other than a number begins with neither a blank nor a digit, a plus sign or
a closing parenthesis. -/
theorem SignedAt.exists_cons {w : WildcardStyle} {a : Atom} {s r : Text}
    (h : SignedAt w a s r) :
    ∃ c t, s = c :: t ∧ isBlank c = false ∧ c.isDigit = false ∧ c ∉ ['+', ')'] := by
  have hname : ∀ {n t : Text}, IsName n → ∃ c t', n ++ t = c :: t' ∧ isBlank c = false ∧
      c.isDigit = false ∧ c ∉ ['+', ')'] := by
    rintro n t ⟨c, n', rfl, hc, -⟩
    refine ⟨c, n' ++ t, rfl, isBlank_eq_false_of_isTokenChar (isTokenChar_of_isAlpha hc),
      isDigit_eq_false_of_isAlpha hc, ?_⟩
    intro hmem
    simp only [List.mem_cons, List.not_mem_nil, or_false] at hmem
    rcases hmem with rfl | rfl <;> exact absurd hc (by decide)
  cases h with
  | minus => exact ⟨'-', _, rfl, by decide⟩
  | group => exact ⟨'(', _, rfl, by decide⟩
  | wildcard hn =>
      cases hn with
      | braced => exact ⟨'{', _, rfl, by decide⟩
      | bare hn => exact hname hn
      | tex => exact ⟨'\\', _, rfl, by decide⟩
      | pi => exact ⟨'\\', _, rfl, by decide⟩
  | call hn => exact hname hn

theorem scanSign_cons_of_ne {c : Char} (hplus : c ≠ '+') (hminus : c ≠ '-') (t : Text) :
    scanSign (c :: t) = (none, c :: t) := by
  unfold scanSign
  split <;> simp_all

theorem isDigit_eq_false_of_isBlank {c : Char} (h : isBlank c = true) : c.isDigit = false := by
  cases hd : c.isDigit with
  | false => rfl
  | true =>
      rw [isBlank_eq_false_of_isTokenChar (isTokenChar_of_isDigit hd)] at h
      exact h.symm

/-- A sign in front of an atom other than a number is no sign of a number, since no
digit follows it. -/
theorem SignedAt.stops_scanSign {w : WildcardStyle} {a : Atom} {s r : Text}
    (h : SignedAt w a s r) : Stops Char.isDigit (scanSign s).2 := by
  obtain ⟨c, t, rfl, hblank, hdigit, hc⟩ := h.exists_cons
  by_cases hminus : c = '-'
  · subst hminus
    change Stops Char.isDigit t
    generalize hs : '-' :: t = s at h
    cases h with
    | @minus _ b s _ hb ha =>
        obtain ⟨-, rfl⟩ := List.cons.inj hs
        cases b with
        | nil =>
            obtain ⟨d, u, rfl, -, hd, -⟩ := ha.exists_cons
            exact stops_isDigit_cons hd u
        | cons d b => exact stops_isDigit_cons (isDigit_eq_false_of_isBlank (hb d (by simp))) _
    | group => simp at hs
    | wildcard hn =>
        cases hn with
        | braced => simp at hs
        | bare hn =>
            obtain ⟨d, n, rfl, hd, -⟩ := hn
            rw [← (List.cons.inj hs).1] at hd
            exact absurd hd (by decide)
        | tex => simp at hs
        | pi => simp at hs
    | call hn =>
        obtain ⟨d, n, rfl, hd, -⟩ := hn
        rw [← (List.cons.inj hs).1] at hd
        exact absurd hd (by decide)
  · have hplus : c ≠ '+' := by
      rintro rfl
      exact hc (by simp)
    rw [scanSign_cons_of_ne hplus hminus]
    exact stops_isDigit_cons hdigit t

theorem SignedAt.number?_eq_none {w : WildcardStyle} {a : Atom} {s r : Text}
    (h : SignedAt w a s r) : number? s = none := by
  rw [number?_eq_none_iff]
  have hstops := h.stops_scanSign
  cases hs : (scanSign s).2 with
  | nil => rfl
  | cons c t =>
      rw [hs, stops_cons] at hstops
      simp [leadingDigits, hstops]

/-- A formula does not begin with the parenthesis that closes an argument list. -/
theorem FormulaAt.nextChar_ne {w : WildcardStyle} {e : Expr} {s r : Text}
    (h : FormulaAt w e s r) : nextChar s ≠ some ')' := by
  have hatom : ∀ {a : Atom} {t : Text}, AtomAt w a s t → nextChar s ≠ some ')' := by
    intro a t ha
    cases ha with
    | number hb hl =>
        obtain ⟨c, l, rfl, hc⟩ := hl.exists_cons
        have hblank : isBlank c = false ∧ c ≠ ')' := by
          rcases hc with rfl | rfl | hc
          · decide
          · decide
          · refine ⟨isBlank_eq_false_of_isTokenChar (isTokenChar_of_isDigit hc), ?_⟩
            rintro rfl
            exact absurd hc (by decide)
        rw [List.cons_append, nextChar_append_cons hb hblank.1]
        simpa using hblank.2
    | signed hb ha =>
        obtain ⟨c, t, rfl, hblank, -, hc⟩ := ha.exists_cons
        rw [nextChar_append_cons hb hblank]
        rintro ⟨⟩
        exact hc (by simp)
  cases h with
  | last ha => exact hatom ha
  | chain ha => exact hatom ha

theorem items?_of_comma {inner : Pattern Expr} {s r t : Text} {e : Expr}
    (hs : inner.read? s = some (e, r)) (hr : symbol? ',' r = some t) :
    items? inner s = (items? inner t).map fun x => (.cons e x.1, x.2) := by
  rw [items?]
  split
  · rename_i hnone
    simp [hs] at hnone
  · rename_i e' r' hsome
    rw [hs] at hsome
    cases hsome
    split
    · rename_i t' ht
      rw [hr] at ht
      cases ht
      rfl
    · rename_i hnone
      simp [hr] at hnone

theorem items?_of_no_comma {inner : Pattern Expr} {s r : Text} {e : Expr}
    (hs : inner.read? s = some (e, r)) (hr : symbol? ',' r = none) :
    items? inner s = (symbol? ')' r).map fun t => (.cons e .nil, t) := by
  rw [items?]
  split
  · rename_i hnone
    simp [hs] at hnone
  · rename_i e' r' hsome
    rw [hs] at hsome
    cases hsome
    split
    · rename_i t' ht
      simp [hr] at ht
    · rfl

theorem chain?_of_operator {p : Pattern Atom} {s r t : Text} {a : Atom} {op : Operator}
    (hs : p.read? s = some (a, r)) (hr : operator? r = some (op, t)) :
    chain? p s = (chain? p t).map fun x => (.chain a op x.1, x.2) := by
  rw [chain?]
  split
  · rename_i hnone
    simp [hs] at hnone
  · rename_i a' r' hsome
    rw [hs] at hsome
    cases hsome
    split
    · rename_i hnone
      simp [hr] at hnone
    · rename_i op' t' ht
      rw [hr] at ht
      cases ht
      rfl

theorem chain?_of_no_operator {p : Pattern Atom} {s r : Text} {a : Atom}
    (hs : p.read? s = some (a, r)) (hr : operator? r = none) :
    chain? p s = some (.last a, r) := by
  rw [chain?]
  split
  · rename_i hnone
    simp [hs] at hnone
  · rename_i a' r' hsome
    rw [hs] at hsome
    cases hsome
    split
    · rfl
    · rename_i op' t' ht
      simp [hr] at ht

theorem operator?_append_cons {b : Text} (hb : Blank b) (op : Operator) (r : Text) :
    operator? (b ++ op.char :: r) = some (op, r) := by
  rw [operator?_eq_some_iff, skipBlanks_append_cons hb op.isBlank_char]

theorem operator?_eq_none_of_nextChar {r : Text}
    (h : ∀ op : Operator, nextChar r ≠ some op.char) : operator? r = none := by
  cases hr : operator? r with
  | none => rfl
  | some x =>
      have hs := (operator?_eq_some_iff r x.2 x.1).1 hr
      exact absurd (by rw [nextChar, hs, List.head?_cons]) (h x.1)

/-- A formula in front of the text cannot go on in it: neither does its last token, nor
does an operator follow. -/
structure EndsFormula (r : Text) : Prop where
  atBoundary : AtBoundary r
  operator?_eq_none : operator? r = none

/-- What closes a group, an argument or a block ends the formula in it. -/
theorem Blank.endsFormula_append_cons {b : Text} (hb : Blank b) {c : Char}
    (hc : c ∈ [')', ',', '}']) (r : Text) : EndsFormula (b ++ c :: r) := by
  have htoken : isTokenChar c = false ∧ isBlank c = false ∧ ∀ op : Operator, c ≠ op.char := by
    simp only [List.mem_cons, List.not_mem_nil, or_false] at hc
    rcases hc with rfl | rfl | rfl <;> exact ⟨by decide, by decide, by rintro ⟨⟩ <;> decide⟩
  obtain ⟨htoken, hblank, hop⟩ := htoken
  refine ⟨atBoundary_append_cons hb htoken r, operator?_eq_none_of_nextChar fun op => ?_⟩
  rw [nextChar_append_cons hb hblank]
  simpa using hop op

theorem Blank.endsFormula {b : Text} (hb : Blank b) : EndsFormula b := by
  have hskip := skipBlanks_append hb []
  rw [List.append_nil, skipBlanks_nil] at hskip
  refine ⟨?_, operator?_eq_none_of_nextChar fun op => ?_⟩
  · cases b with
    | nil => exact stops_nil isTokenChar
    | cons c b =>
        rw [AtBoundary, stops_cons]
        exact isTokenChar_eq_false_of_isBlank (hb c (by simp))
  · simp [nextChar, hskip]

/-- An atom is read once its signed form is, numbers being tried first. -/
theorem atom?_complete {w : WildcardStyle} {inner : Pattern Expr} {a : Atom} {s r : Text}
    (hsigned : ∀ {s : Text}, SignedAt w a s r → signed? w inner s = some (a, r))
    (hr : AtBoundary r) (h : AtomAt w a s r) : atom? w inner s = some (a, r) := by
  cases h with
  | @number l b _ hb hl =>
      have hskip : skipBlanks (b ++ (l ++ r)) = l ++ r := by
        rw [skipBlanks_append hb, skipBlanks_of_stops (hl.stops_isBlank r)]
      simp only [atom?, hskip, number?_append hl hr]
  | @signed _ b s _ hb ha =>
      -- A minus sign in front of the atom is not taken for the sign of a number.
      obtain ⟨c, t, rfl, hblank, -⟩ := ha.exists_cons
      have hskip := skipBlanks_append_cons hb hblank t
      simp only [atom?, hskip, ha.number?_eq_none, hsigned ha]

/-- Arguments are read once they are read as items, the empty list being tried first. -/
theorem arguments?_complete {w : WildcardStyle} {inner : Pattern Expr} {args : Args}
    {s r : Text}
    (hitems : ArgumentsAt w args s r → args ≠ .nil → items? inner s = some (args, r))
    (h : ArgumentsAt w args s r) : arguments? inner s = some (args, r) := by
  cases args with
  | nil =>
      cases h with
      | none hb => simp only [arguments?, symbol?_append_cons hb (c := ')') (by decide)]
  | cons e args =>
      have hclose : symbol? ')' s = none := by
        rw [symbol?_eq_none_iff_nextChar]
        cases h with
        | one he => exact he.nextChar_ne
        | more he => exact he.nextChar_ne
      simp only [arguments?, hclose, hitems h (by simp)]

theorem signed?_minus {w : WildcardStyle} {inner : Pattern Expr} (s : Text) :
    signed? w inner ('-' :: s) =
      (signed? w inner (skipBlanks s)).map fun x => (.minus x.1, x.2) := by
  rw [signed?]

theorem signed?_of_ne {w : WildcardStyle} {inner : Pattern Expr} {c : Char} (hc : c ≠ '-')
    (s : Text) : signed? w inner (c :: s) = primary? w inner (c :: s) := by
  rw [signed?]
  simpa using hc

theorem primary?_of_ne {w : WildcardStyle} {inner : Pattern Expr} {c : Char} (hc : c ≠ '(')
    (s : Text) : primary? w inner (c :: s) =
      match markedName? w (c :: s) with
      | some (n, r) => some (.wildcard n, r)
      | none => named? w inner (c :: s) := by
  unfold primary?
  split
  · simp_all
  · rfl

theorem signed?_of_markedName? {w : WildcardStyle} {inner : Pattern Expr} {c : Char}
    {s n r : Text} (hminus : c ≠ '-') (hparen : c ≠ '(')
    (hn : markedName? w (c :: s) = some (n, r)) :
    signed? w inner (c :: s) = some (.wildcard n, r) := by
  rw [signed?_of_ne hminus, primary?_of_ne hparen, hn]

theorem signed?_of_isName {w : WildcardStyle} {inner : Pattern Expr} {n : Text}
    (hn : IsName n) (r : Text) : signed? w inner (n ++ r) = named? w inner (n ++ r) := by
  obtain ⟨c, t, rfl, hc, -⟩ := hn
  have hne : ∀ {d : Char}, d.isAlpha = false → c ≠ d := by
    rintro d hd rfl
    simp [hc] at hd
  have hmark : markedName? w (c :: (t ++ r)) = none := by
    cases w with
    | braced =>
        have hbrace : c ≠ '{' := hne (by decide)
        simp [markedName?, bracedName?, hbrace]
    | bare => rfl
    | tex =>
        have hslash : c ≠ '\\' := hne (by decide)
        simp [markedName?, macroName?, hslash]
  rw [List.cons_append, signed?_of_ne (hne (by decide)), primary?_of_ne (hne (by decide)), hmark]

theorem signed?_of_wildcardAt {w : WildcardStyle} {inner : Pattern Expr} {n s r : Text}
    (h : WildcardAt w n s r) (hr : AtBoundary r) :
    signed? w inner s = some (.wildcard n, r) := by
  cases h with
  | braced hn =>
      exact signed?_of_markedName? (by decide) (by decide) (bracedName?_append hn)
  | bare hn hcall =>
      -- A bare name is tried as the name of a call first.
      rw [noCall_iff, ← symbol?_eq_none_iff_nextChar] at hcall
      rw [signed?_of_isName hn]
      simp only [named?, name?_append hn hr.stops_isNameChar, hcall]
  | tex hn hpi =>
      exact signed?_of_markedName? (by decide) (by decide) (macroName?_append hn hpi r)
  | pi =>
      exact signed?_of_markedName? (by decide) (by decide) (macroName?_piMacro_append hr)

mutual

/-- A derived formula is read to its end when nothing after it could be part of it. -/
theorem formula_complete {w : WildcardStyle} : ∀ {e : Expr} {s r : Text} {depth : Nat},
    FormulaAt w e s r → EndsFormula r → e.depth ≤ depth →
      (formula w depth).read? s = some (e, r)
  | .last a, s, r, 0, _, _, hdepth => absurd hdepth (Nat.not_succ_le_zero _)
  | .last a, s, r, depth + 1, h, hr, hdepth => by
      cases h with
      | last ha =>
          have hread : (atom w (formula w depth)).read? s = some (a, r) :=
            atom?_complete
              (fun h => signed?_complete h hr.atBoundary (Nat.le_of_succ_le_succ hdepth))
              hr.atBoundary ha
          exact chain?_of_no_operator hread hr.operator?_eq_none
  | .chain a op e, s, r, 0, _, _, hdepth =>
      absurd (Nat.max_le.1 hdepth).1 (Nat.not_succ_le_zero _)
  | .chain a op e, s, r, depth + 1, h, hr, hdepth => by
      -- What is inside the atom is one level down, the rest of the chain is not.
      obtain ⟨hadepth, hedepth⟩ := Nat.max_le.1 hdepth
      cases h with
      | @chain _ _ _ _ b t _ ha hb he =>
          have hr' := atBoundary_append_cons hb op.isTokenChar_char t
          have hread : (atom w (formula w depth)).read? s = some (a, b ++ op.char :: t) :=
            atom?_complete (fun h => signed?_complete h hr' (Nat.le_of_succ_le_succ hadepth)) hr' ha
          have hrest : (formula w (depth + 1)).read? t = some (e, r) :=
            formula_complete he hr hedepth
          change chain? (atom w (formula w depth)) t = some (e, r) at hrest
          change chain? (atom w (formula w depth)) s = some (.chain a op e, r)
          rw [chain?_of_operator hread (operator?_append_cons hb op t), hrest, Option.map_some]

theorem signed?_complete {w : WildcardStyle} : ∀ {a : Atom} {s r : Text} {depth : Nat},
    SignedAt w a s r → AtBoundary r → a.depth ≤ depth →
      signed? w (formula w depth) s = some (a, r)
  | .number l, s, r, depth, h, _, _ => nomatch h
  | .wildcard n, s, r, depth, h, hr, _ => by
      cases h with
      | wildcard hn => exact signed?_of_wildcardAt hn hr
  | .group e, s, r, depth, h, hr, hdepth => by
      cases h with
      | @group _ t b _ he hb =>
          have hread : (formula w depth).read? t = some (e, b ++ ')' :: r) :=
            formula_complete he (hb.endsFormula_append_cons (by simp) r) hdepth
          rw [signed?_of_ne (by decide)]
          simp only [primary?, hread, symbol?_append_cons hb (c := ')') (by decide),
            Option.map_some]
  | .call n args, s, r, depth, h, hr, hdepth => by
      cases h with
      | @call _ b t _ _ hn hb hargs =>
          have hbound := atBoundary_append_cons hb (c := '(') (by decide) t
          have hread : arguments? (formula w depth) t = some (args, r) :=
            arguments?_complete (fun h hne => items?_complete h hdepth hne) hargs
          rw [signed?_of_isName hn]
          simp only [named?, name?_append hn hbound.stops_isNameChar,
            symbol?_append_cons hb (c := '(') (by decide), hread, Option.map_some]
  | .minus a, s, r, depth, h, hr, hdepth => by
      cases h with
      | @minus _ b t _ hb ha =>
          obtain ⟨c, u, rfl, hblank, -⟩ := ha.exists_cons
          rw [signed?_minus, skipBlanks_append_cons hb hblank, signed?_complete ha hr hdepth,
            Option.map_some]

theorem items?_complete {w : WildcardStyle} : ∀ {args : Args} {s r : Text} {depth : Nat},
    ArgumentsAt w args s r → args.depth ≤ depth → args ≠ .nil →
      items? (formula w depth) s = some (args, r)
  | .nil, _, _, _, _, _, hne => absurd rfl hne
  | .cons e .nil, s, r, depth, h, hdepth, _ => by
      cases h with
      | @one _ _ b _ he hb =>
          have hread := formula_complete he (hb.endsFormula_append_cons (by simp) r)
            (Nat.max_le.1 hdepth).1
          have hcomma : symbol? ',' (b ++ ')' :: r) = none := by
            rw [symbol?_eq_none_iff_nextChar, nextChar_append_cons hb (by decide)]
            decide
          rw [items?_of_no_comma hread hcomma, symbol?_append_cons hb (by decide),
            Option.map_some]
  | .cons e (.cons e' args), s, r, depth, h, hdepth, _ => by
      cases h with
      | @more _ _ _ _ b t _ he hb hargs =>
          have hread := formula_complete he (hb.endsFormula_append_cons (by simp) t)
            (Nat.max_le.1 hdepth).1
          rw [items?_of_comma hread (symbol?_append_cons hb (by decide) t),
            items?_complete hargs (Nat.max_le.1 hdepth).2 (by simp), Option.map_some]

end

/-- A text is one formula at most. -/
theorem FormulaAt.unique {w : WildcardStyle} {e e' : Expr} {s r r' : Text}
    (h : FormulaAt w e s r) (h' : FormulaAt w e' s r') (hr : EndsFormula r)
    (hr' : EndsFormula r') : e = e' ∧ r = r' := by
  have hread := formula_complete h hr (Nat.le_max_left e.depth e'.depth)
  have hread' := formula_complete h' hr' (Nat.le_max_right e.depth e'.depth)
  rw [hread] at hread'
  cases hread'
  exact ⟨rfl, rfl⟩

end QuizFormula

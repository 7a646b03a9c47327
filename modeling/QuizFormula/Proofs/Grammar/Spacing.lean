import QuizFormula.Proofs.Grammar.WellFormed

/-!
# Tokens and the blanks between them

`Expr.tokens` lists the tokens of a formula in their order: a number with its sign, a name,
a wildcard in braces, and every other character by itself, minus signs included.
`Spaced ts s` says that the text `s` is these tokens, each with blanks or nothing in front
of it. A formula is read from a text exactly when the text is its tokens so spaced
(`block?_eq_some_iff_spaced`), whatever the blanks are. That the blanks do not matter rests
on the rules of the grammar, which look at no blank, and on formulas being well formed: no
two tokens that meet could be read as one.
-/

namespace QuizFormula

/-- How a wildcard stands in a formula. -/
def Dialect.wildcardToken : Dialect → Text → Text
  | .moodle, n => '{' :: (n ++ ['}'])
  | .fp, n => n

mutual

/-- The tokens of a formula, in their order. -/
def Expr.tokens (d : Dialect) : Expr → List Text
  | .last a => a.tokens d
  | .chain a op e => a.tokens d ++ [op.char] :: e.tokens d

def Atom.tokens (d : Dialect) : Atom → List Text
  | .number l => [l]
  | .wildcard n => [d.wildcardToken n]
  | .group e => ['('] :: (e.tokens d ++ [[')']])
  | .call n args => n :: ['('] :: args.tokens d
  | .minus a => ['-'] :: a.tokens d

/-- The tokens of arguments, with the parenthesis that closes them. -/
def Args.tokens (d : Dialect) : Args → List Text
  | .nil => [[')']]
  | .cons e .nil => e.tokens d ++ [[')']]
  | .cons e (.cons e' args) => e.tokens d ++ [','] :: (Args.cons e' args).tokens d

end

/-- The tokens of a block after its opener. -/
def Expr.blockTokens (d : Dialect) (e : Expr) : List Text := e.tokens d ++ [['}']]

/-- The text is the given tokens, each with blanks or nothing in front of it. -/
inductive Spaced : List Text → Text → Prop
  | nil : Spaced [] []
  | cons {b t s : Text} {ts : List Text} (hb : Blank b) (h : Spaced ts s) :
      Spaced (t :: ts) (b ++ (t ++ s))

/-! ### Putting spaced tokens together -/

theorem Spaced.singleton {b : Text} (hb : Blank b) (t : Text) : Spaced [t] (b ++ t) := by
  simpa using Spaced.cons (t := t) hb .nil

theorem Spaced.append {ts us : List Text} {s u : Text} (hs : Spaced ts s) (hu : Spaced us u) :
    Spaced (ts ++ us) (s ++ u) := by
  induction hs with
  | nil => exact hu
  | cons hb _ ih =>
      rw [List.append_assoc, List.append_assoc]
      exact .cons hb ih

/-- A text of tokens can be divided wherever the tokens are. -/
theorem Spaced.exists_append {ts us : List Text} {s : Text} (h : Spaced (ts ++ us) s) :
    ∃ u v, s = u ++ v ∧ Spaced ts u ∧ Spaced us v := by
  induction ts generalizing s with
  | nil => exact ⟨[], s, rfl, .nil, h⟩
  | cons t ts ih =>
      cases h with
      | @cons b _ s _ hb h =>
          obtain ⟨u, v, rfl, hu, hv⟩ := ih h
          exact ⟨b ++ (t ++ u), v, by simp, .cons hb hu, hv⟩

theorem Spaced.exists_cons {t : Text} {ts : List Text} {s : Text} (h : Spaced (t :: ts) s) :
    ∃ b u, s = b ++ (t ++ u) ∧ Blank b ∧ Spaced ts u := by
  cases h with
  | @cons b _ u _ hb h => exact ⟨b, u, rfl, hb, h⟩

theorem Spaced.eq_of_singleton {t s : Text} (h : Spaced [t] s) :
    ∃ b, s = b ++ t ∧ Blank b := by
  obtain ⟨b, u, rfl, hb, hu⟩ := h.exists_cons
  cases hu
  exact ⟨b, by rw [List.append_nil], hb⟩

/-! ### What is derived is tokens -/

section

variable {d : Dialect}

theorem WildcardAt.eq_token_append {n s r : Text} (h : WildcardAt d.wildcardStyle n s r) :
    s = d.wildcardToken n ++ r := by
  cases d with
  | moodle => cases h with | braced => simp [Dialect.wildcardToken]
  | fp => cases h with | bare => rfl

/-- The text before `r` is the tokens `ts`, with any blanks in front. -/
def TokensAt (ts : List Text) (s r : Text) : Prop :=
  ∃ u, s = u ++ r ∧ ∀ b, Blank b → Spaced ts (b ++ u)

theorem AtomAt.spaced_of_signed {a : Atom} {s r : Text}
    (hsigned : ∀ {s r : Text}, SignedAt d.wildcardStyle a s r → TokensAt (a.tokens d) s r)
    (h : AtomAt d.wildcardStyle a s r) : ∃ u, s = u ++ r ∧ Spaced (a.tokens d) u := by
  cases h with
  | @number l b _ hb hl => exact ⟨b ++ l, by simp, .singleton hb l⟩
  | @signed _ b _ _ hb ha =>
      obtain ⟨u, rfl, hu⟩ := hsigned ha
      exact ⟨b ++ u, by simp, hu b hb⟩

mutual

theorem FormulaAt.spaced : ∀ {e : Expr} {s r : Text}, FormulaAt d.wildcardStyle e s r →
    ∃ u, s = u ++ r ∧ Spaced (e.tokens d) u
  | .last a, _, _, h => by
      cases h with
      | last ha => exact ha.spaced_of_signed SignedAt.spaced
  | .chain a op e, _, _, h => by
      cases h with
      | @chain _ _ _ _ b _ _ ha hb he =>
          obtain ⟨u, rfl, hu⟩ := ha.spaced_of_signed SignedAt.spaced
          obtain ⟨v, rfl, hv⟩ := he.spaced
          exact ⟨u ++ (b ++ ([op.char] ++ v)), by simp, hu.append (.cons hb hv)⟩

theorem SignedAt.spaced : ∀ {a : Atom} {s r : Text}, SignedAt d.wildcardStyle a s r →
    TokensAt (a.tokens d) s r
  | .number _, _, _, h => nomatch h
  | .wildcard n, _, _, h => by
      cases h with
      | wildcard hn => exact ⟨d.wildcardToken n, hn.eq_token_append, fun b hb => .singleton hb _⟩
  | .group e, _, _, h => by
      cases h with
      | @group _ _ b _ he hb =>
          obtain ⟨u, rfl, hu⟩ := he.spaced
          refine ⟨['('] ++ (u ++ (b ++ [')'])), by simp, fun b' hb' => ?_⟩
          exact .cons hb' (hu.append (.singleton hb [')']))
  | .call n args, _, _, h => by
      cases h with
      | @call _ b _ _ _ hn hb hargs =>
          obtain ⟨u, rfl, hu⟩ := hargs.spaced
          refine ⟨n ++ (b ++ (['('] ++ u)), by simp, fun b' hb' => ?_⟩
          exact .cons hb' (.cons hb hu)
  | .minus a, _, _, h => by
      cases h with
      | @minus _ b _ _ hb ha =>
          obtain ⟨u, rfl, hu⟩ := SignedAt.spaced (a := a) ha
          refine ⟨['-'] ++ (b ++ u), by simp, fun b' hb' => ?_⟩
          exact .cons hb' (hu b hb)

theorem ArgumentsAt.spaced : ∀ {args : Args} {s r : Text},
    ArgumentsAt d.wildcardStyle args s r → ∃ u, s = u ++ r ∧ Spaced (args.tokens d) u
  | .nil, _, _, h => by
      cases h with
      | @none b _ hb => exact ⟨b ++ [')'], by simp, .singleton hb [')']⟩
  | .cons e .nil, _, _, h => by
      cases h with
      | @one _ _ b _ he hb =>
          obtain ⟨u, rfl, hu⟩ := he.spaced
          exact ⟨u ++ (b ++ [')']), by simp, hu.append (.singleton hb [')'])⟩
  | .cons e (.cons e' args), _, _, h => by
      cases h with
      | @more _ _ _ _ b _ _ he hb hargs =>
          obtain ⟨u, rfl, hu⟩ := he.spaced
          obtain ⟨v, rfl, hv⟩ := hargs.spaced
          exact ⟨u ++ (b ++ ([','] ++ v)), by simp, hu.append (.cons hb hv)⟩

end

/-! ### Tokens are derived, however they are spaced -/

theorem noCall_append_cons {b : Text} (hb : Blank b) {c : Char} (hblank : isBlank c = false)
    (hc : c ≠ '(') (r : Text) : NoCall (b ++ c :: r) := by
  rw [noCall_iff, nextChar_append_cons hb hblank]
  simpa using hc

theorem Operator.char_ne_parenthesis (op : Operator) : op.char ≠ '(' := by
  cases op <;> decide

theorem WildcardAt.of_token {n r : Text} (hn : IsName n) (hr : NoCall r) :
    WildcardAt d.wildcardStyle n (d.wildcardToken n ++ r) r := by
  cases d with
  | moodle =>
      rw [Dialect.wildcardToken, List.cons_append, List.append_assoc]
      exact .braced hn
  | fp => exact .bare hn hr

theorem AtomAt.of_spaced_of_signed {a : Atom} {u r : Text} (ha : a.WellFormed)
    (hsigned : a.isNumber = false →
      ∃ b v, u = b ++ v ∧ Blank b ∧ SignedAt d.wildcardStyle a (v ++ r) r)
    (hu : Spaced (a.tokens d) u) : AtomAt d.wildcardStyle a (u ++ r) r := by
  have hother : a.isNumber = false → AtomAt d.wildcardStyle a (u ++ r) r := by
    intro hnumber
    obtain ⟨b, v, rfl, hb, hv⟩ := hsigned hnumber
    rw [List.append_assoc]
    exact .signed hb hv
  cases a with
  | number l =>
      obtain ⟨b, rfl, hb⟩ := hu.eq_of_singleton
      rw [List.append_assoc]
      exact .number hb ha
  | wildcard n => exact hother rfl
  | group e => exact hother rfl
  | call n args => exact hother rfl
  | minus a => exact hother rfl

mutual

theorem FormulaAt.of_spaced : ∀ {e : Expr} {u r : Text}, e.WellFormed →
    Spaced (e.tokens d) u → NoCall r → FormulaAt d.wildcardStyle e (u ++ r) r
  | .last a, _, _, he, hu, hr =>
      .last (.of_spaced_of_signed he (fun h => SignedAt.of_spaced he h hu hr) hu)
  | .chain a op e, _, r, he, hu, hr => by
      obtain ⟨v, w, rfl, hv, hw⟩ := hu.exists_append
      obtain ⟨b, x, rfl, hb, hx⟩ := hw.exists_cons
      have hnext : NoCall (b ++ op.char :: (x ++ r)) :=
        noCall_append_cons hb op.isBlank_char op.char_ne_parenthesis _
      have hformula := FormulaAt.chain
        (.of_spaced_of_signed he.1 (fun h => SignedAt.of_spaced he.1 h hv hnext) hv) hb
        (FormulaAt.of_spaced he.2 hx hr)
      simpa using hformula

theorem SignedAt.of_spaced : ∀ {a : Atom} {u r : Text}, a.WellFormed → a.isNumber = false →
    Spaced (a.tokens d) u → NoCall r →
      ∃ b v, u = b ++ v ∧ Blank b ∧ SignedAt d.wildcardStyle a (v ++ r) r
  | .number _, _, _, _, hnumber, _, _ => nomatch hnumber
  | .wildcard n, _, _, ha, _, hu, hr => by
      obtain ⟨b, rfl, hb⟩ := hu.eq_of_singleton
      exact ⟨b, _, rfl, hb, .wildcard (.of_token ha hr)⟩
  | .group e, _, r, ha, _, hu, _ => by
      obtain ⟨b, v, rfl, hb, hv⟩ := hu.exists_cons
      obtain ⟨w, x, rfl, hw, hx⟩ := hv.exists_append
      obtain ⟨b', rfl, hb'⟩ := hx.eq_of_singleton
      have hnext : NoCall (b' ++ ')' :: r) := noCall_append_cons hb' (by decide) (by decide) r
      refine ⟨b, _, rfl, hb, ?_⟩
      simpa using SignedAt.group (FormulaAt.of_spaced ha hw hnext) hb'
  | .call n args, _, r, ha, _, hu, _ => by
      obtain ⟨b, v, rfl, hb, hv⟩ := hu.exists_cons
      obtain ⟨b', w, rfl, hb', hw⟩ := hv.exists_cons
      refine ⟨b, _, rfl, hb, ?_⟩
      simpa using SignedAt.call ha.1 hb' (ArgumentsAt.of_spaced ha.2 hw r)
  | .minus a, _, _, ha, _, hu, hr => by
      obtain ⟨b, v, rfl, hb, hv⟩ := hu.exists_cons
      obtain ⟨b', w, rfl, hb', hw⟩ := SignedAt.of_spaced (a := a) ha.1 ha.2 hv hr
      refine ⟨b, _, rfl, hb, ?_⟩
      simpa using SignedAt.minus hb' hw

theorem ArgumentsAt.of_spaced : ∀ {args : Args} {u : Text}, args.WellFormed →
    Spaced (args.tokens d) u → ∀ r, ArgumentsAt d.wildcardStyle args (u ++ r) r
  | .nil, _, _, hu, r => by
      obtain ⟨b, rfl, hb⟩ := hu.eq_of_singleton
      simpa using ArgumentsAt.none (w := d.wildcardStyle) (r := r) hb
  | .cons e .nil, _, ha, hu, r => by
      obtain ⟨v, w, rfl, hv, hw⟩ := hu.exists_append
      obtain ⟨b, rfl, hb⟩ := hw.eq_of_singleton
      have hnext : NoCall (b ++ ')' :: r) := noCall_append_cons hb (by decide) (by decide) r
      simpa using ArgumentsAt.one (FormulaAt.of_spaced ha.1 hv hnext) hb
  | .cons e (.cons e' args), _, ha, hu, r => by
      obtain ⟨v, w, rfl, hv, hw⟩ := hu.exists_append
      obtain ⟨b, x, rfl, hb, hx⟩ := hw.exists_cons
      have hnext : NoCall (b ++ ',' :: (x ++ r)) :=
        noCall_append_cons hb (by decide) (by decide) _
      simpa using ArgumentsAt.more (FormulaAt.of_spaced ha.1 hv hnext) hb
        (ArgumentsAt.of_spaced ha.2 hx r)

end

end

/-! ### Blocks -/

theorem BlockAt.exists_spaced {d : Dialect} {e : Expr} {s r : Text} (h : BlockAt d e s r) :
    ∃ u, s = d.opener ++ (u ++ r) ∧ Spaced (e.blockTokens d) u := by
  cases h with
  | @block t b _ he hb =>
      obtain ⟨u, rfl, hu⟩ := he.spaced
      exact ⟨u ++ (b ++ ['}']), by simp, hu.append (.singleton hb ['}'])⟩

theorem BlockAt.of_spaced {d : Dialect} {e : Expr} {u : Text} (he : e.WellFormed)
    (hu : Spaced (e.blockTokens d) u) (r : Text) : BlockAt d e (d.opener ++ (u ++ r)) r := by
  obtain ⟨v, w, rfl, hv, hw⟩ := hu.exists_append
  obtain ⟨b, rfl, hb⟩ := hw.eq_of_singleton
  have hnext : NoCall (b ++ '}' :: r) := noCall_append_cons hb (by decide) (by decide) r
  simpa using BlockAt.block (FormulaAt.of_spaced he hv hnext) hb

/-- A block is read where its opener stands and then its tokens, however they are
spaced. -/
theorem block?_eq_some_iff_spaced (d : Dialect) (s r : Text) (e : Expr) :
    block? d s = some (e, r) ↔ e.WellFormed ∧ e.depth ≤ maxDepth ∧
      ∃ u, s = d.opener ++ (u ++ r) ∧ Spaced (e.blockTokens d) u := by
  rw [block?_eq_some_iff]
  constructor
  · rintro ⟨h, hdepth⟩
    exact ⟨h.wellFormed, hdepth, h.exists_spaced⟩
  · rintro ⟨he, hdepth, u, rfl, hu⟩
    exact ⟨.of_spaced he hu r, hdepth⟩

/-- A block with other blanks is read as the same formula, whatever comes after it. -/
theorem block?_of_spaced {d : Dialect} {s r u : Text} {e : Expr} (h : block? d s = some (e, r))
    (hu : Spaced (e.blockTokens d) u) (r' : Text) :
    block? d (d.opener ++ (u ++ r')) = some (e, r') := by
  obtain ⟨he, hdepth, -⟩ := (block?_eq_some_iff_spaced d s r e).1 h
  exact (block?_eq_some_iff_spaced d _ r' e).2 ⟨he, hdepth, u, rfl, hu⟩

end QuizFormula

import QuizFormula.Expr.Survey
import QuizFormula.Proofs.Grammar.Numeral

/-!
# The grammar of formulas

The rules of the grammar, each with the formula that it builds:

    formula  := atom (operator atom)*
    atom     := NUMBER | signed
    signed   := '-' signed | '(' formula ')' | wildcard | NAME '(' [formula (',' formula)*] ')'
    block    := OPENER formula '}'

Blanks may stand in front of every token and nowhere else. `FormulaAt w e s r` says
that the text `s` is a formula `e` and then `r`. The text that comes after a phrase is
part of the judgement because one rule looks ahead: a bare name is a wildcard only if
no parenthesis follows it. No rule limits how deep formulas are nested within one
another; `Expr.depth` counts the levels.
-/

namespace QuizFormula

/-- No parenthesis opens at the start of the text, blanks aside. -/
def NoCall (r : Text) : Prop := ∀ b t, Blank b → r ≠ b ++ '(' :: t

/-- The text `s` is a wildcard of the name `n` and then `r`. -/
inductive WildcardAt : WildcardStyle → Text → Text → Text → Prop
  | braced {n r : Text} (hn : IsName n) : WildcardAt .braced n ('{' :: (n ++ '}' :: r)) r
  | bare {n r : Text} (hn : IsName n) (hr : NoCall r) : WildcardAt .bare n (n ++ r) r
  | tex {n r : Text} (hn : IsMacroName n) (hpi : n ≠ piMacro) :
      WildcardAt .tex n ('\\' :: (n ++ ' ' :: r)) r
  | pi {r : Text} : WildcardAt .tex piMacro ('\\' :: (piMacro ++ r)) r

mutual

/-- The text `s` is a formula `e` and then `r`. -/
inductive FormulaAt (w : WildcardStyle) : Expr → Text → Text → Prop
  | last {a : Atom} {s r : Text} (ha : AtomAt w a s r) : FormulaAt w (.last a) s r
  | chain {a : Atom} {op : Operator} {e : Expr} {s b t r : Text}
      (ha : AtomAt w a s (b ++ op.char :: t)) (hb : Blank b) (he : FormulaAt w e t r) :
      FormulaAt w (.chain a op e) s r

/-- The text `s` is an atom `a` and then `r`, with blanks allowed in front. -/
inductive AtomAt (w : WildcardStyle) : Atom → Text → Text → Prop
  | number {l b r : Text} (hb : Blank b) (hl : IsNumber l) :
      AtomAt w (.number l) (b ++ (l ++ r)) r
  | signed {a : Atom} {b s r : Text} (hb : Blank b) (ha : SignedAt w a s r) :
      AtomAt w a (b ++ s) r

/-- The text `s` is an atom `a` other than a number, with any minus signs in front of
it, and then `r`. -/
inductive SignedAt (w : WildcardStyle) : Atom → Text → Text → Prop
  | minus {a : Atom} {b s r : Text} (hb : Blank b) (ha : SignedAt w a s r) :
      SignedAt w (.minus a) ('-' :: (b ++ s)) r
  | group {e : Expr} {s b r : Text} (he : FormulaAt w e s (b ++ ')' :: r)) (hb : Blank b) :
      SignedAt w (.group e) ('(' :: s) r
  | wildcard {n s r : Text} (hn : WildcardAt w n s r) : SignedAt w (.wildcard n) s r
  | call {n b s r : Text} {args : Args} (hn : IsName n) (hb : Blank b)
      (hargs : ArgumentsAt w args s r) : SignedAt w (.call n args) (n ++ (b ++ '(' :: s)) r

/-- The text `s` is the arguments `args` with the parenthesis that closes them, and
then `r`. -/
inductive ArgumentsAt (w : WildcardStyle) : Args → Text → Text → Prop
  | none {b r : Text} (hb : Blank b) : ArgumentsAt w .nil (b ++ ')' :: r) r
  | one {e : Expr} {s b r : Text} (he : FormulaAt w e s (b ++ ')' :: r)) (hb : Blank b) :
      ArgumentsAt w (.cons e .nil) s r
  | more {e e' : Expr} {args : Args} {s b t r : Text}
      (he : FormulaAt w e s (b ++ ',' :: t)) (hb : Blank b)
      (hargs : ArgumentsAt w (.cons e' args) t r) :
      ArgumentsAt w (.cons e (.cons e' args)) s r

end

mutual

/-- How many formulas stand within one another, the outermost one included. -/
def Expr.depth : Expr → Nat
  | .last a => a.depth + 1
  | .chain a _ e => max (a.depth + 1) e.depth

def Atom.depth : Atom → Nat
  | .number _ => 0
  | .wildcard _ => 0
  | .group e => e.depth
  | .call _ args => args.depth
  | .minus a => a.depth

def Args.depth : Args → Nat
  | .nil => 0
  | .cons e args => max e.depth args.depth

end

/-! ### What comes after a phrase

Of the text after a phrase only its first token matters. -/

/-- The first character of a text that is not blank. -/
def nextChar (r : Text) : Option Char := (skipBlanks r).head?

theorem nextChar_append_cons {b : Text} (hb : Blank b) {c : Char} (hc : isBlank c = false)
    (r : Text) : nextChar (b ++ c :: r) = some c := by
  rw [nextChar, skipBlanks_append_cons hb hc, List.head?_cons]

theorem nextChar_append_cons_congr {b : Text} (hb : Blank b) {c : Char}
    (hc : isBlank c = false) (r r' : Text) :
    nextChar (b ++ c :: r') = nextChar (b ++ c :: r) := by
  rw [nextChar_append_cons hb hc, nextChar_append_cons hb hc]

theorem Operator.isBlank_char (op : Operator) : isBlank op.char = false := by
  cases op <;> decide

theorem Operator.isTokenChar_char (op : Operator) : isTokenChar op.char = false := by
  cases op <;> decide

theorem noCall_iff (r : Text) : NoCall r ↔ nextChar r ≠ some '(' := by
  constructor
  · intro h hnext
    obtain ⟨t, ht⟩ := List.head?_eq_some_iff.1 hnext
    obtain ⟨b, hb, hr⟩ := exists_blank_of_skipBlanks ht
    exact h b t hb hr
  · intro h b t hb hr
    apply h
    rw [hr, nextChar_append_cons hb (by decide)]

theorem symbol?_eq_none_iff_nextChar (c : Char) (r : Text) :
    symbol? c r = none ↔ nextChar r ≠ some c := by
  unfold symbol? nextChar
  cases skipBlanks r with
  | nil => simp
  | cons a t => by_cases ha : a = c <;> simp [ha]

/-- The phrase that `P` describes makes up the part of `s` before `r`, and could be
followed as well by any text with the same first token. -/
def Extends (P : Text → Text → Prop) (s r : Text) : Prop :=
  ∃ u, s = u ++ r ∧ ∀ r', nextChar r' = nextChar r → P (u ++ r') r'

theorem WildcardAt.extends {w : WildcardStyle} {n s r : Text} (h : WildcardAt w n s r) :
    Extends (WildcardAt w n) s r := by
  cases h with
  | braced hn =>
      refine ⟨'{' :: (n ++ ['}']), by simp, ?_⟩
      intro r' _
      simpa using WildcardAt.braced (r := r') hn
  | bare hn hr =>
      refine ⟨n, rfl, ?_⟩
      intro r' hr'
      apply WildcardAt.bare hn
      rw [noCall_iff] at hr ⊢
      rwa [hr']
  | tex hn hpi =>
      refine ⟨'\\' :: (n ++ [' ']), by simp, ?_⟩
      intro r' _
      simpa using WildcardAt.tex (r := r') hn hpi
  | pi =>
      refine ⟨'\\' :: piMacro, by simp, ?_⟩
      intro r' _
      exact WildcardAt.pi

theorem AtomAt.extends_of_signed {w : WildcardStyle} {a : Atom} {s r : Text}
    (hsigned : ∀ {s r : Text}, SignedAt w a s r → Extends (SignedAt w a) s r)
    (h : AtomAt w a s r) : Extends (AtomAt w a) s r := by
  cases h with
  | @number l b _ hb hl =>
      refine ⟨b ++ l, by simp, ?_⟩
      intro r' _
      simpa using AtomAt.number (r := r') hb hl
  | @signed _ b s _ hb ha =>
      obtain ⟨u, rfl, hu⟩ := hsigned ha
      refine ⟨b ++ u, by simp, ?_⟩
      intro r' hr'
      simpa using AtomAt.signed hb (hu r' hr')

mutual

theorem FormulaAt.extends {w : WildcardStyle} : ∀ {e : Expr} {s r : Text},
    FormulaAt w e s r → Extends (FormulaAt w e) s r
  | .last a, s, r, h => by
      cases h with
      | last ha =>
          obtain ⟨u, rfl, hu⟩ := ha.extends_of_signed SignedAt.extends
          exact ⟨u, rfl, fun r' hr' => .last (hu r' hr')⟩
  | .chain a op e, s, r, h => by
      cases h with
      | @chain _ _ _ _ b t _ ha hb he =>
          obtain ⟨u, rfl, hu⟩ := ha.extends_of_signed SignedAt.extends
          obtain ⟨v, rfl, hv⟩ := he.extends
          refine ⟨u ++ (b ++ op.char :: v), by simp, ?_⟩
          intro r' hr'
          have hnext := nextChar_append_cons_congr hb op.isBlank_char (v ++ r) (v ++ r')
          simpa using FormulaAt.chain (hu _ hnext) hb (hv r' hr')

theorem SignedAt.extends {w : WildcardStyle} : ∀ {a : Atom} {s r : Text},
    SignedAt w a s r → Extends (SignedAt w a) s r
  | .number l, s, r, h => nomatch h
  | .wildcard n, s, r, h => by
      cases h with
      | wildcard hn =>
          obtain ⟨u, rfl, hu⟩ := hn.extends
          exact ⟨u, rfl, fun r' hr' => .wildcard (hu r' hr')⟩
  | .group e, s, r, h => by
      cases h with
      | @group _ _ b _ he hb =>
          obtain ⟨u, rfl, hu⟩ := he.extends
          refine ⟨'(' :: (u ++ (b ++ [')'])), by simp, ?_⟩
          intro r' _
          have hnext := nextChar_append_cons_congr hb (c := ')') (by decide) r r'
          simpa using SignedAt.group (hu _ hnext) hb
  | .call n args, s, r, h => by
      cases h with
      | @call _ b _ _ _ hn hb hargs =>
          obtain ⟨u, rfl, hu⟩ := hargs.extends
          refine ⟨n ++ (b ++ '(' :: u), by simp, ?_⟩
          intro r' hr'
          simpa using SignedAt.call hn hb (hu r' hr')
  | .minus a, s, r, h => by
      cases h with
      | @minus _ b _ _ hb ha =>
          obtain ⟨u, rfl, hu⟩ := ha.extends
          refine ⟨'-' :: (b ++ u), by simp, ?_⟩
          intro r' hr'
          simpa using SignedAt.minus hb (hu r' hr')

theorem ArgumentsAt.extends {w : WildcardStyle} : ∀ {args : Args} {s r : Text},
    ArgumentsAt w args s r → Extends (ArgumentsAt w args) s r
  | .nil, s, r, h => by
      cases h with
      | @none b _ hb =>
          refine ⟨b ++ [')'], by simp, ?_⟩
          intro r' _
          simpa using ArgumentsAt.none (w := w) (r := r') hb
  | .cons e .nil, s, r, h => by
      cases h with
      | @one _ _ b _ he hb =>
          obtain ⟨u, rfl, hu⟩ := he.extends
          refine ⟨u ++ (b ++ [')']), by simp, ?_⟩
          intro r' _
          have hnext := nextChar_append_cons_congr hb (c := ')') (by decide) r r'
          simpa using ArgumentsAt.one (hu _ hnext) hb
  | .cons e (.cons e' args), s, r, h => by
      cases h with
      | @more _ _ _ _ b _ _ he hb hargs =>
          obtain ⟨u, rfl, hu⟩ := he.extends
          obtain ⟨v, rfl, hv⟩ := hargs.extends
          refine ⟨u ++ (b ++ ',' :: v), by simp, ?_⟩
          intro r' hr'
          have hnext := nextChar_append_cons_congr hb (c := ',') (by decide) (v ++ r) (v ++ r')
          simpa using ArgumentsAt.more (hu _ hnext) hb (hv r' hr')

end

/-! ### Formulas without wildcards

How wildcards are written does not matter to a formula that has none. -/

section Restyle

variable {w : WildcardStyle} (w' : WildcardStyle)

theorem AtomAt.restyle_of_signed {a : Atom} {s r : Text}
    (hsigned : ∀ {s r : Text}, SignedAt w a s r → SignedAt w' a s r)
    (h : AtomAt w a s r) : AtomAt w' a s r := by
  cases h with
  | number hb hl => exact .number hb hl
  | signed hb ha => exact .signed hb (hsigned ha)

mutual

theorem FormulaAt.restyle : ∀ {e : Expr} {s r : Text}, FormulaAt w e s r →
    e.survey wildcardSurvey = [] → FormulaAt w' e s r
  | .last a, _, _, h, hnone => by
      cases h with
      | last ha => exact .last (ha.restyle_of_signed w' fun h => h.restyle hnone)
  | .chain a op e, _, _, h, hnone => by
      obtain ⟨hnonea, hnonee⟩ := List.append_eq_nil_iff.1 hnone
      cases h with
      | chain ha hb he =>
          exact .chain (ha.restyle_of_signed w' fun h => h.restyle hnonea) hb
            (he.restyle hnonee)

theorem SignedAt.restyle : ∀ {a : Atom} {s r : Text}, SignedAt w a s r →
    a.survey wildcardSurvey = [] → SignedAt w' a s r
  | .number _, _, _, h, _ => nomatch h
  | .wildcard n, _, _, _, hnone => absurd hnone (List.cons_ne_nil n [])
  | .group e, _, _, h, hnone => by
      cases h with
      | group he hb => exact .group (he.restyle hnone) hb
  | .call n args, _, _, h, hnone => by
      cases h with
      | call hn hb hargs =>
          exact .call hn hb (hargs.restyle (List.append_eq_nil_iff.1 hnone).1)
  | .minus a, _, _, h, hnone => by
      cases h with
      | minus hb ha => exact .minus hb (SignedAt.restyle (a := a) ha hnone)

theorem ArgumentsAt.restyle : ∀ {args : Args} {s r : Text}, ArgumentsAt w args s r →
    args.survey wildcardSurvey = [] → ArgumentsAt w' args s r
  | .nil, _, _, h, _ => by
      cases h with
      | none hb => exact .none hb
  | .cons e .nil, _, _, h, hnone => by
      cases h with
      | one he hb => exact .one (he.restyle (List.append_eq_nil_iff.1 hnone).1) hb
  | .cons e (.cons e' args), _, _, h, hnone => by
      obtain ⟨hnonee, hnoneargs⟩ := List.append_eq_nil_iff.1 hnone
      cases h with
      | more he hb hargs => exact .more (he.restyle hnonee) hb (hargs.restyle hnoneargs)

end

end Restyle

end QuizFormula

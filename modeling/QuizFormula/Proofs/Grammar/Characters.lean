import QuizFormula.Proofs.Grammar.Block

/-!
# The characters of formulas

A formula is made of tokens, blanks, the separators between them and the marks of
wildcards, so it has none of the characters that matter to a document around it. A block
is its opener, such characters and a closing brace (`BlockAt.exists_body`).
-/

namespace QuizFormula

/-- The characters between the tokens of a formula. -/
def separators : List Char := ['(', ')', ',', '+', '-', '*', '/']

theorem Operator.char_mem_separators (op : Operator) : op.char ∈ separators := by
  cases op <;> decide

/-- Whether a property holds of all separators can be computed. -/
theorem forall_mem_separators {P : Char → Prop} [DecidablePred P]
    (h : separators.all (fun c => decide (P c)) = true) : ∀ c ∈ separators, P c := by
  simpa using h

/-- The characters that mark a wildcard. -/
def WildcardStyle.isMark : WildcardStyle → Char → Bool
  | .braced, c => c = '{' || c = '}'
  | .bare, _ => false
  | .tex, c => c = '\\'

def isFormulaChar (w : WildcardStyle) (c : Char) : Bool :=
  isTokenChar c || isBlank c || c ∈ separators || w.isMark c

section Characters

variable {w : WildcardStyle} {c : Char}

theorem isFormulaChar_of_isTokenChar (h : isTokenChar c = true) : isFormulaChar w c = true := by
  simp [isFormulaChar, h]

theorem isFormulaChar_of_isBlank (h : isBlank c = true) : isFormulaChar w c = true := by
  simp [isFormulaChar, h]

theorem isFormulaChar_of_mem_separators (h : c ∈ separators) : isFormulaChar w c = true := by
  simp [isFormulaChar, h]

theorem isFormulaChar_of_isMark (h : w.isMark c = true) : isFormulaChar w c = true := by
  simp [isFormulaChar, h]

theorem isFormulaChar_of_isName {n : Text} (hn : IsName n) (hc : c ∈ n) :
    isFormulaChar w c = true :=
  isFormulaChar_of_isTokenChar (by simp [isTokenChar, hn.isNameChar c hc])

theorem isFormulaChar_of_isMacroName {n : Text} (hn : IsMacroName n) (hc : c ∈ n) :
    isFormulaChar w c = true :=
  isFormulaChar_of_isTokenChar (by simp [isTokenChar, isNameChar, hn.2 c hc])

theorem isFormulaChar_of_isNumber {l : Text} (hl : IsNumber l) (hc : c ∈ l) :
    isFormulaChar w c = true := by
  rcases hl.mem hc with hdigit | hother
  · exact isFormulaChar_of_isTokenChar (isTokenChar_of_isDigit hdigit)
  · simp only [List.mem_cons, List.not_mem_nil, or_false] at hother
    rcases hother with rfl | rfl | rfl | rfl | rfl
    · exact isFormulaChar_of_mem_separators (by decide)
    · exact isFormulaChar_of_mem_separators (by decide)
    all_goals exact isFormulaChar_of_isTokenChar (by decide)

end Characters

/-! ### The part of a text that a phrase takes up -/

/-- The part of `s` before `r` has characters of formulas only. -/
def Covers (w : WildcardStyle) (s r : Text) : Prop :=
  ∃ u, s = u ++ r ∧ ∀ c ∈ u, isFormulaChar w c = true

section Covers

variable {w : WildcardStyle}

theorem covers_append {l : Text} (hl : ∀ c ∈ l, isFormulaChar w c = true) (r : Text) :
    Covers w (l ++ r) r :=
  ⟨l, rfl, hl⟩

theorem covers_cons {c : Char} (hc : isFormulaChar w c = true) (r : Text) :
    Covers w (c :: r) r :=
  covers_append (l := [c]) (List.forall_mem_singleton.2 hc) r

theorem covers_blank {b : Text} (hb : Blank b) (r : Text) : Covers w (b ++ r) r :=
  covers_append (fun c hc => isFormulaChar_of_isBlank (hb c hc)) r

theorem covers_separator {c : Char} (hc : c ∈ separators) (r : Text) :
    Covers w (c :: r) r :=
  covers_cons (isFormulaChar_of_mem_separators hc) r

theorem Covers.trans {s t r : Text} (h : Covers w s t) (h' : Covers w t r) : Covers w s r := by
  obtain ⟨u, rfl, hu⟩ := h
  obtain ⟨v, rfl, hv⟩ := h'
  refine ⟨u ++ v, (List.append_assoc u v r).symm, ?_⟩
  exact List.forall_mem_append.2 ⟨hu, hv⟩

theorem WildcardAt.covers {n s r : Text} (h : WildcardAt w n s r) : Covers w s r := by
  cases h with
  | braced hn =>
      have hopen : Covers .braced ('{' :: (n ++ '}' :: r)) (n ++ '}' :: r) :=
        covers_cons (isFormulaChar_of_isMark (by decide)) _
      have hname : Covers .braced (n ++ '}' :: r) ('}' :: r) :=
        covers_append (fun c => isFormulaChar_of_isName hn) _
      exact hopen.trans (hname.trans (covers_cons (isFormulaChar_of_isMark (by decide)) _))
  | bare hn hr => exact covers_append (fun c => isFormulaChar_of_isName hn) _
  | tex hn hpi =>
      have hopen : Covers .tex ('\\' :: (n ++ ' ' :: r)) (n ++ ' ' :: r) :=
        covers_cons (isFormulaChar_of_isMark (by decide)) _
      have hname : Covers .tex (n ++ ' ' :: r) (' ' :: r) :=
        covers_append (fun c => isFormulaChar_of_isMacroName hn) _
      exact hopen.trans (hname.trans (covers_cons (isFormulaChar_of_isBlank (by decide)) _))
  | pi =>
      have hopen : Covers .tex ('\\' :: (piMacro ++ r)) (piMacro ++ r) :=
        covers_cons (isFormulaChar_of_isMark (by decide)) _
      exact hopen.trans
        (covers_append (fun c => isFormulaChar_of_isMacroName isMacroName_piMacro) _)

theorem AtomAt.covers_of_signed {a : Atom} {s r : Text}
    (hsigned : ∀ {s r : Text}, SignedAt w a s r → Covers w s r) (h : AtomAt w a s r) :
    Covers w s r := by
  cases h with
  | number hb hl =>
      exact (covers_blank hb _).trans (covers_append (fun c => isFormulaChar_of_isNumber hl) _)
  | signed hb ha => exact (covers_blank hb _).trans (hsigned ha)

mutual

theorem FormulaAt.covers : ∀ {e : Expr} {s r : Text}, FormulaAt w e s r → Covers w s r
  | .last a, _, _, h => by
      cases h with
      | last ha => exact ha.covers_of_signed SignedAt.covers
  | .chain a op e, _, _, h => by
      cases h with
      | chain ha hb he =>
          exact (ha.covers_of_signed SignedAt.covers).trans ((covers_blank hb _).trans
            ((covers_separator op.char_mem_separators _).trans he.covers))

theorem SignedAt.covers : ∀ {a : Atom} {s r : Text}, SignedAt w a s r → Covers w s r
  | .number _, _, _, h => nomatch h
  | .wildcard n, _, _, h => by
      cases h with
      | wildcard hn => exact hn.covers
  | .group e, _, _, h => by
      cases h with
      | group he hb =>
          exact (covers_separator (by decide) _).trans (he.covers.trans
            ((covers_blank hb _).trans (covers_separator (by decide) _)))
  | .call n args, _, _, h => by
      cases h with
      | call hn hb hargs =>
          exact (covers_append (fun c => isFormulaChar_of_isName hn) _).trans
            ((covers_blank hb _).trans ((covers_separator (by decide) _).trans hargs.covers))
  | .minus a, _, _, h => by
      cases h with
      | minus hb ha =>
          exact (covers_separator (by decide) _).trans ((covers_blank hb _).trans ha.covers)

theorem ArgumentsAt.covers : ∀ {args : Args} {s r : Text},
    ArgumentsAt w args s r → Covers w s r
  | .nil, _, _, h => by
      cases h with
      | none hb => exact (covers_blank hb _).trans (covers_separator (by decide) _)
  | .cons e .nil, _, _, h => by
      cases h with
      | one he hb =>
          exact he.covers.trans ((covers_blank hb _).trans (covers_separator (by decide) _))
  | .cons e (.cons e' args), _, _, h => by
      cases h with
      | more he hb hargs =>
          exact he.covers.trans ((covers_blank hb _).trans
            ((covers_separator (by decide) _).trans hargs.covers))

end

end Covers

/-- A block is its opener, characters of formulas and a closing brace, whatever comes
after it. -/
theorem BlockAt.exists_body {d : Dialect} {e : Expr} {s r : Text} (h : BlockAt d e s r) :
    ∃ u, s = d.opener ++ (u ++ '}' :: r) ∧
      (∀ c ∈ u, isFormulaChar d.wildcardStyle c = true) ∧
      ∀ r', BlockAt d e (d.opener ++ (u ++ '}' :: r')) r' := by
  cases h with
  | @block t b _ he hb =>
      obtain ⟨u, rfl, hu⟩ := he.extends
      obtain ⟨v, hv, hchars⟩ := he.covers.trans (covers_blank hb _)
      have hbody : v = u ++ b :=
        List.append_cancel_right (hv.symm.trans (List.append_assoc u b _).symm)
      refine ⟨u ++ b, by simp, hbody ▸ hchars, ?_⟩
      intro r'
      have hnext := nextChar_append_cons_congr hb (c := '}') (by decide) r r'
      simpa using BlockAt.block (hu _ hnext) hb

end QuizFormula

import QuizFormula.Expr.Basic
import QuizFormula.Name
import QuizFormula.Numeral
import QuizFormula.Pattern

/-!
# Reading formulas

Formulas are read from left to right without turning back. Blanks are allowed
between tokens; a number, a name and a wildcard in braces are single tokens. Where an
atom is expected, a number with its sign is tried before minus signs are, so a sign
right before a digit belongs to the number. A name before a parenthesis is a
function, with blanks allowed in between; any other name is a wildcard where
wildcards are bare, and nothing where they are marked by braces or a backslash.

Formulas nest through groups and arguments, at most `maxDepth` of them within one
another. The depth is the recursion; everything on one level is repetition of a
pattern, which ends because each reading leaves a shorter text.
-/

namespace QuizFormula

/-- The operator at the start of a text, after blanks, and the rest. -/
def operator? (s : Text) : Option (Operator × Text) :=
  match skipBlanks s with
  | '+' :: r => some (.add, r)
  | '-' :: r => some (.sub, r)
  | '*' :: r => some (.mul, r)
  | '/' :: r => some (.div, r)
  | _ => none

theorem operator?_eq_some_iff (s r : Text) (op : Operator) :
    operator? s = some (op, r) ↔ skipBlanks s = op.char :: r := by
  unfold operator?
  split <;> cases op <;> simp_all [Operator.char]

theorem length_lt_of_operator? {s r : Text} {op : Operator}
    (h : operator? s = some (op, r)) : r.length < s.length := by
  have hs := (operator?_eq_some_iff s r op).1 h
  have hle := length_skipBlanks_le s
  rw [hs, List.length_cons] at hle
  omega

def items? (inner : Pattern Expr) (s : Text) : Option (Args × Text) :=
  match _ : inner.read? s with
  | none => none
  | some (e, r) =>
    match _ : symbol? ',' r with
    | some t => (items? inner t).map fun x => (.cons e x.1, x.2)
    | none => (symbol? ')' r).map fun t => (.cons e .nil, t)
termination_by s.length
decreasing_by
  have h₁ := inner.shorter ‹inner.read? s = some (e, r)›
  have h₂ := length_lt_of_symbol? ‹symbol? ',' r = some t›
  omega

/-- The arguments of a call after its opening parenthesis: none at all, or formulas
with commas between them. -/
def arguments? (inner : Pattern Expr) (s : Text) : Option (Args × Text) :=
  match symbol? ')' s with
  | some r => some (.nil, r)
  | none => items? inner s

/-- An atom that begins with a name: a call, or a bare wildcard. -/
def named? (w : WildcardStyle) (inner : Pattern Expr) (s : Text) : Option (Atom × Text) :=
  match name? s with
  | none => none
  | some (n, r) =>
    match symbol? '(' r with
    | some t => (arguments? inner t).map fun x => (.call n x.1, x.2)
    | none =>
      match w with
      | .bare => some (.wildcard n, r)
      | _ => none

/-- An atom that is neither a number nor has a minus sign in front. -/
def primary? (w : WildcardStyle) (inner : Pattern Expr) : Text → Option (Atom × Text)
  | '(' :: s =>
    match inner.read? s with
    | none => none
    | some (e, r) => (symbol? ')' r).map fun t => (.group e, t)
  | s =>
    match markedName? w s with
    | some (n, r) => some (.wildcard n, r)
    | none => named? w inner s

/-- An atom with any number of minus signs in front, each with blanks after it. -/
def signed? (w : WildcardStyle) (inner : Pattern Expr) : Text → Option (Atom × Text)
  | '-' :: s => (signed? w inner (skipBlanks s)).map fun x => (.minus x.1, x.2)
  | s => primary? w inner s
termination_by s => s.length
decreasing_by
  have h := length_skipBlanks_le s
  simp only [List.length_cons]
  omega

def atom? (w : WildcardStyle) (inner : Pattern Expr) (s : Text) : Option (Atom × Text) :=
  match number? (skipBlanks s) with
  | some (l, r) => some (.number l, r)
  | none => signed? w inner (skipBlanks s)

/-- Atoms with operators between them. An operator must be followed by an atom. -/
def chain? (atom : Pattern Atom) (s : Text) : Option (Expr × Text) :=
  match _ : atom.read? s with
  | none => none
  | some (a, r) =>
    match _ : operator? r with
    | none => some (.last a, r)
    | some (op, t) => (chain? atom t).map fun x => (.chain a op x.1, x.2)
termination_by s.length
decreasing_by
  have h₁ := atom.shorter ‹atom.read? s = some (a, r)›
  have h₂ := length_lt_of_operator? ‹operator? r = some (op, t)›
  omega

/-! ### Each reading leaves a shorter text -/

theorem length_lt_of_items? {inner : Pattern Expr} {s r : Text} {args : Args}
    (h : items? inner s = some (args, r)) : r.length < s.length := by
  fun_induction items? inner s generalizing args r with
  | case1 s hs => simp at h
  | case2 s e u hs t hu ih =>
    obtain ⟨⟨args', r'⟩, hx, heq⟩ := Option.map_eq_some_iff.1 h
    cases heq
    have h₁ := inner.shorter hs
    have h₂ := length_lt_of_symbol? hu
    exact Nat.lt_trans (ih hx) (Nat.lt_trans h₂ h₁)
  | case3 s e u hs hu =>
    obtain ⟨t, ht, heq⟩ := Option.map_eq_some_iff.1 h
    cases heq
    have h₁ := inner.shorter hs
    have h₂ := length_lt_of_symbol? ht
    omega

theorem length_lt_of_arguments? {inner : Pattern Expr} {s r : Text} {args : Args}
    (h : arguments? inner s = some (args, r)) : r.length < s.length := by
  unfold arguments? at h
  split at h
  · rename_i t ht
    cases h
    exact length_lt_of_symbol? ht
  · exact length_lt_of_items? h

theorem length_lt_of_named? {w : WildcardStyle} {inner : Pattern Expr} {s r : Text} {a : Atom}
    (h : named? w inner s = some (a, r)) : r.length < s.length := by
  unfold named? at h
  split at h
  · simp at h
  · rename_i n u hn
    have h₁ := length_lt_of_name? hn
    split at h
    · rename_i t ht
      obtain ⟨⟨args, r'⟩, hx, heq⟩ := Option.map_eq_some_iff.1 h
      cases heq
      have h₂ := length_lt_of_symbol? ht
      exact Nat.lt_trans (length_lt_of_arguments? hx) (Nat.lt_trans h₂ h₁)
    · cases w with
      | braced => simp at h
      | bare =>
        cases h
        exact h₁
      | tex => simp at h

theorem length_lt_of_primary? {w : WildcardStyle} {inner : Pattern Expr} {s r : Text} {a : Atom}
    (h : primary? w inner s = some (a, r)) : r.length < s.length := by
  unfold primary? at h
  split at h
  · rename_i s
    cases hs : inner.read? s with
    | none => simp [hs] at h
    | some x =>
      rw [hs] at h
      obtain ⟨t, ht, heq⟩ := Option.map_eq_some_iff.1 h
      cases heq
      have h₁ := inner.shorter hs
      have h₂ := length_lt_of_symbol? ht
      simp only [List.length_cons]
      omega
  · split at h
    · rename_i n r' hn
      cases h
      exact length_lt_of_markedName? hn
    · exact length_lt_of_named? h

theorem length_lt_of_signed? {w : WildcardStyle} {inner : Pattern Expr} {s r : Text} {a : Atom}
    (h : signed? w inner s = some (a, r)) : r.length < s.length := by
  fun_induction signed? w inner s generalizing a r with
  | case1 s ih =>
    obtain ⟨⟨a', r'⟩, hx, heq⟩ := Option.map_eq_some_iff.1 h
    cases heq
    have h₁ := length_skipBlanks_le s
    have h₂ := ih hx
    simp only [List.length_cons]
    omega
  | case2 s => exact length_lt_of_primary? h

theorem length_lt_of_atom? {w : WildcardStyle} {inner : Pattern Expr} {s r : Text} {a : Atom}
    (h : atom? w inner s = some (a, r)) : r.length < s.length := by
  have hle := length_skipBlanks_le s
  unfold atom? at h
  split at h
  · rename_i l u hl
    cases h
    have h₁ := length_lt_of_number? hl
    omega
  · have h₁ := length_lt_of_signed? h
    omega

theorem length_lt_of_chain? {atom : Pattern Atom} {s r : Text} {e : Expr}
    (h : chain? atom s = some (e, r)) : r.length < s.length := by
  fun_induction chain? atom s generalizing e r with
  | case1 s hs => simp at h
  | case2 s a u hs hu =>
    cases h
    exact atom.shorter hs
  | case3 s a u hs op t hu ih =>
    obtain ⟨⟨e', r'⟩, hx, heq⟩ := Option.map_eq_some_iff.1 h
    cases heq
    have h₁ := atom.shorter hs
    have h₂ := length_lt_of_operator? hu
    exact Nat.lt_trans (ih hx) (Nat.lt_trans h₂ h₁)

/-! ### Formulas -/

/-- The pattern of atoms whose groups and arguments are read by `inner`. -/
def atom (w : WildcardStyle) (inner : Pattern Expr) : Pattern Atom where
  read? := atom? w inner
  shorter := length_lt_of_atom?

def chain (p : Pattern Atom) : Pattern Expr where
  read? := chain? p
  shorter := length_lt_of_chain?

/-- The pattern of formulas with at most `depth` formulas within one another, the
outermost one included. -/
def formula (w : WildcardStyle) : Nat → Pattern Expr
  | 0 => Pattern.never Expr
  | depth + 1 => chain (atom w (formula w depth))

/-- How many formulas may stand within one another. -/
def maxDepth : Nat := 256

theorem formula_zero (w : WildcardStyle) : formula w 0 = Pattern.never Expr := rfl

theorem formula_succ (w : WildcardStyle) (depth : Nat) :
    formula w (depth + 1) = chain (atom w (formula w depth)) := rfl

end QuizFormula

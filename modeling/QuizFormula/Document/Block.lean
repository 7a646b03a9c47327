import QuizFormula.Document.Segment
import QuizFormula.Expr.Reading

/-!
# Blocks and wildcards in documents

A block is the opener of a dialect, a formula and a closing brace. A text that opens
a block and does not go on as one is no block, and leaves no trace. Outside blocks,
Moodle documents may have wildcards in braces.
-/

namespace QuizFormula

/-- The formula of the block at the start of a text, and the rest. -/
def block? (d : Dialect) (s : Text) : Option (Expr × Text) :=
  match d.opener.isPrefixOf? s with
  | none => none
  | some t =>
    match (formula d.wildcardStyle maxDepth).read? t with
    | none => none
    | some (e, r) => (symbol? '}' r).map fun u => (e, u)

theorem length_lt_of_block? {d : Dialect} {s r : Text} {e : Expr}
    (h : block? d s = some (e, r)) : r.length < s.length := by
  unfold block? at h
  split at h
  · simp at h
  · rename_i t ht
    split at h
    · simp at h
    · rename_i e' r' he
      obtain ⟨u, hu, heq⟩ := Option.map_eq_some_iff.1 h
      cases heq
      have h₁ := (formula d.wildcardStyle maxDepth).shorter he
      have h₂ := length_lt_of_symbol? hu
      have hs := length_of_isPrefixOf? ht
      omega

def block (d : Dialect) : Pattern (Segment Expr) where
  read? s := (block? d s).map fun x => (.found x.1, x.2)
  shorter h := by
    obtain ⟨⟨e, r⟩, hx, heq⟩ := Option.map_eq_some_iff.1 h
    cases heq
    exact length_lt_of_block? hx

def bracedWildcard : Pattern (Segment Text) where
  read? s := (bracedName? s).map fun x => (.found x.1, x.2)
  shorter h := by
    obtain ⟨⟨n, r⟩, hx, heq⟩ := Option.map_eq_some_iff.1 h
    cases heq
    exact length_lt_of_bracedName? hx

end QuizFormula

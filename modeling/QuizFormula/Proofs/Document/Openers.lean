import QuizFormula.Proofs.Document.Copies
import QuizFormula.Proofs.Document.OnePass

/-!
# Texts in which no block begins

A text lacks an opener if the opener neither stands in it nor could be completed by what
comes after it. Texts that lack an opener can be put together. What is written for `fp`
lacks the opener of Moodle blocks, and what is written for Moodle lacks the opener of `fp`
blocks, since no name is followed by a brace in it.
-/

namespace QuizFormula

def lacks (o : Text) : Text → Bool
  | [] => true
  | c :: t => !o.isPrefixOf (c :: t) && !(c :: t).isPrefixOf o && lacks o t

/-- The opener `o` does not begin in the text, whatever comes after it. -/
abbrev Lacks (o t : Text) : Prop := lacks o t = true

section

variable {o : Text}

theorem lacks_cons (c : Char) (t : Text) :
    Lacks o (c :: t) ↔ ¬ o <+: c :: t ∧ ¬ c :: t <+: o ∧ Lacks o t := by
  simp only [Lacks, lacks, Bool.and_eq_true, Bool.not_eq_true', Bool.eq_false_iff, ne_eq,
    List.isPrefixOf_iff_prefix, and_assoc]

theorem not_prefix_of_lacks {c : Char} {t : Text} (h : Lacks o (c :: t)) (r : Text) :
    ¬ o <+: c :: (t ++ r) := by
  obtain ⟨hopen, hopened, -⟩ := (lacks_cons c t).1 h
  intro hprefix
  rcases List.prefix_or_prefix_of_prefix hprefix (List.prefix_append (c :: t) r) with h | h
  · exact hopen h
  · exact hopened h

theorem lacks_append {l r : Text} (hl : Lacks o l) (hr : Lacks o r) : Lacks o (l ++ r) := by
  induction l with
  | nil => exact hr
  | cons c t ih =>
      obtain ⟨-, hopened, ht⟩ := (lacks_cons c t).1 hl
      rw [List.cons_append, lacks_cons]
      refine ⟨not_prefix_of_lacks hl r, ?_, ih ht⟩
      exact fun h => hopened ((List.prefix_append (c :: t) r).trans h)

/-- A text without the first character of the opener lacks the opener. -/
theorem lacks_of_not_mem {a : Char} {t : Text} (h : a ∉ t) : Lacks (a :: o) t := by
  induction t with
  | nil => rfl
  | cons c t ih =>
      rw [List.mem_cons, not_or] at h
      rw [lacks_cons]
      refine ⟨?_, ?_, ih h.2⟩
      · rw [List.cons_prefix_cons]
        exact fun hprefix => h.1 hprefix.1
      · rw [List.cons_prefix_cons]
        exact fun hprefix => h.1 hprefix.1.symm

/-- A text without some character of the opener lacks the opener, if it ends in a
character that the opener does not have. -/
theorem lacks_append_singleton {a c : Char} {t : Text} (ha : a ∈ o) (hat : a ∉ t) (hc : c ∉ o) :
    Lacks o (t ++ [c]) := by
  have hac : a ≠ c := fun h => hc (h ▸ ha)
  have hlack : ∀ u, a ∉ u → ¬ o <+: u ++ [c] ∧ ¬ u ++ [c] <+: o := by
    intro u hau
    constructor
    · intro h
      rcases List.mem_append.1 (h.subset ha) with h | h
      · exact hau h
      · exact hac (List.mem_singleton.1 h)
    · exact fun h => hc (h.subset (by simp))
  induction t with
  | nil => exact (lacks_cons c []).2 ⟨(hlack [] hat).1, (hlack [] hat).2, rfl⟩
  | cons b t ih =>
      have hbt := hlack (b :: t) hat
      exact (lacks_cons b (t ++ [c])).2 ⟨hbt.1, hbt.2, ih (List.not_mem_of_not_mem_cons hat)⟩

end

/-! ### What is written -/

/-- An opener stands at the beginning of every block. -/
theorem block?_eq_none_of_lacks {d : Dialect} {c : Char} {t : Text} (h : Lacks d.opener (c :: t))
    (r : Text) : block? d (c :: (t ++ r)) = none := by
  have hopen : d.opener.isPrefixOf? (c :: (t ++ r)) = none := by
    rw [isPrefixOf?_eq_none_iff]
    exact not_prefix_of_lacks h r
  simp only [block?, hopen]

namespace Fp

theorem brace_not_mem_texName {n : Text} (hn : IsName n) : '{' ∉ texName n :=
  (isMacroName_texName hn).not_mem (by decide)

/-- No brace is written in a formula for `fp`. -/
theorem brace_not_mem_render (precision : Nat) {e : Expr} (he : e.WellFormed) :
    '{' ∉ e.render (rendering precision) := by
  have hcomposed : Composed (fun t => '{' ∉ t) :=
    { nil := List.not_mem_nil
      separator := forall_mem_separators (by decide)
      append := fun hl hr h => (List.mem_append.1 h).elim hl hr }
  have hpreserves : (rendering precision).Preserves (fun t => '{' ∉ t) := by
    apply preserves precision hcomposed
    · exact fun l hl => hl.not_mem (by decide) (by decide)
    · exact fun n hn => hcomposed.append (hn.not_mem (by decide)) (by decide)
    · exact fun n hn => hcomposed.append (l := ['\\']) (by decide)
        (hcomposed.append (brace_not_mem_texName hn) (by decide))
    · decide
    · decide
  exact hpreserves.render he

theorem lacks_block (precision : Nat) {e : Expr} (he : e.WellFormed) :
    Lacks Dialect.moodle.opener (block precision e) := by
  have hopening : Lacks Dialect.moodle.opener blockOpening := by decide
  have hclosing : Lacks Dialect.moodle.opener blockClosing := by decide
  exact lacks_append hopening (lacks_append (lacks_of_not_mem (brace_not_mem_render precision he))
    hclosing)

/-- What stands before the name of the wildcard ends in a backslash. -/
theorem standalone_eq (n : Text) :
    standalone n = (r"\FPprint".toList ++ ['{', '\\']) ++ (texName n ++ [' ', '}']) := by
  have hopening : r"\FPprint{".toList = r"\FPprint".toList ++ ['{'] := rfl
  have hclosing : r"}".toList = ['}'] := rfl
  unfold standalone texMacro
  rw [hopening, hclosing]
  simp only [List.append_assoc, List.cons_append, List.nil_append]

theorem lacks_standalone {n : Text} (hn : IsName n) :
    Lacks Dialect.moodle.opener (standalone n) := by
  have hopening : Lacks Dialect.moodle.opener (r"\FPprint".toList ++ ['{', '\\']) := by decide
  have hname : Lacks Dialect.moodle.opener (texName n) :=
    lacks_of_not_mem (brace_not_mem_texName hn)
  rw [standalone_eq]
  exact lacks_append hopening (lacks_append hname (by decide))

theorem inert_standalone {n : Text} (hn : IsName n) : Inert (standalone n) := by
  have hopening : Inert r"\FPprint".toList := by decide
  have htex : Inert ('{' :: '\\' :: (texName n ++ [' ', '}'])) := by
    rw [inert_cons]
    exact ⟨rfl, inert_texMacro (isMacroName_texName hn) _ rfl⟩
  rw [standalone_eq, List.append_assoc]
  exact inert_append hopening htex

end Fp

namespace Moodle

theorem lacks_render {e : Expr} (he : e.WellFormed) :
    Lacks Dialect.fp.opener (e.render rendering) := by
  have hcomposed : Composed (Lacks Dialect.fp.opener) :=
    { nil := rfl
      separator := forall_mem_separators (by decide)
      append := lacks_append }
  have hpreserves : rendering.Preserves (Lacks Dialect.fp.opener) := by
    apply preserves hcomposed
    · exact fun l hl => lacks_of_not_mem (hl.not_mem (by decide) (by decide))
    · exact fun n hn =>
        lacks_append_singleton (a := '{') (by decide) (hn.not_mem (by decide)) (by decide)
    · intro n hn
      rw [lacks_cons]
      refine ⟨?_, ?_, lacks_append_singleton (a := '{') (by decide)
        (hn.not_mem (by decide)) (by decide)⟩
      · exact fun h => absurd (List.cons_prefix_cons.1 h).1 (by decide)
      · exact fun h => absurd (List.cons_prefix_cons.1 h).1 (by decide)
  exact hpreserves.render he

theorem lacks_block {e : Expr} (he : e.WellFormed) : Lacks Dialect.fp.opener (block e) := by
  have hopening : Lacks Dialect.fp.opener Dialect.moodle.opener := by decide
  have hclosing : Lacks Dialect.fp.opener ['}'] := by decide
  exact lacks_append hopening (lacks_append (lacks_render he) hclosing)

end Moodle

end QuizFormula

import Mathlib.Data.List.Basic
import QuizFormula.Document.Block
import QuizFormula.Proofs.Grammar.Reading

/-!
# Blocks are accepted as the grammar says

`BlockAt d e s r` says that the text `s` is a block of the formula `e` and then `r`,
however deep `e` is; `IsBlock` also asks that no more than `maxDepth` formulas stand
within one another. Reading a block agrees with both (`block?_eq_some_iff`), so at
each place of a document a block is accepted up to the one place where a derived
block ends, if there is one (`accepted_iff_isBlockBetween`).
-/

namespace QuizFormula

/-- The text `s` is a block of the formula `e` and then `r`. -/
inductive BlockAt (d : Dialect) : Expr → Text → Text → Prop
  | block {e : Expr} {t b r : Text}
      (he : FormulaAt d.wildcardStyle e t (b ++ '}' :: r)) (hb : Blank b) :
      BlockAt d e (d.opener ++ t) r

/-- The text is a block with at most `maxDepth` formulas within one another. -/
def IsBlock (d : Dialect) (s : Text) : Prop := ∃ e, BlockAt d e s [] ∧ e.depth ≤ maxDepth

theorem BlockAt.extends {d : Dialect} {e : Expr} {s r : Text} (h : BlockAt d e s r) :
    ∃ u, u ≠ [] ∧ s = u ++ r ∧ ∀ r', BlockAt d e (u ++ r') r' := by
  cases h with
  | @block t b _ he hb =>
      obtain ⟨u, rfl, hu⟩ := he.extends
      refine ⟨d.opener ++ (u ++ (b ++ ['}'])), ?_, by simp, ?_⟩
      · simp [d.opener_ne_nil]
      · intro r'
        have hnext := nextChar_append_cons_congr hb (c := '}') (by decide) r r'
        simpa using BlockAt.block (hu _ hnext) hb

/-- Whether a text is a block does not depend on what comes after it. -/
theorem BlockAt.append_iff {d : Dialect} {e : Expr} (u r : Text) :
    BlockAt d e (u ++ r) r ↔ BlockAt d e u [] := by
  constructor
  · intro h
    obtain ⟨v, -, hv, hblock⟩ := h.extends
    obtain rfl := List.append_cancel_right hv
    simpa using hblock []
  · intro h
    obtain ⟨v, -, hv, hblock⟩ := h.extends
    rw [List.append_nil] at hv
    exact hv ▸ hblock r

/-- A text is one block at most, and of one formula. -/
theorem BlockAt.unique {d : Dialect} {e e' : Expr} {s r r' : Text} (h : BlockAt d e s r)
    (h' : BlockAt d e' s r') : e = e' ∧ r = r' := by
  generalize hs : s = s' at h'
  cases h with
  | @block t b _ he hb =>
      cases h' with
      | @block t' b' _ he' hb' =>
          have ht : t = t' := List.append_cancel_left hs
          subst ht
          obtain ⟨rfl, hrest⟩ := he.unique he' (hb.endsFormula_append_cons (by simp) r)
            (hb'.endsFormula_append_cons (by simp) r')
          have hskip := congrArg skipBlanks hrest
          rw [skipBlanks_append_cons hb (by decide),
            skipBlanks_append_cons hb' (by decide)] at hskip
          exact ⟨rfl, (List.cons.inj hskip).2⟩

/-- Reading a block finds what the grammar derives, up to the deepest nesting allowed. -/
theorem block?_eq_some_iff (d : Dialect) (s r : Text) (e : Expr) :
    block? d s = some (e, r) ↔ BlockAt d e s r ∧ e.depth ≤ maxDepth := by
  constructor
  · intro h
    unfold block? at h
    split at h
    · simp at h
    · rename_i t ht
      rw [← List.append_eq_of_isPrefixOf?_eq_some ht]
      split at h
      · simp at h
      · rename_i e' u he
        obtain ⟨v, hv, heq⟩ := Option.map_eq_some_iff.1 h
        cases heq
        obtain ⟨hformula, hdepth⟩ := formula_sound _ _ he
        obtain ⟨b, hb, rfl⟩ := exists_blank_of_symbol? hv
        exact ⟨.block hformula hb, hdepth⟩
  · rintro ⟨h, hdepth⟩
    cases h with
    | @block t b _ he hb =>
        have hread := formula_complete he (hb.endsFormula_append_cons (by simp) r) hdepth
        rw [block?, List.isPrefixOf?_eq_some_iff_append_eq.2 rfl]
        simp only [hread, symbol?_append_cons hb (c := '}') (by decide), Option.map_some]

theorem drop_take_append_drop (text : Text) {start stop : Nat} (h : start ≤ stop) :
    (text.take stop).drop start ++ text.drop stop = text.drop start := by
  have hdrop : text.drop stop = (text.drop start).drop (stop - start) := by
    rw [List.drop_drop, Nat.add_sub_cancel' h]
  rw [List.drop_take, hdrop, List.take_append_drop]

theorem eq_drop_take_of_append_drop {text u : Text} {start stop : Nat}
    (hstop : stop ≤ text.length) (hu : u ≠ []) (h : text.drop start = u ++ text.drop stop) :
    start ≤ stop ∧ (text.take stop).drop start = u := by
  have hlength := congrArg List.length h
  have hpos := List.length_pos_iff.2 hu
  simp only [List.length_drop, List.length_append] at hlength
  have hle : start ≤ stop := by omega
  rw [List.drop_take, h, List.take_left' (by omega)]
  exact ⟨hle, rfl⟩

def IsBlockBetween (d : Dialect) (text : Text) (start stop : Nat) : Prop :=
  start ≤ stop ∧ stop ≤ text.length ∧ IsBlock d ((text.take stop).drop start)

/-- At any place of any text, a block is accepted up to the place `stop` if and only if
the text in between is a block by the grammar; and there is one such place at most. -/
theorem accepted_iff_isBlockBetween (d : Dialect) (text : Text) (start : Nat) :
    (∀ stop, (stop ≤ text.length ∧ ∃ e, block? d (text.drop start) = some (e, text.drop stop)) ↔
      IsBlockBetween d text start stop) ∧
    ∀ stop stop', IsBlockBetween d text start stop → IsBlockBetween d text start stop' →
      stop = stop' := by
  -- A block is read within the whole text, and derived from the part that it makes up.
  have hextend : ∀ {stop : Nat} {e : Expr}, start ≤ stop →
      BlockAt d e ((text.take stop).drop start) [] →
        BlockAt d e (text.drop start) (text.drop stop) := by
    intro stop e hle he
    obtain ⟨u, -, hu, hall⟩ := he.extends
    rw [List.append_nil] at hu
    rw [← drop_take_append_drop text hle, hu]
    exact hall _
  constructor
  · intro stop
    constructor
    · rintro ⟨hstop, e, he⟩
      obtain ⟨hblock, hdepth⟩ := (block?_eq_some_iff d _ _ e).1 he
      obtain ⟨u, hne, hu, hall⟩ := hblock.extends
      obtain ⟨hle, htext⟩ := eq_drop_take_of_append_drop hstop hne hu
      refine ⟨hle, hstop, e, ?_, hdepth⟩
      rw [htext]
      simpa using hall []
    · rintro ⟨hle, hstop, e, he, hdepth⟩
      exact ⟨hstop, e, (block?_eq_some_iff d _ _ e).2 ⟨hextend hle he, hdepth⟩⟩
  · rintro stop stop' ⟨hle, hstop, e, he, -⟩ ⟨hle', hstop', e', he', -⟩
    have hrest := ((hextend hle he).unique (hextend hle' he')).2
    have hlength := congrArg List.length hrest
    simp only [List.length_drop] at hlength
    omega

end QuizFormula

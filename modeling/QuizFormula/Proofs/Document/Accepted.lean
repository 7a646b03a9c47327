import QuizFormula.Proofs.Document.Contents
import QuizFormula.Proofs.Document.Openers
import QuizFormula.Proofs.Translation.Diagnosis

/-!
# Accepted blocks and what is written for them

The blocks that a translation accepts are those that stand in its document: no block of
`fp` begins inside of another one, so every part of a document that is a block is accepted
(`mem_fpBlocks_iff`). What is written for an accepted block stands in the new document as
one piece (`Job.infix_of_mem_emitted`).
-/

namespace QuizFormula

/-! ### The blocks in a document -/

theorem BlockAt.opener_prefix {d : Dialect} {e : Expr} {s r : Text} (h : BlockAt d e s r) :
    d.opener <+: s := by
  cases h with
  | block he hb => exact List.prefix_append _ _

/-- What begins with an opener does not begin where the opener is lacking. -/
theorem infix_of_lacks {o l u r : Text} (hl : Lacks o l) (ho : o <+: u) (hu : u <:+: l ++ r) :
    u <:+: r := by
  induction l with
  | nil => exact hu
  | cons c l ih =>
      rcases List.infix_cons_iff.1 hu with hprefix | hinfix
      · exact absurd (ho.trans hprefix) (not_prefix_of_lacks hl r)
      · exact ih ((lacks_cons c l).1 hl).2.2 hinfix

/-- After its first character a block of `fp` lacks the opener. -/
theorem exists_lacks_of_block? {s r : Text} {e : Expr} (h : block? .fp s = some (e, r)) :
    ∃ l, s = 'f' :: (l ++ r) ∧ Lacks Dialect.fp.opener l := by
  obtain ⟨u, rfl, hu, -⟩ := ((block?_eq_some_iff .fp s r e).1 h).1.exists_body
  have hbrace : '{' ∉ u := fun hmem => absurd (hu _ hmem) (by decide)
  refine ⟨['p', '{'] ++ (u ++ ['}']), by simp [Dialect.opener], ?_⟩
  exact lacks_append (by decide) (lacks_append_singleton (a := '{') (by decide) hbrace (by decide))

/-- The accepted blocks of a document with `fp` formulas are the blocks that stand in it. -/
theorem mem_fpBlocks_iff (s : Text) (e : Expr) :
    e ∈ fpBlocks s ↔ ∃ u, u <:+: s ∧ BlockAt .fp e u [] ∧ e.depth ≤ maxDepth := by
  unfold fpBlocks
  induction s using fpDocument_induction with
  | nil =>
      rw [fpSegments_nil, foundValues_nil]
      constructor
      · exact fun h => absurd h List.not_mem_nil
      · rintro ⟨u, hu, hblock, -⟩
        rw [List.infix_nil.1 hu] at hblock
        exact absurd (List.prefix_nil.1 hblock.opener_prefix) Dialect.fp.opener_ne_nil
  | @block s r e' hblock ih =>
      obtain ⟨hat, hdepth⟩ := (block?_eq_some_iff .fp s r e').1 hblock
      rw [fpSegments_of_block hblock, foundValues_cons_found, List.mem_cons, ih]
      constructor
      · rintro (rfl | ⟨u, hu, h⟩)
        · obtain ⟨u, -, rfl, -⟩ := hat.extends
          exact ⟨u, (List.prefix_append u r).isInfix, (BlockAt.append_iff u r).1 hat, hdepth⟩
        · obtain ⟨v, -, rfl, -⟩ := hat.extends
          exact ⟨u, hu.trans (List.suffix_append v r).isInfix, h⟩
      · rintro ⟨u, hu, hat', hdepth'⟩
        -- A block that begins at the same place is the same one. Any other begins after this
        -- one, since no opener is inside.
        obtain ⟨l, hs, hl⟩ := exists_lacks_of_block? hblock
        rw [hs] at hu
        rcases List.infix_cons_iff.1 hu with ⟨t, ht⟩ | hinfix
        · have hthere := (BlockAt.append_iff u t).2 hat'
          rw [ht, ← hs] at hthere
          exact .inl (hthere.unique hat).1
        · exact .inr ⟨u, infix_of_lacks hl hat'.opener_prefix hinfix, hat', hdepth'⟩
  | @char c t hnone ih =>
      rw [fpSegments_of_none hnone, foundValues_cons_copied, ih]
      constructor
      · rintro ⟨u, hu, h⟩
        exact ⟨u, hu.trans (List.suffix_cons c t).isInfix, h⟩
      · rintro ⟨u, hu, hat, hdepth⟩
        rcases List.infix_cons_iff.1 hu with ⟨r, hr⟩ | hinfix
        · have hthere := (block?_eq_some_iff .fp _ r e).2 ⟨(BlockAt.append_iff u r).2 hat, hdepth⟩
          rw [hr, hnone] at hthere
          exact absurd hthere (by simp)
        · exact ⟨u, hinfix, hat, hdepth⟩

/-! ### What is written for them -/

namespace Job

/-- The formulas of the blocks that are accepted, in the order of the document. -/
def accepted (j : Job) (s : Text) : List Expr :=
  match j with
  | toFp _ => foundValues (moodleSegments s)
  | toMoodle => foundValues (fpSegments s)

/-- The block that is written for a formula. -/
def write : Job → Expr → Text
  | toFp o => Fp.block o.fixedPrecision
  | toMoodle => Moodle.block

/-- The blocks that are written for a document. -/
def emitted (j : Job) (s : Text) : List Text := (j.accepted s).map j.write

theorem wellFormed_of_mem_accepted {j : Job} {s : Text} {e : Expr} (h : e ∈ j.accepted s) :
    e.WellFormed := by
  cases j with
  | toFp o =>
      rw [accepted, foundValues_moodleSegments] at h
      exact wellFormed_of_mem_moodleBlocks h
  | toMoodle => exact wellFormed_of_mem_fpBlocks h

end Job

theorem infix_assemble {α : Type} (f : α → Text) {gs : List (Segment α)} {x : α}
    (h : x ∈ foundValues gs) : f x <:+: assemble f gs := by
  obtain ⟨g, hg, hx⟩ := List.mem_filterMap.1 h
  obtain ⟨gs, hs, rfl⟩ := List.append_of_mem hg
  cases g with
  | copied a => nomatch hx
  | found y =>
      cases hx
      rw [assemble_append, assemble_cons, ← List.append_assoc]
      exact List.infix_append _ _ _

/-- What is written for a part of a Moodle document stands in the new document. -/
theorem infix_of_mem_scan (o : Options) {s : Text} {x : Found} (h : x ∈ foundValues (scan s)) :
    x.text o.fixedPrecision <:+: (translateToFp o s).text := by
  rw [translateToFp_eq]
  exact infix_assemble (Found.text o.fixedPrecision) h

/-- What is written for the blocks of a document stands in the new document. -/
theorem Job.infix_of_mem_emitted {j : Job} {s t : Text} (h : t ∈ j.emitted s) :
    t <:+: (j.translate s).text := by
  obtain ⟨e, he, rfl⟩ := List.mem_map.1 h
  cases j with
  | toFp o =>
      rw [accepted, foundValues_moodleSegments, mem_moodleBlocks_iff] at he
      exact infix_of_mem_scan o he
  | toMoodle => exact infix_assemble Moodle.block he

end QuizFormula

import QuizFormula.Proofs.Document.Contents
import QuizFormula.Proofs.Document.Openers
import QuizFormula.Proofs.Grammar.Characters
import QuizFormula.Translator

/-!
# Translated documents are translated no further

A document that has been translated once has nothing left to translate, so rendering it
again changes nothing (`Translator.render_render`). Nothing is found in what was written
for a block or a wildcard: it lacks the opener of blocks, and going to `fp` it is inert as
well. And no block is found where a character was copied (`Copies.block?_moodle_cons`,
`Copies.block?_fp_cons`). If one were, its characters would be copied characters too, up
to the closing brace, and the document would have had the same block at that place.
-/

namespace QuizFormula

/-- If no replaced part begins with a character of a formula, what stands after an opener
is a block in the document if it is one after the parts are replaced. -/
theorem Copies.exists_blockAt {X : Text → Text → Prop} {d : Dialect} {e : Expr} {t y r : Text}
    (hchars : ∀ c, isFormulaChar d.wildcardStyle c = true → NeverBegins X c)
    (hclose : NeverBegins X '}') (h : Copies X t y) (hblock : BlockAt d e (d.opener ++ y) r) :
    ∃ r', BlockAt d e (d.opener ++ t) r' := by
  obtain ⟨u, hu, hformula, hall⟩ := hblock.exists_body
  have hy : y = (u ++ ['}']) ++ r := by
    rw [List.append_cancel_left hu, List.append_assoc, List.singleton_append]
  have hcopied : ∀ c ∈ u ++ ['}'], NeverBegins X c := by
    intro c hc
    rcases List.mem_append.1 hc with hc | hc
    · exact hchars c (hformula c hc)
    · rw [List.mem_singleton.1 hc]
      exact hclose
  obtain ⟨r', rfl, -⟩ := (hy ▸ h).exists_append hcopied
  refine ⟨r', ?_⟩
  rw [List.append_assoc, List.singleton_append]
  exact hall r'

/-! ### Moodle documents -/

theorem neverBegins_of_isFormulaChar {c : Char} (h : isFormulaChar .braced c = true) :
    NeverBegins Replaces c := by
  apply neverBegins_of_ne
  · rintro rfl
    exact absurd h (by decide)
  · rintro rfl
    exact absurd h (by decide)

/-- No block begins where a character is copied. -/
theorem Copies.block?_moodle_cons {c : Char} {t y : Text} (h : Copies Replaces t y)
    (hnone : block? .moodle (c :: t) = none) : block? .moodle (c :: y) = none := by
  cases hread : block? .moodle (c :: y) with
  | none => rfl
  | some x =>
      obtain ⟨hblock, hdepth⟩ := (block?_eq_some_iff .moodle _ x.2 x.1).1 hread
      obtain ⟨u, hu, -, -⟩ := hblock.exists_body
      obtain ⟨rfl, rfl⟩ := List.cons.inj hu
      obtain ⟨t', rfl, ht'⟩ := h.exists_cons (neverBegins_of_isMark (by decide))
      obtain ⟨r', hr'⟩ := ht'.exists_blockAt (d := .moodle)
        (fun c => neverBegins_of_isFormulaChar) (neverBegins_of_isMark (by decide)) hblock
      have hsome := (block?_eq_some_iff .moodle _ r' x.1).2 ⟨hr', hdepth⟩
      exact absurd (hnone.symm.trans hsome) (by simp)

/-- The scan finds nothing in an inert text without an opener and goes on after it. -/
theorem scan_append {x : Text} (hinert : Inert x) (hlacks : Lacks Dialect.moodle.opener x)
    (y : Text) : scan (x ++ y) = eachCopied x ++ scan y := by
  induction x with
  | nil => rfl
  | cons c t ih =>
      rw [inert_cons] at hinert
      have hblock := block?_eq_none_of_lacks hlacks y
      rw [List.cons_append, scan_of_none (mathSpan?_of_isInertAt hinert.1 y) hblock
        (bracedName?_of_isInertAt hinert.1 y), ih hinert.2 ((lacks_cons c t).1 hlacks).2.2]
      rfl

theorem head?_standalone (n : Text) : (Fp.standalone n).head? = some '\\' := by
  rw [Fp.standalone_eq]
  rfl

section

variable (precision : Nat)

/-- The translation keeps math and replaces blocks and wildcards. -/
theorem copies_scan (s : Text) :
    Copies Replaces s (assemble (Found.text precision) (scan s)) := by
  fun_induction scan s with
  | case1 => exact .nil
  | case2 c t a r hmath ih =>
      rw [assemble_cons, ← append_eq_of_mathSpan? hmath]
      rw [← append_eq_of_mathSpan? hmath] at hmath
      exact .part (.math hmath) ih
  | case3 c t hmath e r hblock ih =>
      obtain ⟨u, -, hu, -⟩ := ((block?_eq_some_iff .moodle _ r e).1 hblock).1.extends
      rw [assemble_cons, hu]
      exact .part (.written (Fp.inert_block precision (wellFormed_of_block? hblock))
        (head?_block precision e)) ih
  | case4 c t hmath hblock n r hname ih =>
      obtain ⟨u, hu, hn⟩ := (bracedName?_eq_some_iff _ n r).1 hname
      have hpart : c :: t = '{' :: (n ++ ['}']) ++ r := by
        rw [hu, ← append_eq_of_name? hn]
        simp
      rw [assemble_cons, hpart]
      exact .part (.written (Fp.inert_standalone (isName_of_name? hn)) (head?_standalone n)) ih
  | case5 c t hmath hblock hname ih => exact .char c ih

theorem foundValues_scan_assemble (s : Text) :
    foundValues (scan (assemble (Found.text precision) (scan s))) = [] := by
  fun_induction scan s with
  | case1 => rw [assemble_nil, scan_nil, foundValues_nil]
  | case2 c t a r hmath ih =>
      rw [assemble_cons, Segment.text, scan_of_math (mathSpan?_append hmath _),
        foundValues_cons_copied, ih]
  | case3 c t hmath e r hblock ih =>
      have he := wellFormed_of_block? hblock
      rw [assemble_cons, Segment.text, Found.text,
        scan_append (Fp.inert_block precision he) (Fp.lacks_block precision he),
        foundValues_append, foundValues_eachCopied, List.nil_append, ih]
  | case4 c t hmath hblock n r hname ih =>
      obtain ⟨u, -, hu⟩ := (bracedName?_eq_some_iff _ n r).1 hname
      have hn := isName_of_name? hu
      rw [assemble_cons, Segment.text, Found.text,
        scan_append (Fp.inert_standalone hn) (Fp.lacks_standalone hn),
        foundValues_append, foundValues_eachCopied, List.nil_append, ih]
  | case5 c t hmath hblock hname ih =>
      have hcopies := copies_scan precision t
      rw [assemble_cons, Segment.text, List.singleton_append,
        scan_of_none (hcopies.mathSpan?_cons hmath) (hcopies.block?_moodle_cons hblock)
          (hcopies.bracedName?_cons hname), foundValues_cons_copied, ih]

end

/-- Where nothing is found, the document is copied. -/
theorem assemble_of_foundValues_eq_nil {f : Found → Text} {gs : List (Segment Found)}
    {sources : List Text} (h : List.Forall₂ IsSource gs sources) (hnone : foundValues gs = []) :
    assemble f gs = sources.flatten := by
  induction h with
  | nil => rfl
  | cons hsource _ ih =>
      cases hsource with
      | copied => rw [assemble_cons, List.flatten_cons, ih hnone, Segment.text]
      | block => exact absurd hnone (List.cons_ne_nil _ _)
      | wildcard => exact absurd hnone (List.cons_ne_nil _ _)

theorem translateToFp_text (o : Options) (s : Text) :
    translateToFp o (translateToFp o s).text = ⟨(translateToFp o s).text, [], []⟩ := by
  have htext : (translateToFp o s).text = assemble (Found.text o.fixedPrecision) (scan s) := by
    rw [translateToFp_eq]
  have hnone := foundValues_scan_assemble o.fixedPrecision s
  obtain ⟨sources, hflatten, hsources⟩ :=
    exists_sources_scan (assemble (Found.text o.fixedPrecision) (scan s))
  rw [htext, translateToFp_eq, assemble_of_foundValues_eq_nil hsources hnone, hflatten,
    moodleBlocks, looseWildcards, hnone]
  rfl

/-! ### Documents with `fp` formulas -/

/-- What may take the place of a part of a document with `fp` formulas: a block for
Moodle. -/
def OpensMoodleBlock (_ x : Text) : Prop := ∃ t, x = '{' :: '=' :: t

theorem neverBegins_opensMoodleBlock {c : Char} (h : c ≠ '{') :
    NeverBegins OpensMoodleBlock c := by
  rintro u x ⟨t, rfl⟩
  exact ⟨'{', '=' :: t, rfl, h.symm⟩

theorem ne_brace_of_isFormulaChar {c : Char} (h : isFormulaChar .bare c = true) : c ≠ '{' := by
  rintro rfl
  exact absurd h (by decide)

/-- No formula begins with an equals sign. -/
theorem not_blockAt_opener_cons {e : Expr} {t r : Text} :
    ¬ BlockAt .fp e (Dialect.fp.opener ++ '=' :: t) r := by
  intro h
  obtain ⟨u, hu, hformula, -⟩ := h.exists_body
  have htail := List.append_cancel_left hu
  cases u with
  | nil => exact absurd (List.cons.inj htail).1 (by decide)
  | cons c u =>
      obtain ⟨rfl, -⟩ := List.cons.inj htail
      exact absurd (hformula '=' List.mem_cons_self) (by decide)

/-- No block begins where a character is copied. If its opener ended in a brace that was
written, an equals sign would come next. -/
theorem Copies.block?_fp_cons {c : Char} {t y : Text} (h : Copies OpensMoodleBlock t y)
    (hnone : block? .fp (c :: t) = none) : block? .fp (c :: y) = none := by
  cases hread : block? .fp (c :: y) with
  | none => rfl
  | some x =>
      obtain ⟨hblock, hdepth⟩ := (block?_eq_some_iff .fp _ x.2 x.1).1 hread
      obtain ⟨u, hu, -, -⟩ := hblock.exists_body
      generalize u ++ '}' :: x.2 = z at hu
      obtain ⟨rfl, hy⟩ : c = 'f' ∧ y = 'p' :: '{' :: z := List.cons.inj hu
      subst hy
      obtain ⟨t', rfl, ht'⟩ := h.exists_cons (neverBegins_opensMoodleBlock (by decide))
      -- The brace of the opener is copied, or it is the first character of a written block.
      rcases ht'.exists_cons_or with ⟨t, rfl, ht⟩ | ⟨v, w, ⟨w', rfl⟩, hprefix⟩
      · obtain ⟨r', hr'⟩ := ht.exists_blockAt (d := .fp)
          (fun c hc => neverBegins_opensMoodleBlock (ne_brace_of_isFormulaChar hc))
          (neverBegins_opensMoodleBlock (by decide)) hblock
        have hsome := (block?_eq_some_iff .fp _ r' x.1).2 ⟨hr', hdepth⟩
        exact absurd (hnone.symm.trans hsome) (by simp)
      · obtain ⟨y', rfl⟩ := (List.cons_prefix_cons.1 hprefix).2
        exact absurd hblock not_blockAt_opener_cons

theorem eachCopied_append {α : Type} (l r : Text) :
    eachCopied (l ++ r) = (eachCopied l ++ eachCopied r : List (Segment α)) := List.map_append

theorem fpSegments_append {x : Text} (hlacks : Lacks Dialect.fp.opener x) (y : Text) :
    fpSegments (x ++ y) = eachCopied x ++ fpSegments y := by
  induction x with
  | nil => rfl
  | cons c t ih =>
      rw [List.cons_append, fpSegments_of_none (block?_eq_none_of_lacks hlacks y),
        ih ((lacks_cons c t).1 hlacks).2.2]
      rfl

/-- The translation replaces blocks. -/
theorem copies_fpSegments (s : Text) :
    Copies OpensMoodleBlock s (assemble Moodle.block (fpSegments s)) := by
  induction s using fpDocument_induction with
  | nil =>
      rw [fpSegments_nil]
      exact .nil
  | @block s r e hblock ih =>
      obtain ⟨u, -, rfl, -⟩ := ((block?_eq_some_iff .fp s r e).1 hblock).1.extends
      rw [fpSegments_of_block hblock, assemble_cons]
      exact .part ⟨_, rfl⟩ ih
  | @char c t hblock ih =>
      rw [fpSegments_of_none hblock, assemble_cons]
      exact .char c ih

theorem fpSegments_assemble (s : Text) :
    fpSegments (assemble Moodle.block (fpSegments s)) =
      eachCopied (assemble Moodle.block (fpSegments s)) := by
  induction s using fpDocument_induction with
  | nil =>
      rw [fpSegments_nil, assemble_nil, fpSegments_nil]
      rfl
  | @block s r e hblock ih =>
      have hlacks := Moodle.lacks_block (wellFormed_of_block? hblock)
      rw [fpSegments_of_block hblock, assemble_cons, Segment.text, fpSegments_append hlacks, ih,
        eachCopied_append]
  | @char c t hblock ih =>
      rw [fpSegments_of_none hblock, assemble_cons, Segment.text, List.singleton_append,
        fpSegments_of_none ((copies_fpSegments t).block?_fp_cons hblock), ih]
      rfl

theorem translateToMoodle_text (s : Text) :
    translateToMoodle (translateToMoodle s).text = ⟨(translateToMoodle s).text, [], []⟩ := by
  have htext : (translateToMoodle s).text = assemble Moodle.block (fpSegments s) := rfl
  rw [htext, translateToMoodle, fpSegments_assemble, assemble_eachCopied, foundValues_eachCopied]
  rfl

theorem Job.translate_text (j : Job) (s : Text) :
    j.translate (j.translate s).text = ⟨(j.translate s).text, [], []⟩ := by
  cases j with
  | toFp o => exact translateToFp_text o s
  | toMoodle => exact translateToMoodle_text s

namespace Translator

/-- A translator that has met nothing new stays the same. -/
theorem remember_nothing (t : Translator) (s : Text) : t.remember ⟨s, [], []⟩ = t := by
  rw [remember, List.append_nil]
  rfl

/-- Rendering a document that has just been rendered changes nothing, whatever the
document is and whatever has been met before: the text stays as it is, nothing is logged,
and no diagnostic and no wildcard is added. -/
theorem render_render (t : Translator) (s : Text) :
    (t.render s).2.render (t.render s).1.text = (⟨(t.render s).1.text, []⟩, (t.render s).2) := by
  rw [text_render, render, job_render, Job.translate_text, remember_nothing]
  rfl

/-- What is written for a block can complete an opener, but not to a block. -/
example : ((new .toMoodle).render r"fpfp{1}".toList).1.text = r"fp{=1}".toList := by
  decide +kernel

end Translator

end QuizFormula

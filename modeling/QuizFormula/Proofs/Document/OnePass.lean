import Mathlib.Data.List.Forall2
import QuizFormula.Document.Translation
import QuizFormula.Proofs.Document.Copies

/-!
# One pass over a document

A Moodle document is translated to `fp` in two passes: blocks first, then wildcards in
what the first pass has written. `scan` goes over the document once. At each place it
takes the first of these that is there: a span of math, a block, a wildcard; and one
character otherwise. Both passes see what the scan sees (`translateToFp_eq_scan`): the
first one finds its blocks and copies its wildcards character by character, the second
one finds its wildcards and leaves alone what was written for its blocks.

Two things have to be shown. What is written for a block is inert, so the second pass
finds nothing in it; and where it meets copied text, no delimiter and no name is
completed or broken.
-/

namespace QuizFormula

/-- What is found in a Moodle document: a block, or a wildcard outside of blocks. -/
inductive Found where
  | block (e : Expr)
  | wildcard (n : Text)

/-- The segments of a Moodle document, in one pass. -/
def scan : Text → List (Segment Found)
  | [] => []
  | c :: t =>
    match _ : mathSpan? (c :: t) with
    | some (a, r) => .copied a :: scan r
    | none =>
      match _ : block? .moodle (c :: t) with
      | some (e, r) => .found (.block e) :: scan r
      | none =>
        match _ : bracedName? (c :: t) with
        | some (n, r) => .found (.wildcard n) :: scan r
        | none => .copied [c] :: scan t
termination_by s => s.length
decreasing_by
  · exact length_lt_of_mathSpan? ‹mathSpan? (c :: t) = some (a, r)›
  · exact length_lt_of_block? ‹block? .moodle (c :: t) = some (e, r)›
  · exact length_lt_of_bracedName? ‹bracedName? (c :: t) = some (n, r)›
  · simp

def Found.text (precision : Nat) : Found → Text
  | block e => Fp.block precision e
  | wildcard n => Fp.standalone n

def eachCopied {α : Type} (t : Text) : List (Segment α) := t.map fun c => .copied [c]

/-- A segment as the pass over blocks sees it. -/
def blockView : Segment Found → List (Segment Expr)
  | .copied a => [.copied a]
  | .found (.block e) => [.found e]
  | .found (.wildcard n) => eachCopied ('{' :: (n ++ ['}']))

/-- A segment as the pass over wildcards sees it, in the text with translated blocks. -/
def wildcardView (precision : Nat) : Segment Found → List (Segment Text)
  | .copied a => [.copied a]
  | .found (.block e) => eachCopied (Fp.block precision e)
  | .found (.wildcard n) => [.found n]

/-- The part `t` of a document is the segment, as it stands in the document. -/
inductive IsSource : Segment Found → Text → Prop
  | copied {a : Text} : IsSource (.copied a) a
  | block {e : Expr} {t : Text} (ht : BlockAt .moodle e t []) : IsSource (.found (.block e)) t
  | wildcard {n : Text} (hn : IsName n) :
      IsSource (.found (.wildcard n)) ('{' :: (n ++ ['}']))

/-! ### The two passes, step by step -/

theorem assemble_eachCopied {α : Type} (f : α → Text) (t : Text) :
    assemble f (eachCopied t) = t := by
  induction t with
  | nil => rfl
  | cons c t ih =>
      rw [eachCopied, List.map_cons, assemble_cons, ← eachCopied, ih]
      rfl

theorem math_read?_of_none {α : Type} {s : Text} (h : mathSpan? s = none) :
    (math α).read? s = none := by
  simp [math, h]

theorem math_read?_of_some {α : Type} {s a r : Text} (h : mathSpan? s = some (a, r)) :
    (math α).read? s = some (.copied a, r) := by
  simp [math, h]

theorem moodleSegments_of_math {s a r : Text} (h : mathSpan? s = some (a, r)) :
    moodleSegments s = .copied a :: moodleSegments r := by
  apply segments_of_read?
  rw [Pattern.orElse_read?, math_read?_of_some h, Option.some_or]

theorem moodleSegments_of_block {s r : Text} {e : Expr} (hmath : mathSpan? s = none)
    (h : block? .moodle s = some (e, r)) :
    moodleSegments s = .found e :: moodleSegments r := by
  apply segments_of_read?
  rw [Pattern.orElse_read?, math_read?_of_none hmath, Option.none_or]
  simp [block, h]

theorem moodleSegments_of_none {c : Char} {t : Text} (hmath : mathSpan? (c :: t) = none)
    (h : block? .moodle (c :: t) = none) :
    moodleSegments (c :: t) = .copied [c] :: moodleSegments t := by
  apply segments_cons_of_read?_eq_none
  rw [Pattern.orElse_read?, math_read?_of_none hmath, Option.none_or]
  simp [block, h]

theorem wildcardSegments_of_math {s a r : Text} (h : mathSpan? s = some (a, r)) :
    wildcardSegments s = .copied a :: wildcardSegments r := by
  apply segments_of_read?
  rw [Pattern.orElse_read?, math_read?_of_some h, Option.some_or]

theorem wildcardSegments_of_wildcard {s n r : Text} (hmath : mathSpan? s = none)
    (h : bracedName? s = some (n, r)) :
    wildcardSegments s = .found n :: wildcardSegments r := by
  apply segments_of_read?
  rw [Pattern.orElse_read?, math_read?_of_none hmath, Option.none_or]
  simp [bracedWildcard, h]

theorem wildcardSegments_of_none {c : Char} {t : Text} (hmath : mathSpan? (c :: t) = none)
    (h : bracedName? (c :: t) = none) :
    wildcardSegments (c :: t) = .copied [c] :: wildcardSegments t := by
  apply segments_cons_of_read?_eq_none
  rw [Pattern.orElse_read?, math_read?_of_none hmath, Option.none_or]
  simp [bracedWildcard, h]

/-- The second pass finds nothing in an inert text and goes on after it. -/
theorem wildcardSegments_append {t : Text} (ht : Inert t) (r : Text) :
    wildcardSegments (t ++ r) = eachCopied t ++ wildcardSegments r := by
  induction t with
  | nil => rfl
  | cons c t ih =>
      rw [inert_cons] at ht
      rw [List.cons_append, wildcardSegments_of_none (mathSpan?_of_isInertAt ht.1 r)
        (bracedName?_of_isInertAt ht.1 r), ih ht.2]
      rfl

theorem block?_moodle_cons_of_ne {c : Char} (hc : c ≠ '{') (t : Text) :
    block? .moodle (c :: t) = none := by
  have hopen : Dialect.moodle.opener.isPrefixOf? (c :: t) = none := by
    rw [isPrefixOf?_eq_none_iff]
    rintro ⟨r, hr⟩
    exact hc (List.cons.inj hr).1.symm
  simp only [block?, hopen]

/-- The first pass finds nothing among characters that mark nothing. -/
theorem moodleSegments_append {t : Text} (ht : ∀ c ∈ t, isMark c = false) (r : Text) :
    moodleSegments (t ++ r) = eachCopied t ++ moodleSegments r := by
  induction t with
  | nil => rfl
  | cons c t ih =>
      have hc := ht c (by simp)
      have hbrace : c ≠ '{' := by
        rintro rfl
        exact absurd hc (by decide)
      rw [List.cons_append, moodleSegments_of_none
        (mathSpan?_of_isInertAt (isInertAt_of_isMark hc t) r)
        (block?_moodle_cons_of_ne hbrace _), ih fun a ha => ht a (by simp [ha])]
      rfl

/-! ### What the first pass writes -/

section Written

variable {precision : Nat}

theorem translateBlocks_of_math {s a r : Text} (h : mathSpan? s = some (a, r)) :
    translateBlocks precision s = a ++ translateBlocks precision r := by
  rw [translateBlocks, moodleSegments_of_math h, assemble_cons]
  rfl

theorem translateBlocks_of_block {s r : Text} {e : Expr} (hmath : mathSpan? s = none)
    (h : block? .moodle s = some (e, r)) :
    translateBlocks precision s = Fp.block precision e ++ translateBlocks precision r := by
  rw [translateBlocks, moodleSegments_of_block hmath h, assemble_cons]
  rfl

theorem translateBlocks_of_none {c : Char} {t : Text} (hmath : mathSpan? (c :: t) = none)
    (h : block? .moodle (c :: t) = none) :
    translateBlocks precision (c :: t) = c :: translateBlocks precision t := by
  rw [translateBlocks, moodleSegments_of_none hmath h, assemble_cons]
  rfl

theorem translateBlocks_nil : translateBlocks precision [] = [] := by
  simp [translateBlocks, moodleSegments]

/-- A document is empty, or begins with math, with a block, or with a character that
begins neither. -/
theorem document_induction {P : Text → Prop} (nil : P [])
    (math : ∀ {s a r : Text}, mathSpan? s = some (a, r) → P r → P s)
    (block : ∀ {s r : Text} {e : Expr}, mathSpan? s = none → block? .moodle s = some (e, r) →
      P r → P s)
    (char : ∀ {c : Char} {t : Text}, mathSpan? (c :: t) = none →
      block? .moodle (c :: t) = none → P t → P (c :: t)) (s : Text) : P s := by
  induction hlength : s.length using Nat.strong_induction_on generalizing s with
  | _ n ih =>
      subst hlength
      cases hmath : mathSpan? s with
      | some x => exact math hmath (ih _ (length_lt_of_mathSpan? hmath) _ rfl)
      | none =>
          cases hblock : block? .moodle s with
          | some x => exact block hmath hblock (ih _ (length_lt_of_block? hblock) _ rfl)
          | none =>
              cases s with
              | nil => exact nil
              | cons c t => exact char hmath hblock (ih _ (by simp) _ rfl)

theorem head?_block (precision : Nat) (e : Expr) : (Fp.block precision e).head? = some '\\' := by
  have hopening : Fp.blockOpening.head? = some '\\' := by decide
  rw [Fp.block, List.head?_append, hopening]
  rfl

/-- The first pass keeps math and replaces blocks. -/
theorem copies_translateBlocks (precision : Nat) (s : Text) :
    Copies Replaces s (translateBlocks precision s) := by
  induction s using document_induction with
  | nil =>
      rw [translateBlocks_nil]
      exact .nil
  | @math s a r hmath ih =>
      rw [translateBlocks_of_math hmath]
      obtain rfl := append_eq_of_mathSpan? hmath
      exact .part (.math hmath) ih
  | @block s r e hmath hblock ih =>
      rw [translateBlocks_of_block hmath hblock]
      have hinert := Fp.inert_block precision (wellFormed_of_block? hblock)
      obtain ⟨u, -, rfl, -⟩ := ((block?_eq_some_iff .moodle s r e).1 hblock).1.extends
      exact .part (.written hinert (head?_block precision e)) ih
  | @char c t hmath hblock ih =>
      rw [translateBlocks_of_none hmath hblock]
      exact .char c ih

end Written

/-! ### Both passes see what the scan sees -/

theorem moodleSegments_of_wildcard {s n r : Text} (hmath : mathSpan? s = none)
    (hblock : block? .moodle s = none) (h : bracedName? s = some (n, r)) :
    moodleSegments s = eachCopied ('{' :: (n ++ ['}'])) ++ moodleSegments r := by
  obtain ⟨t, rfl, hname⟩ := (bracedName?_eq_some_iff s n r).1 h
  have hchars : ∀ c ∈ n ++ ['}'], isMark c = false := by
    intro c hc
    rcases List.mem_append.1 hc with hc | hc
    · exact isMark_eq_false_of_isNameChar ((isName_of_name? hname).isNameChar c hc)
    · rw [List.mem_singleton.1 hc]
      decide
  have ht : t = (n ++ ['}']) ++ r := by
    rw [← append_eq_of_name? hname]
    simp
  rw [moodleSegments_of_none hmath hblock, ht, moodleSegments_append hchars]
  rfl

theorem moodleSegments_eq_flatMap_scan (s : Text) :
    moodleSegments s = (scan s).flatMap blockView := by
  fun_induction scan s with
  | case1 => simp [moodleSegments]
  | case2 c t a r hmath ih =>
      rw [moodleSegments_of_math hmath, List.flatMap_cons, ih]
      rfl
  | case3 c t hmath e r hblock ih =>
      rw [moodleSegments_of_block hmath hblock, List.flatMap_cons, ih]
      rfl
  | case4 c t hmath hblock n r hname ih =>
      rw [moodleSegments_of_wildcard hmath hblock hname, List.flatMap_cons, ih]
      rfl
  | case5 c t hmath hblock hname ih =>
      rw [moodleSegments_of_none hmath hblock, List.flatMap_cons, ih]
      rfl

theorem wildcardSegments_eq_flatMap_scan (precision : Nat) (s : Text) :
    wildcardSegments (translateBlocks precision s) =
      (scan s).flatMap (wildcardView precision) := by
  fun_induction scan s with
  | case1 => simp [translateBlocks_nil, wildcardSegments]
  | case2 c t a r hmath ih =>
      rw [translateBlocks_of_math hmath,
        wildcardSegments_of_math (mathSpan?_append hmath _), List.flatMap_cons, ih]
      rfl
  | case3 c t hmath e r hblock ih =>
      have hinert := Fp.inert_block precision (wellFormed_of_block? hblock)
      rw [translateBlocks_of_block hmath hblock, wildcardSegments_append hinert,
        List.flatMap_cons, ih]
      rfl
  | case4 c t hmath hblock n r hname ih =>
      have htranslated : translateBlocks precision (c :: t) =
          '{' :: (n ++ '}' :: translateBlocks precision r) := by
        rw [translateBlocks, moodleSegments_of_wildcard hmath hblock hname, assemble_append,
          assemble_eachCopied]
        simp [translateBlocks]
      obtain ⟨u, -, hu⟩ := (bracedName?_eq_some_iff _ n r).1 hname
      have hmath' := mathSpan?_cons_of_ne (c := '{') (by decide) (by decide)
        (n ++ '}' :: translateBlocks precision r)
      rw [htranslated, wildcardSegments_of_wildcard hmath'
        (bracedName?_append (isName_of_name? hu)), List.flatMap_cons, ih]
      rfl
  | case5 c t hmath hblock hname ih =>
      rw [translateBlocks_of_none hmath hblock,
        wildcardSegments_of_none ((copies_translateBlocks precision t).mathSpan?_cons hmath)
          ((copies_translateBlocks precision t).bracedName?_cons hname), List.flatMap_cons, ih]
      rfl

theorem assemble_flatMap_wildcardView (precision : Nat) (gs : List (Segment Found)) :
    assemble Fp.standalone (gs.flatMap (wildcardView precision)) =
      assemble (Found.text precision) gs := by
  induction gs with
  | nil => rfl
  | cons g gs ih =>
      rw [List.flatMap_cons, assemble_append, assemble_cons, ih]
      congr 1
      cases g with
      | copied a => simp [wildcardView, Segment.text]
      | found x =>
          cases x with
          | block e => exact assemble_eachCopied Fp.standalone (Fp.block precision e)
          | wildcard n => simp [wildcardView, Segment.text, Found.text]

/-- The segments of the scan stand in the document one after the other. -/
theorem exists_sources_scan (s : Text) :
    ∃ sources, sources.flatten = s ∧ List.Forall₂ IsSource (scan s) sources := by
  fun_induction scan s with
  | case1 => exact ⟨[], rfl, .nil⟩
  | case2 c t a r hmath ih =>
      obtain ⟨sources, hr, hall⟩ := ih
      refine ⟨a :: sources, ?_, .cons .copied hall⟩
      rw [List.flatten_cons, hr, append_eq_of_mathSpan? hmath]
  | case3 c t hmath e r hblock ih =>
      obtain ⟨sources, hr, hall⟩ := ih
      obtain ⟨u, -, hu, hblocks⟩ := ((block?_eq_some_iff .moodle _ r e).1 hblock).1.extends
      refine ⟨u :: sources, ?_, .cons (.block ?_) hall⟩
      · rw [List.flatten_cons, hr, hu]
      · simpa using hblocks []
  | case4 c t hmath hblock n r hname ih =>
      obtain ⟨sources, hr, hall⟩ := ih
      obtain ⟨u, hu, hn⟩ := (bracedName?_eq_some_iff _ n r).1 hname
      refine ⟨('{' :: (n ++ ['}'])) :: sources, ?_, .cons (.wildcard (isName_of_name? hn)) hall⟩
      rw [List.flatten_cons, hr, hu, ← append_eq_of_name? hn]
      simp
  | case5 c t hmath hblock hname ih =>
      obtain ⟨sources, hr, hall⟩ := ih
      refine ⟨[c] :: sources, ?_, .cons .copied hall⟩
      rw [List.flatten_cons, hr]
      rfl

/-- Translating a Moodle document in two passes writes what the scan of the document
finds. The first pass sees the blocks of the scan, the second one its wildcards, and
both its spans of math; the segments of the scan make up the document. -/
theorem translateToFp_eq_scan (o : Options) (s : Text) :
    (translateToFp o s).text = assemble (Found.text o.fixedPrecision) (scan s) ∧
    moodleSegments s = (scan s).flatMap blockView ∧
    wildcardSegments (translateBlocks o.fixedPrecision s) =
      (scan s).flatMap (wildcardView o.fixedPrecision) ∧
    ∃ sources, sources.flatten = s ∧ List.Forall₂ IsSource (scan s) sources := by
  refine ⟨?_, moodleSegments_eq_flatMap_scan s,
    wildcardSegments_eq_flatMap_scan o.fixedPrecision s, exists_sources_scan s⟩
  rw [translateToFp, wildcardSegments_eq_flatMap_scan, assemble_flatMap_wildcardView]

end QuizFormula

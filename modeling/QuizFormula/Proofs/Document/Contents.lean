import QuizFormula.Proofs.Document.OnePass

/-!
# What is found in a document

The blocks of a Moodle document and its wildcards outside of blocks are those of the scan
of the document: the pass over wildcards reads a text in which the blocks are translated
already, and finds the wildcards of the document all the same. So the outcome of a
translation is told from the scan (`translateToFp_eq`), and that of a document that is
one block from the formula of the block.
-/

namespace QuizFormula

def Found.block? : Found → Option Expr
  | block e => some e
  | wildcard _ => none

def Found.wildcard? : Found → Option Text
  | block _ => none
  | wildcard n => some n

/-- The formulas of the blocks of a Moodle document, in their order. -/
def moodleBlocks (s : Text) : List Expr := (foundValues (scan s)).filterMap Found.block?

/-- The wildcards of a Moodle document outside of blocks, in their order. -/
def looseWildcards (s : Text) : List Text := (foundValues (scan s)).filterMap Found.wildcard?

/-- The formulas of the blocks of a document with `fp` formulas, in their order. -/
def fpBlocks (s : Text) : List Expr := foundValues (fpSegments s)

/-! ### Found values -/

section

variable {α β : Type}

@[simp] theorem foundValues_nil : foundValues ([] : List (Segment α)) = [] := rfl

@[simp] theorem foundValues_cons_copied (a : Text) (gs : List (Segment α)) :
    foundValues (.copied a :: gs) = foundValues gs := rfl

@[simp] theorem foundValues_cons_found (x : α) (gs : List (Segment α)) :
    foundValues (.found x :: gs) = x :: foundValues gs := rfl

@[simp] theorem foundValues_eachCopied (t : Text) :
    foundValues (eachCopied t : List (Segment α)) = [] := by
  induction t with
  | nil => rfl
  | cons c t ih => exact ih

/-- If `view` shows of each value what `f` takes from it, and nothing of copied text, then
what is shown is what `f` takes from the values. -/
theorem foundValues_flatMap {view : Segment α → List (Segment β)} {f : α → Option β}
    (hcopied : ∀ a, foundValues (view (.copied a)) = [])
    (hfound : ∀ x, foundValues (view (.found x)) = (f x).toList) (gs : List (Segment α)) :
    foundValues (gs.flatMap view) = (foundValues gs).filterMap f := by
  induction gs with
  | nil => rfl
  | cons g gs ih =>
      rw [List.flatMap_cons, foundValues_append, ih]
      cases g with
      | copied a => rw [hcopied, List.nil_append, foundValues_cons_copied]
      | found x =>
          rw [hfound, foundValues_cons_found, List.filterMap_cons]
          cases f x <;> rfl

end

theorem foundValues_moodleSegments (s : Text) :
    foundValues (moodleSegments s) = moodleBlocks s := by
  rw [moodleSegments_eq_flatMap_scan]
  apply foundValues_flatMap
  · intro a
    rfl
  · intro x
    cases x with
    | block e => rfl
    | wildcard n => exact foundValues_eachCopied _

theorem foundValues_wildcardSegments (precision : Nat) (s : Text) :
    foundValues (wildcardSegments (translateBlocks precision s)) = looseWildcards s := by
  rw [wildcardSegments_eq_flatMap_scan]
  apply foundValues_flatMap
  · intro a
    rfl
  · intro x
    cases x with
    | block e => exact foundValues_eachCopied _
    | wildcard n => rfl

/-- The translation of a Moodle document, told from the scan of the document. -/
theorem translateToFp_eq (o : Options) (s : Text) :
    translateToFp o s =
      { text := assemble (Found.text o.fixedPrecision) (scan s)
        diagnostics := (moodleBlocks s).flatMap (Expr.survey (Fp.report o.overflowLimit)) ++
          (looseWildcards s).flatMap namingReport
        wildcards := [] } := by
  rw [translateToFp, foundValues_moodleSegments, foundValues_wildcardSegments,
    wildcardSegments_eq_flatMap_scan, assemble_flatMap_wildcardView]

/-- The tokens of what was found are those of the grammar. -/
def Found.WellFormed : Found → Prop
  | block e => e.WellFormed
  | wildcard n => IsName n

theorem wellFormed_of_sources {gs : List (Segment Found)} {sources : List Text}
    (h : List.Forall₂ IsSource gs sources) : ∀ x ∈ foundValues gs, x.WellFormed := by
  induction h with
  | nil => exact fun x hx => absurd hx List.not_mem_nil
  | cons hsource _ ih =>
      cases hsource with
      | copied => exact ih
      | block hblock => exact List.forall_mem_cons.2 ⟨hblock.wellFormed, ih⟩
      | wildcard hn => exact List.forall_mem_cons.2 ⟨hn, ih⟩

theorem wellFormed_of_mem_scan {s : Text} : ∀ x ∈ foundValues (scan s), x.WellFormed := by
  obtain ⟨sources, -, hsources⟩ := exists_sources_scan s
  exact wellFormed_of_sources hsources

theorem mem_moodleBlocks_iff (s : Text) (e : Expr) :
    e ∈ moodleBlocks s ↔ .block e ∈ foundValues (scan s) := by
  rw [moodleBlocks, List.mem_filterMap]
  constructor
  · rintro ⟨x, hx, hxe⟩
    cases x with
    | block e' =>
        cases hxe
        exact hx
    | wildcard n => nomatch hxe
  · exact fun h => ⟨.block e, h, rfl⟩

theorem mem_looseWildcards_iff (s n : Text) :
    n ∈ looseWildcards s ↔ .wildcard n ∈ foundValues (scan s) := by
  rw [looseWildcards, List.mem_filterMap]
  constructor
  · rintro ⟨x, hx, hxn⟩
    cases x with
    | block e => nomatch hxn
    | wildcard n' =>
        cases hxn
        exact hx
  · exact fun h => ⟨.wildcard n, h, rfl⟩

theorem wellFormed_of_mem_moodleBlocks {s : Text} {e : Expr} (h : e ∈ moodleBlocks s) :
    e.WellFormed :=
  wellFormed_of_mem_scan _ ((mem_moodleBlocks_iff s e).1 h)

theorem isName_of_mem_looseWildcards {s n : Text} (h : n ∈ looseWildcards s) : IsName n :=
  wellFormed_of_mem_scan _ ((mem_looseWildcards_iff s n).1 h)

/-! ### The scan, step by step -/

theorem scan_nil : scan [] = [] := by
  rw [scan]

theorem scan_of_math {s a r : Text} (h : mathSpan? s = some (a, r)) :
    scan s = .copied a :: scan r := by
  cases s with
  | nil => exact absurd (length_lt_of_mathSpan? h) (Nat.not_lt_zero _)
  | cons c t =>
      rw [scan]
      split <;> simp_all

theorem scan_of_block {s r : Text} {e : Expr} (hmath : mathSpan? s = none)
    (h : block? .moodle s = some (e, r)) : scan s = .found (.block e) :: scan r := by
  cases s with
  | nil => exact absurd (length_lt_of_block? h) (Nat.not_lt_zero _)
  | cons c t =>
      rw [scan]
      split
      · simp_all
      · split <;> simp_all

theorem scan_of_wildcard {s r n : Text} (hmath : mathSpan? s = none)
    (hblock : block? .moodle s = none) (h : bracedName? s = some (n, r)) :
    scan s = .found (.wildcard n) :: scan r := by
  cases s with
  | nil => exact absurd (length_lt_of_bracedName? h) (Nat.not_lt_zero _)
  | cons c t =>
      rw [scan]
      split
      · simp_all
      · split
        · simp_all
        · split <;> simp_all

theorem scan_of_none {c : Char} {t : Text} (hmath : mathSpan? (c :: t) = none)
    (hblock : block? .moodle (c :: t) = none) (hname : bracedName? (c :: t) = none) :
    scan (c :: t) = .copied [c] :: scan t := by
  rw [scan]
  split
  · simp_all
  · split
    · simp_all
    · split <;> simp_all

theorem fpSegments_of_block {s r : Text} {e : Expr} (h : block? .fp s = some (e, r)) :
    fpSegments s = .found e :: fpSegments r := by
  apply segments_of_read?
  simp [block, h]

theorem fpSegments_of_none {c : Char} {t : Text} (h : block? .fp (c :: t) = none) :
    fpSegments (c :: t) = .copied [c] :: fpSegments t := by
  apply segments_cons_of_read?_eq_none
  simp [block, h]

/-- A document with `fp` formulas is empty, or begins with a block, or with a character
that begins no block. -/
theorem fpDocument_induction {P : Text → Prop} (nil : P [])
    (block : ∀ {s r : Text} {e : Expr}, block? .fp s = some (e, r) → P r → P s)
    (char : ∀ {c : Char} {t : Text}, block? .fp (c :: t) = none → P t → P (c :: t))
    (s : Text) : P s := by
  induction hlength : s.length using Nat.strong_induction_on generalizing s with
  | _ n ih =>
      subst hlength
      cases hblock : block? .fp s with
      | some x => exact block hblock (ih _ (length_lt_of_block? hblock) _ rfl)
      | none =>
          cases s with
          | nil => exact nil
          | cons c t => exact char hblock (ih _ (by simp) _ rfl)

theorem fpSegments_nil : fpSegments [] = [] := segments_nil _

theorem wellFormed_of_mem_fpBlocks {s : Text} {e : Expr} (h : e ∈ fpBlocks s) :
    e.WellFormed := by
  unfold fpBlocks at h
  induction s using fpDocument_induction with
  | nil =>
      rw [fpSegments_nil] at h
      exact absurd h List.not_mem_nil
  | @block s r e' hblock ih =>
      rw [fpSegments_of_block hblock, foundValues_cons_found] at h
      rcases List.mem_cons.1 h with rfl | h
      · exact wellFormed_of_block? hblock
      · exact ih h
  | char hblock ih =>
      rw [fpSegments_of_none hblock] at h
      exact ih h

/-! ### Documents that are one block -/

theorem mathSpan?_of_block? {s r : Text} {e : Expr} (h : block? .moodle s = some (e, r)) :
    mathSpan? s = none := by
  cases ((block?_eq_some_iff .moodle s r e).1 h).1 with
  | block he hb => exact mathSpan?_cons_of_ne (by decide) (by decide) _

theorem translateToFp_of_block (o : Options) {s : Text} {e : Expr}
    (h : block? .moodle s = some (e, [])) :
    translateToFp o s =
      { text := Fp.block o.fixedPrecision e
        diagnostics := e.survey (Fp.report o.overflowLimit)
        wildcards := [] } := by
  have hscan : scan s = [.found (.block e)] := by
    rw [scan_of_block (mathSpan?_of_block? h) h, scan_nil]
  rw [translateToFp_eq, moodleBlocks, looseWildcards, hscan]
  simp [Segment.text, Found.text, Found.block?, Found.wildcard?]

theorem translateToMoodle_of_block {s : Text} {e : Expr} (h : block? .fp s = some (e, [])) :
    translateToMoodle s =
      { text := Moodle.block e
        diagnostics := e.survey Moodle.report
        wildcards := Moodle.wildcards e } := by
  have hsegments : fpSegments s = [.found e] := by
    rw [fpSegments_of_block h, fpSegments, segments_nil]
  rw [translateToMoodle, hsegments]
  simp [Segment.text]

end QuizFormula

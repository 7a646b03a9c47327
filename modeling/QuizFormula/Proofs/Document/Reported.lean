import QuizFormula.Proofs.Document.Contents
import QuizFormula.Proofs.Grammar.Characters
import QuizFormula.Proofs.Translation.Diagnosis

/-!
# What is reported of a document

A document goes on, at each place, with a span of math, with an accepted block, with a
wildcard outside of blocks or with a character, the first of these that is there; only a
character can be where a block is opened that is not accepted. `HasContents` lists the
items that are complete in the accepted blocks and the wildcards outside of blocks, in the
order of the text. What is reported of the document are the diagnostics of these items
(`exists_hasContents`), so nothing else in it is reported, whatever has been read of it.
-/

namespace QuizFormula

/-- The items of a document: those of its blocks, and the wildcards outside of blocks. -/
structure Contents where
  inBlocks : List Completed
  outside : List Completed

namespace Contents

def append (c c' : Contents) : Contents :=
  ⟨c.inBlocks ++ c'.inBlocks, c.outside ++ c'.outside⟩

def diagnostics (j : Job) (c : Contents) : List Diagnostic :=
  (c.inBlocks ++ c.outside).filterMap fun x => j.diagnostic? x.item

def wildcards (j : Job) (c : Contents) : List Text :=
  c.inBlocks.filterMap fun x => j.wildcard? x.item

end Contents

/-- The document `s` is a span of math and then `r`. Only Moodle documents have math. -/
def MathAt (d : Dialect) (s r : Text) : Prop :=
  d = .moodle ∧ ∃ a, mathSpan? s = some (a, r)

/-- The document `s` is a block that is accepted and then `r`. -/
def AcceptedAt (d : Dialect) (e : Expr) (s r : Text) : Prop :=
  BlockAt d e s r ∧ e.depth ≤ maxDepth

/-- The document `s` is a wildcard and then `r`. Only Moodle documents have wildcards
outside of blocks. -/
def LooseAt (d : Dialect) (n s r : Text) : Prop :=
  d = .moodle ∧ WildcardAt .braced n s r

/-- The first segment of the document `s` ends where `r` is left, and has the contents. -/
inductive SegmentAt (d : Dialect) : Text → Text → Contents → Prop
  | math {s r : Text} (h : MathAt d s r) : SegmentAt d s r ⟨[], []⟩
  | block {e : Expr} {s r : Text} {l : List Completed} (hmath : ∀ r', ¬ MathAt d s r')
      (h : BlockReads d e s r l) (hdepth : e.depth ≤ maxDepth) : SegmentAt d s r ⟨l, []⟩
  | wildcard {n s r : Text} (hmath : ∀ r', ¬ MathAt d s r')
      (hblock : ∀ e r', ¬ AcceptedAt d e s r') (h : LooseAt d n s r) :
      SegmentAt d s r ⟨[], [⟨.wildcard n, r⟩]⟩
  | char {x : Char} {t : Text} (hmath : ∀ r', ¬ MathAt d (x :: t) r')
      (hblock : ∀ e r', ¬ AcceptedAt d e (x :: t) r')
      (hwildcard : ∀ n r', ¬ LooseAt d n (x :: t) r') : SegmentAt d (x :: t) t ⟨[], []⟩

/-- The contents of a document are those of its segments. -/
inductive HasContents (d : Dialect) : Text → Contents → Prop
  | nil : HasContents d [] ⟨[], []⟩
  | cons {s r : Text} {c c' : Contents} (h : SegmentAt d s r c) (hr : HasContents d r c') :
      HasContents d s (c.append c')

/-! ### Contents come in the order of the text, and in one way only -/

section

variable {d : Dialect} {s r r' : Text} {c c' : Contents}

theorem MathAt.exists_append (h : MathAt d s r) : ∃ a, a ≠ [] ∧ s = a ++ r := by
  obtain ⟨-, a, ha⟩ := h
  have hs := append_eq_of_mathSpan? ha
  refine ⟨a, ?_, hs.symm⟩
  rintro rfl
  exact absurd (length_lt_of_mathSpan? ha) (by simp [← hs])

theorem SegmentAt.exists_append (h : SegmentAt d s r c) : ∃ u, u ≠ [] ∧ s = u ++ r := by
  cases h with
  | math h => exact h.exists_append
  | block _ h =>
      obtain ⟨u, hu, hs, -⟩ := h.blockAt.extends
      exact ⟨u, hu, hs⟩
  | wildcard _ _ h => exact h.2.exists_append
  | @char x t => exact ⟨[x], List.cons_ne_nil x [], rfl⟩

theorem SegmentAt.inOrder (h : SegmentAt d s r c) :
    InOrder s r c.inBlocks ∧ InOrder s r c.outside := by
  obtain ⟨u, hu, hs⟩ := h.exists_append
  have hsuffix : r <:+ s := ⟨u, hs.symm⟩
  cases h with
  | math => exact ⟨.nil hsuffix, .nil hsuffix⟩
  | block _ h => exact ⟨h.inOrder, .nil hsuffix⟩
  | wildcard => exact ⟨.nil hsuffix, .singleton hu hs _⟩
  | char => exact ⟨.nil hsuffix, .nil hsuffix⟩

theorem HasContents.inOrder (h : HasContents d s c) :
    InOrder s [] c.inBlocks ∧ InOrder s [] c.outside := by
  induction h with
  | nil => exact ⟨.nil List.suffix_rfl, .nil List.suffix_rfl⟩
  | cons h _ ih => exact ⟨h.inOrder.1.append ih.1, h.inOrder.2.append ih.2⟩

theorem bracedName?_eq_some_iff_wildcardAt (s n r : Text) :
    bracedName? s = some (n, r) ↔ WildcardAt .braced n s r := by
  constructor
  · exact fun h => wildcardAt_of_markedName? h
  · intro h
    cases h with
    | braced hn => exact bracedName?_append hn

theorem BlockReads.acceptedAt {e : Expr} {l : List Completed} (h : BlockReads d e s r l)
    (hdepth : e.depth ≤ maxDepth) : AcceptedAt d e s r :=
  ⟨h.blockAt, hdepth⟩

theorem SegmentAt.unique (h : SegmentAt d s r c) (h' : SegmentAt d s r' c') :
    r = r' ∧ c = c' := by
  cases h with
  | math h =>
      cases h' with
      | math h' =>
          obtain ⟨-, a, ha⟩ := h
          obtain ⟨-, a', ha'⟩ := h'
          obtain ⟨-, rfl⟩ := Prod.mk.inj (Option.some.inj (ha.symm.trans ha'))
          exact ⟨rfl, rfl⟩
      | block hmath => exact absurd h (hmath r)
      | wildcard hmath => exact absurd h (hmath r)
      | char hmath => exact absurd h (hmath r)
  | block hmath h hdepth =>
      cases h' with
      | math h' => exact absurd h' (hmath r')
      | block _ h' =>
          obtain ⟨rfl, rfl⟩ := h.blockAt.unique h'.blockAt
          obtain rfl := h.unique h'
          exact ⟨rfl, rfl⟩
      | wildcard _ hblock => exact absurd (h.acceptedAt hdepth) (hblock _ r)
      | char _ hblock => exact absurd (h.acceptedAt hdepth) (hblock _ r)
  | wildcard hmath hblock h =>
      cases h' with
      | math h' => exact absurd h' (hmath r')
      | block _ h' hdepth => exact absurd (h'.acceptedAt hdepth) (hblock _ r')
      | wildcard _ _ h' =>
          have hread := (bracedName?_eq_some_iff_wildcardAt _ _ _).2 h.2
          rw [(bracedName?_eq_some_iff_wildcardAt _ _ _).2 h'.2] at hread
          obtain ⟨rfl, rfl⟩ := Prod.mk.inj (Option.some.inj hread)
          exact ⟨rfl, rfl⟩
      | char _ _ hwildcard => exact absurd h (hwildcard _ r)
  | char hmath hblock hwildcard =>
      cases h' with
      | math h' => exact absurd h' (hmath r')
      | block _ h' hdepth => exact absurd (h'.acceptedAt hdepth) (hblock _ r')
      | wildcard _ _ h' => exact absurd h' (hwildcard _ r')
      | char => exact ⟨rfl, rfl⟩

theorem HasContents.unique (h : HasContents d s c) (h' : HasContents d s c') : c = c' := by
  induction h generalizing c' with
  | nil =>
      cases h' with
      | nil => rfl
      | cons h' =>
          obtain ⟨u, hu, hs⟩ := h'.exists_append
          exact absurd (List.append_eq_nil_iff.1 hs.symm).1 hu
  | cons h _ ih =>
      cases h' with
      | nil =>
          obtain ⟨u, hu, hs⟩ := h.exists_append
          exact absurd (List.append_eq_nil_iff.1 hs.symm).1 hu
      | cons h' hr' =>
          obtain ⟨rfl, rfl⟩ := h.unique h'
          rw [ih hr']

theorem HasContents.rightUnique : Relator.RightUnique (HasContents d) :=
  fun _ _ _ h h' => h.unique h'

end

/-! ### Every document has contents -/

theorem acceptedAt_iff (d : Dialect) (e : Expr) (s r : Text) :
    AcceptedAt d e s r ↔ block? d s = some (e, r) :=
  (block?_eq_some_iff d s r e).symm

theorem not_acceptedAt {d : Dialect} {s : Text} (h : block? d s = none) (e : Expr) (r : Text) :
    ¬ AcceptedAt d e s r := by
  rw [acceptedAt_iff, h]
  simp

theorem not_mathAt {d : Dialect} {s : Text} (h : mathSpan? s = none) (r : Text) :
    ¬ MathAt d s r := by
  rintro ⟨-, a, ha⟩
  rw [h] at ha
  simp at ha

theorem not_looseAt {d : Dialect} {s : Text} (h : bracedName? s = none) (n r : Text) :
    ¬ LooseAt d n s r := by
  rintro ⟨-, hn⟩
  rw [(bracedName?_eq_some_iff_wildcardAt s n r).2 hn] at h
  simp at h

/-- The items of a document are those of its blocks, and the wildcards outside of them. -/
theorem exists_hasContents_moodle (s : Text) :
    ∃ c, HasContents .moodle s c ∧
      c.inBlocks.map Completed.item = (moodleBlocks s).flatMap Expr.items ∧
      c.outside.map Completed.item = (looseWildcards s).map Item.wildcard := by
  unfold moodleBlocks looseWildcards
  fun_induction scan s with
  | case1 => exact ⟨_, .nil, rfl, rfl⟩
  | case2 x t a r hmath ih =>
      obtain ⟨c, hc, hblocks, hloose⟩ := ih
      exact ⟨_, .cons (.math ⟨rfl, a, hmath⟩) hc, hblocks, hloose⟩
  | case3 x t hmath e r hblock ih =>
      obtain ⟨c, hc, hblocks, hloose⟩ := ih
      obtain ⟨hblock, hdepth⟩ := (block?_eq_some_iff .moodle _ r e).1 hblock
      obtain ⟨l, hl⟩ := hblock.exists_reads
      refine ⟨_, .cons (.block (not_mathAt hmath) hl hdepth) hc, ?_, hloose⟩
      rw [Contents.append, List.map_append, hl.items_eq, hblocks]
      rfl
  | case4 x t hmath hblock n r hname ih =>
      obtain ⟨c, hc, hblocks, hloose⟩ := ih
      have hn := (bracedName?_eq_some_iff_wildcardAt _ n r).1 hname
      refine ⟨_, .cons (.wildcard (not_mathAt hmath) (not_acceptedAt hblock) ⟨rfl, hn⟩) hc,
        hblocks, ?_⟩
      rw [Contents.append, List.map_append, hloose]
      rfl
  | case5 x t hmath hblock hname ih =>
      obtain ⟨c, hc, hblocks, hloose⟩ := ih
      exact ⟨_, .cons (.char (not_mathAt hmath) (not_acceptedAt hblock) (not_looseAt hname)) hc,
        hblocks, hloose⟩

theorem exists_hasContents_fp (s : Text) :
    ∃ c, HasContents .fp s c ∧
      c.inBlocks.map Completed.item = (fpBlocks s).flatMap Expr.items ∧ c.outside = [] := by
  have hmath : ∀ s r, ¬ MathAt .fp s r := fun s r h => nomatch h.1
  induction s using fpDocument_induction with
  | nil =>
      refine ⟨_, .nil, ?_, rfl⟩
      rw [fpBlocks, fpSegments_nil]
      rfl
  | @block s r e hblock ih =>
      obtain ⟨c, hc, hblocks, houtside⟩ := ih
      obtain ⟨hat, hdepth⟩ := (block?_eq_some_iff .fp s r e).1 hblock
      obtain ⟨l, hl⟩ := hat.exists_reads
      refine ⟨_, .cons (.block (hmath s) hl hdepth) hc, ?_, houtside⟩
      rw [Contents.append, List.map_append, hl.items_eq, hblocks, fpBlocks, fpBlocks,
        fpSegments_of_block hblock]
      rfl
  | @char x t hblock ih =>
      obtain ⟨c, hc, hblocks, houtside⟩ := ih
      have hloose : ∀ n r, ¬ LooseAt .fp n (x :: t) r := fun n r h => nomatch h.1
      refine ⟨_, .cons (.char (hmath _) (not_acceptedAt hblock) hloose) hc, ?_, houtside⟩
      rw [fpBlocks, fpSegments_of_none hblock]
      exact hblocks

/-- Every document has contents. -/
theorem HasContents.exists (d : Dialect) (s : Text) : ∃ c, HasContents d s c := by
  cases d with
  | moodle =>
      obtain ⟨c, hc, -⟩ := exists_hasContents_moodle s
      exact ⟨c, hc⟩
  | fp =>
      obtain ⟨c, hc, -⟩ := exists_hasContents_fp s
      exact ⟨c, hc⟩

/-! ### What is reported are the contents -/

namespace Contents

theorem diagnostics_eq (j : Job) (c : Contents) :
    c.diagnostics j = (c.inBlocks.map Completed.item).filterMap j.diagnostic? ++
      (c.outside.map Completed.item).filterMap j.diagnostic? := by
  rw [diagnostics, List.filterMap_append, List.filterMap_map, List.filterMap_map]
  rfl

theorem wildcards_eq (j : Job) (c : Contents) :
    c.wildcards j = (c.inBlocks.map Completed.item).filterMap j.wildcard? := by
  rw [wildcards, List.filterMap_map]
  rfl

end Contents

theorem filterMap_flatMap_items {β : Type} {f : Item → Option β} {g : Expr → List β}
    {es : List Expr} (h : ∀ e ∈ es, g e = e.items.filterMap f) :
    (es.flatMap Expr.items).filterMap f = es.flatMap g := by
  rw [List.filterMap_flatMap]
  exact List.flatMap_congr fun e he => (h e he).symm

theorem filterMap_map_wildcard (o : Options) {ns : List Text} (h : ∀ n ∈ ns, IsName n) :
    (ns.map Item.wildcard).filterMap (Job.toFp o).diagnostic? = ns.flatMap namingReport := by
  rw [List.filterMap_map, List.filterMap_eq_flatMap_toList]
  exact List.flatMap_congr fun n hn => (namingReport_eq (h n hn)).symm

/-- The outcome of a translation is told from the contents of the document. -/
theorem exists_hasContents (j : Job) (s : Text) :
    ∃ c, HasContents j.source s c ∧ (j.translate s).diagnostics = c.diagnostics j ∧
      (j.translate s).wildcards = c.wildcards j := by
  cases j with
  | toFp o =>
      obtain ⟨c, hc, hblocks, hloose⟩ := exists_hasContents_moodle s
      refine ⟨c, hc, ?_, ?_⟩
      · rw [Job.translate, translateToFp_eq, c.diagnostics_eq, hblocks, hloose,
          filterMap_map_wildcard o fun n => isName_of_mem_looseWildcards,
          filterMap_flatMap_items fun e he =>
            Fp.survey_report o (wellFormed_of_mem_moodleBlocks he)]
      · exact (List.filterMap_eq_nil_iff.2 fun _ _ => rfl).symm
  | toMoodle =>
      obtain ⟨c, hc, hblocks, houtside⟩ := exists_hasContents_fp s
      refine ⟨c, hc, ?_, ?_⟩
      · rw [c.diagnostics_eq, hblocks, houtside, filterMap_flatMap_items fun e he =>
          Moodle.survey_report (wellFormed_of_mem_fpBlocks he)]
        exact (List.append_nil _).symm
      · rw [c.wildcards_eq, hblocks, filterMap_flatMap_items fun e he =>
          Moodle.wildcards_eq (wellFormed_of_mem_fpBlocks he)]
        rfl

theorem diagnostics_translate {j : Job} {s : Text} {c : Contents}
    (h : HasContents j.source s c) : (j.translate s).diagnostics = c.diagnostics j := by
  obtain ⟨c', hc', hdiagnostics, -⟩ := exists_hasContents j s
  rw [h.unique hc', hdiagnostics]

theorem wildcards_translate {j : Job} {s : Text} {c : Contents}
    (h : HasContents j.source s c) : (j.translate s).wildcards = c.wildcards j := by
  obtain ⟨c', hc', -, hwildcards⟩ := exists_hasContents j s
  rw [h.unique hc', hwildcards]

/-! ### Blocks that are not accepted -/

/-- A block is opened at the beginning of the document, and none is accepted there. -/
structure Refused (d : Dialect) (s : Text) : Prop where
  opened : d.opener <+: s
  not_accepted : ∀ e r, ¬ AcceptedAt d e s r

theorem refused_iff (d : Dialect) (s : Text) :
    Refused d s ↔ d.opener <+: s ∧ block? d s = none := by
  constructor
  · rintro ⟨hopened, hnone⟩
    refine ⟨hopened, Option.eq_none_iff_forall_ne_some.2 ?_⟩
    rintro ⟨e, r⟩ h
    exact hnone e r ((acceptedAt_iff d e s r).2 h)
  · rintro ⟨hopened, h⟩
    exact ⟨hopened, not_acceptedAt h⟩

instance (d : Dialect) (s : Text) : Decidable (Refused d s) :=
  decidable_of_iff _ (refused_iff d s).symm

theorem not_mathAt_of_opened {d : Dialect} {s : Text} (h : d.opener <+: s) (r : Text) :
    ¬ MathAt d s r := by
  rintro ⟨rfl, a, ha⟩
  obtain ⟨t, rfl⟩ := h
  have hnone := mathSpan?_cons_of_ne (c := '{') (by decide) (by decide) ('=' :: t)
  exact absurd (hnone.symm.trans ha) (by simp)

theorem not_looseAt_of_opened {d : Dialect} {s : Text} (h : d.opener <+: s) (n r : Text) :
    ¬ LooseAt d n s r := by
  rintro ⟨rfl, hn⟩
  obtain ⟨t, ht⟩ := h
  cases hn with
  | braced hn =>
      obtain ⟨c, u, rfl, hc, -⟩ := hn
      obtain ⟨rfl, -⟩ := List.cons.inj (List.cons.inj ht).2
      exact absurd hc (by decide)

/-- What is opened and not accepted contributes nothing: the contents are those of the
document after its first character. -/
theorem HasContents.of_refused {d : Dialect} {s : Text} {c : Contents} (hrefused : Refused d s)
    (h : HasContents d s c) : HasContents d s.tail c := by
  obtain ⟨hopened, hnone⟩ := hrefused
  cases h with
  | nil => exact absurd (List.prefix_nil.1 hopened) d.opener_ne_nil
  | cons h hr =>
      cases h with
      | math h => exact absurd h (not_mathAt_of_opened hopened _)
      | block _ h hdepth => exact absurd (h.acceptedAt hdepth) (hnone _ _)
      | wildcard _ _ h => exact absurd h (not_looseAt_of_opened hopened _ _)
      | char => exact hr

end QuizFormula

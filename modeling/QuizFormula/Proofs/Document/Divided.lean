import Mathlib.Data.List.Infix
import QuizFormula.Proofs.Document.Contents
import QuizFormula.Proofs.Grammar.Characters
import QuizFormula.Proofs.Translation.Constants
import QuizFormula.Translator

/-!
# Documents that are divided by a character

A divider is a character that stands in no block, no wildcard and no delimiter of math. What
is read before a divider is read as if the document ended there (`ReadsWithout.read?_append`),
so the parts of a document on either side of a divider can be translated one after the other
(`Translator.render_divided`). Only math could reach over a divider, since a span of math has
any characters between its delimiters.
-/

namespace QuizFormula

/-- Whether the character stands in no block, no wildcard and no delimiter. -/
def isDivider (c : Char) : Bool :=
  !(c.isAlphanum || isBlank c ||
    c ∈ ['+', '-', '*', '/', '(', ')', '{', '}', ',', '.', '_', '=', '$', '\\', '[', ']'])

section Divider

variable {c : Char}

theorem isAlphanum_of_isDivider (hc : isDivider c = true) : c.isAlphanum = false := by
  simp only [isDivider, Bool.not_eq_true', Bool.or_eq_false_iff] at hc
  exact hc.1.1

theorem isBlank_of_isDivider (hc : isDivider c = true) : isBlank c = false := by
  simp only [isDivider, Bool.not_eq_true', Bool.or_eq_false_iff] at hc
  exact hc.1.2

theorem ne_of_isDivider (hc : isDivider c = true) {d : Char} (hd : isDivider d = false) :
    c ≠ d := by
  rintro rfl
  rw [hc] at hd
  exact absurd hd (by decide)

theorem isNameChar_of_isDivider (hc : isDivider c = true) : isNameChar c = false := by
  have hunderscore : c ≠ '_' := ne_of_isDivider hc (by decide)
  simp [isNameChar, isAlphanum_of_isDivider hc, hunderscore]

theorem isFormulaChar_of_isDivider (hc : isDivider c = true) (w : WildcardStyle) :
    isFormulaChar w c = false := by
  have hdot : c ≠ '.' := ne_of_isDivider hc (by decide)
  have hseparator : c ∉ separators := by
    intro hmem
    have hother : ∀ d ∈ separators, isDivider d = false := forall_mem_separators (by decide)
    exact ne_of_isDivider hc (hother c hmem) rfl
  have hmark : w.isMark c = false := by
    cases w with
    | braced =>
        simp [WildcardStyle.isMark, ne_of_isDivider hc (d := '{') (by decide),
          ne_of_isDivider hc (d := '}') (by decide)]
    | bare => rfl
    | tex => simp [WildcardStyle.isMark, ne_of_isDivider hc (d := '\\') (by decide)]
  simp [isFormulaChar, isTokenChar, isNameChar_of_isDivider hc, hdot, isBlank_of_isDivider hc,
    hseparator, hmark]

theorem not_mem_of_isDivider (hc : isDivider c = true) {s : Text}
    (hs : s.all (fun a => !isDivider a) = true) : c ∉ s := by
  intro hmem
  have hother := List.all_eq_true.1 hs c hmem
  rw [hc] at hother
  exact absurd hother (by decide)

theorem not_mem_opener_of_isDivider (hc : isDivider c = true) (d : Dialect) : c ∉ d.opener :=
  not_mem_of_isDivider hc (by cases d <;> decide)

theorem not_mem_opening_of_isDivider (hc : isDivider c = true) {d : Text × Text}
    (hd : d ∈ mathDelimiters) : c ∉ d.1 := by
  have hother : mathDelimiters.all (fun d => d.1.all fun a => !isDivider a) = true := by decide
  exact not_mem_of_isDivider hc (List.all_eq_true.1 hother d hd)

end Divider

/-! ### Reading up to a divider -/

/-- A text without `c` that begins what stands before a `c` or goes on beyond it does not go
on beyond it. -/
theorem exists_append_of_append_cons {c : Char} {u s r b : Text} (hu : c ∉ u)
    (h : u ++ r = s ++ c :: b) : ∃ v, s = u ++ v ∧ r = v ++ c :: b := by
  rcases List.append_eq_append_iff.1 h with ⟨v, rfl, hr⟩ | ⟨v, rfl, hr⟩
  · exact ⟨v, rfl, hr⟩
  · cases v with
    | nil => exact ⟨[], by simp, hr.symm⟩
    | cons d v =>
        obtain ⟨rfl, -⟩ := List.cons.inj hr
        exact absurd (by simp) hu

/-- What `read?` reads has no `c` in it, and is read there whatever comes after it. -/
def ReadsWithout {α : Type} (c : Char) (read? : Text → Option (α × Text)) : Prop :=
  ∀ s a r, read? s = some (a, r) →
    ∃ u, s = u ++ r ∧ c ∉ u ∧ ∀ r', read? (u ++ r') = some (a, r')

theorem ReadsWithout.suffix {α : Type} {c : Char} {read? : Text → Option (α × Text)}
    (h : ReadsWithout c read?) {s r : Text} {a : α} (hs : read? s = some (a, r)) : r <:+ s := by
  obtain ⟨u, hu, -⟩ := h s a r hs
  exact ⟨u, hu.symm⟩

/-- Before a `c` the same is read as if the text ended there. -/
theorem ReadsWithout.read?_append {α : Type} {c : Char} {read? : Text → Option (α × Text)}
    (h : ReadsWithout c read?) (s b : Text) :
    read? (s ++ c :: b) = (read? s).map fun x => (x.1, x.2 ++ c :: b) := by
  cases hs : read? s with
  | some x =>
      obtain ⟨u, rfl, -, hall⟩ := h s x.1 x.2 hs
      rw [List.append_assoc, hall]
      rfl
  | none =>
      cases hlong : read? (s ++ c :: b) with
      | none => rfl
      | some x =>
          -- What is read does not reach `c`, so it could be read without what comes then.
          obtain ⟨u, hu, hc, hall⟩ := h _ x.1 x.2 hlong
          obtain ⟨v, rfl, -⟩ := exists_append_of_append_cons hc hu.symm
          rw [hall] at hs
          exact absurd hs (by simp)

theorem readsWithout_block? (d : Dialect) {c : Char} (hc : isDivider c = true) :
    ReadsWithout c (block? d) := by
  intro s e r h
  obtain ⟨hblock, hdepth⟩ := (block?_eq_some_iff d s r e).1 h
  obtain ⟨u, rfl, hchars, hall⟩ := hblock.exists_body
  refine ⟨d.opener ++ (u ++ ['}']), by simp, ?_, ?_⟩
  · have hbody : c ∉ u := by
      intro hmem
      have hformula := hchars c hmem
      rw [isFormulaChar_of_isDivider hc] at hformula
      exact absurd hformula (by decide)
    have hclose : c ≠ '}' := ne_of_isDivider hc (by decide)
    simp [not_mem_opener_of_isDivider hc, hbody, hclose]
  · intro r'
    rw [block?_eq_some_iff]
    exact ⟨by simpa using hall r', hdepth⟩

theorem readsWithout_bracedName? {c : Char} (hc : isDivider c = true) :
    ReadsWithout c bracedName? := by
  intro s n r h
  obtain ⟨t, rfl, ht⟩ := (bracedName?_eq_some_iff s n r).1 h
  have hn := isName_of_name? ht
  refine ⟨'{' :: (n ++ ['}']), ?_, ?_, ?_⟩
  · rw [← append_eq_of_name? ht]
    simp
  · have hopen : c ≠ '{' := ne_of_isDivider hc (by decide)
    have hclose : c ≠ '}' := ne_of_isDivider hc (by decide)
    simp [hn.not_mem (isNameChar_of_isDivider hc), hopen, hclose]
  · intro r'
    simpa using bracedName?_append (r := r') hn

/-- No math is opened in the text. -/
def OpensNoMath (s : Text) : Prop := ∀ d ∈ mathDelimiters, ¬ d.1 <:+: s

instance (s : Text) : Decidable (OpensNoMath s) := by
  unfold OpensNoMath
  infer_instance

theorem OpensNoMath.of_suffix {s r : Text} (hs : OpensNoMath s) (h : r <:+ s) :
    OpensNoMath r :=
  fun d hd hopen => hs d hd (hopen.trans h.isInfix)

theorem OpensNoMath.mathSpan?_eq_none {s : Text} (hs : OpensNoMath s) : mathSpan? s = none := by
  rw [mathSpan?_eq_none_iff]
  rintro d hd t rfl
  exact absurd (List.prefix_append d.1 t).isInfix (hs d hd)

/-- No math begins before a divider, if none is opened there. -/
theorem OpensNoMath.mathSpan?_append {c : Char} (hc : isDivider c = true) {s : Text}
    (hs : OpensNoMath s) (b : Text) : mathSpan? (s ++ c :: b) = none := by
  rw [mathSpan?_eq_none_iff]
  intro d hd t ht
  obtain ⟨v, rfl, -⟩ :=
    exists_append_of_append_cons (not_mem_opening_of_isDivider hc hd) ht.symm
  exact absurd (List.prefix_append d.1 v).isInfix (hs d hd)

/-! ### The parts of a divided document -/

section Parts

variable {c : Char} (hc : isDivider c = true)
include hc

theorem fpSegments_divided (a b : Text) :
    fpSegments (a ++ c :: b) = fpSegments a ++ .copied [c] :: fpSegments b := by
  have hread := (readsWithout_block? .fp hc).read?_append
  induction a using fpDocument_induction with
  | nil =>
      have hnone : block? .fp (c :: b) = none := hread [] b
      rw [List.nil_append, fpSegments_of_none hnone, fpSegments_nil, List.nil_append]
  | @block s r e hblock ih =>
      have hlong : block? .fp (s ++ c :: b) = some (e, r ++ c :: b) := by
        rw [hread, hblock, Option.map_some]
      rw [fpSegments_of_block hlong, fpSegments_of_block hblock, ih, List.cons_append]
  | @char x t hblock ih =>
      have hlong : block? .fp (x :: (t ++ c :: b)) = none := by
        rw [← List.cons_append, hread, hblock, Option.map_none]
      rw [List.cons_append, fpSegments_of_none hlong, fpSegments_of_none hblock, ih,
        List.cons_append]

/-- If no math is opened before a divider, the scan finds the same as if the document ended
there, and goes on after it. -/
theorem scan_divided {a : Text} (ha : OpensNoMath a) (b : Text) :
    scan (a ++ c :: b) = scan a ++ .copied [c] :: scan b := by
  have hblock := (readsWithout_block? .moodle hc).read?_append
  have hname := (readsWithout_bracedName? hc).read?_append
  have hmath := ha.mathSpan?_append hc b
  fun_induction scan a with
  | case1 => exact scan_of_none hmath (hblock [] b) (hname [] b)
  | case2 x t a r hspan _ =>
      rw [ha.mathSpan?_eq_none] at hspan
      exact absurd hspan (by simp)
  | case3 x t _ e r hread ih =>
      have hr := ha.of_suffix ((readsWithout_block? .moodle hc).suffix hread)
      have hlong : block? .moodle (x :: t ++ c :: b) = some (e, r ++ c :: b) := by
        rw [hblock, hread, Option.map_some]
      rw [scan_of_block hmath hlong, ih hr (hr.mathSpan?_append hc b), List.cons_append]
  | case4 x t _ hread n r hn ih =>
      have hr := ha.of_suffix ((readsWithout_bracedName? hc).suffix hn)
      have hnone : block? .moodle (x :: t ++ c :: b) = none := by
        rw [hblock, hread, Option.map_none]
      have hlong : bracedName? (x :: t ++ c :: b) = some (n, r ++ c :: b) := by
        rw [hname, hn, Option.map_some]
      rw [scan_of_wildcard hmath hnone hlong, ih hr (hr.mathSpan?_append hc b),
        List.cons_append]
  | case5 x t _ hread hn ih =>
      have ht := ha.of_suffix (List.suffix_cons x t)
      have hnone : block? .moodle (x :: t ++ c :: b) = none := by
        rw [hblock, hread, Option.map_none]
      have hnoName : bracedName? (x :: t ++ c :: b) = none := by
        rw [hname, hn, Option.map_none]
      rw [List.cons_append] at hmath hnone hnoName ⊢
      rw [scan_of_none hmath hnone hnoName, ih ht (ht.mathSpan?_append hc b), List.cons_append]

theorem translateToMoodle_divided (a b : Text) :
    translateToMoodle (a ++ c :: b) =
      { text := (translateToMoodle a).text ++ c :: (translateToMoodle b).text
        diagnostics := (translateToMoodle a).diagnostics ++ (translateToMoodle b).diagnostics
        wildcards := (translateToMoodle a).wildcards ++ (translateToMoodle b).wildcards } := by
  simp only [translateToMoodle, fpSegments_divided hc, assemble_append, assemble_cons,
    foundValues_append, foundValues_cons_copied, List.flatMap_append, Segment.text,
    List.singleton_append]

theorem text_translateToFp_divided (o : Options) {a : Text} (ha : OpensNoMath a) (b : Text) :
    (translateToFp o (a ++ c :: b)).text =
      (translateToFp o a).text ++ c :: (translateToFp o b).text := by
  simp only [translateToFp_eq, scan_divided hc ha, assemble_append, assemble_cons,
    Segment.text, List.singleton_append]

/-- The reports on the blocks of both parts come before those on wildcards outside of blocks. -/
theorem diagnostics_translateToFp_divided (o : Options) {a : Text} (ha : OpensNoMath a)
    (b : Text) :
    (translateToFp o (a ++ c :: b)).diagnostics.Perm
      ((translateToFp o a).diagnostics ++ (translateToFp o b).diagnostics) := by
  have hblocks : moodleBlocks (a ++ c :: b) = moodleBlocks a ++ moodleBlocks b := by
    simp only [moodleBlocks, scan_divided hc ha, foundValues_append, foundValues_cons_copied,
      List.filterMap_append]
  have hloose : looseWildcards (a ++ c :: b) = looseWildcards a ++ looseWildcards b := by
    simp only [looseWildcards, scan_divided hc ha, foundValues_append, foundValues_cons_copied,
      List.filterMap_append]
  simp only [translateToFp_eq, hblocks, hloose, List.flatMap_append]
  exact perm_append_four _ _ _ _

end Parts

theorem Wildcards.insertAll_append (w : Wildcards) (ms ns : List Text) :
    w.insertAll (ms ++ ns) = (w.insertAll ms).insertAll ns :=
  List.foldl_append

namespace Translator

/-- A document that is divided by a character can be translated part by part. Going to Moodle,
the translator remembers the same as if the parts had been rendered in turn; going to `fp`,
the diagnostics come in another order, and no math may be opened before the divider. -/
theorem render_divided (t : Translator) {c : Char} (hc : isDivider c = true) (a b : Text) :
    (t.job = .toMoodle →
      (t.render (a ++ c :: b)).1.text =
        (t.render a).1.text ++ c :: ((t.render a).2.render b).1.text ∧
      (t.render (a ++ c :: b)).2 = ((t.render a).2.render b).2 ∧
      (t.render (a ++ c :: b)).1.log =
        (t.render a).1.log ++ ((t.render a).2.render b).1.log ∧
      ∀ n, n ∈ (t.render (a ++ c :: b)).2.wildcards.names ↔
        n ∈ (t.render a).2.wildcards.names ∨ n ∈ (t.render b).2.wildcards.names) ∧
    ∀ o, t.job = .toFp o → OpensNoMath a →
      (t.render (a ++ c :: b)).1.text =
        (t.render a).1.text ++ c :: ((t.render a).2.render b).1.text ∧
      (t.render (a ++ c :: b)).2.diagnostics.Perm
        ((t.render a).2.render b).2.diagnostics := by
  constructor
  · intro hjob
    have hwhole := translateToMoodle_divided hc a b
    refine ⟨?_, ?_, ?_, ?_⟩
    · simp only [render, remember, hjob, Job.translate, hwhole]
    · simp only [render, remember, hjob, Job.translate, hwhole, Wildcards.insertAll_append,
        List.append_assoc]
    · simp only [render, remember, hjob, Job.translate, hwhole, List.map_append]
    · intro n
      simp only [mem_wildcards_render, hjob, Job.translate, hwhole, List.mem_append]
      tauto
  · intro o hjob ha
    constructor
    · simp only [render, remember, hjob, Job.translate, text_translateToFp_divided hc o ha]
    · simp only [diagnostics_render, job_render, hjob, Job.translate, List.append_assoc]
      exact (diagnostics_translateToFp_divided hc o ha b).append_left _

/-- Neither part is a block, although the first one opens a block and the second one ends it. -/
theorem render_divided_semicolon :
    isDivider ';' = true ∧ OpensNoMath r"{=1+".toList ∧
      ((new .toMoodle).render (r"fp{1+".toList ++ ';' :: r"x} fp{y}".toList)).1.text =
        ((new .toMoodle).render r"fp{1+".toList).1.text ++ ';' ::
          (((new .toMoodle).render r"fp{1+".toList).2.render
            r"x} fp{y}".toList).1.text ∧
      ((new (.toFp .default)).render (r"{=1+".toList ++ ';' :: r"{x}}".toList)).1.text =
        ((new (.toFp .default)).render r"{=1+".toList).1.text ++ ';' ::
          (((new (.toFp .default)).render r"{=1+".toList).2.render
            r"{x}}".toList).1.text := by
  have hc : isDivider ';' = true := by decide
  have ha : OpensNoMath r"{=1+".toList := by decide
  exact ⟨hc, ha, ((render_divided (new .toMoodle) hc _ _).1 rfl).1,
    ((render_divided (new (.toFp .default)) hc _ _).2 .default rfl ha).1⟩

end Translator

end QuizFormula

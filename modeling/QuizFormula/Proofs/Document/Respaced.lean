import QuizFormula.Proofs.Document.Settled
import QuizFormula.Proofs.Grammar.Spacing

/-!
# Documents with other blanks in their blocks

`Respaced d s s'` says that the document `s'` is `s` with other blanks between the tokens of
the blocks that are found in `s`. Then the same is found in both, and all that a translator
does with them is the same (`Translator.render_respaced`). Where nothing is found in `s`,
nothing is found in `s'` either: a block that began there would have to reach over the
opener of a respaced block, which has a character that no formula has, and no delimiter of
math stands in a block or at its ends.
-/

namespace QuizFormula

/-- The document `s'` is `s` with other blanks between the tokens of the blocks that are
found in it. Math is found in Moodle documents only, and kept. -/
inductive Respaced (d : Dialect) : Text → Text → Prop
  | nil : Respaced d [] []
  | math {a s s' : Text} (hd : d = .moodle) (h : mathSpan? (a ++ s) = some (a, s))
      (hs : Respaced d s s') : Respaced d (a ++ s) (a ++ s')
  | block {e : Expr} {u u' s s' : Text} (h : block? d (u ++ s) = some (e, s))
      (hu : Spaced (e.blockTokens d) u') (hs : Respaced d s s') :
      Respaced d (u ++ s) (d.opener ++ (u' ++ s'))
  | char {c : Char} {s s' : Text} (hmath : d = .moodle → mathSpan? (c :: s) = none)
      (hblock : block? d (c :: s) = none) (hs : Respaced d s s') :
      Respaced d (c :: s) (c :: s')

/-! ### The characters of a block -/

section

variable {d : Dialect}

/-- No formula has a character that begins a delimiter of math. -/
theorem isFormulaChar_eq_false_of_first {q : Char} (hq : q = '$' ∨ q = '\\') :
    isFormulaChar d.wildcardStyle q = false := by
  cases d <;> rcases hq with rfl | rfl <;> decide

/-- A block that is respaced ends in a brace and has characters of formulas before. -/
theorem Spaced.exists_body {e : Expr} {u : Text} (he : e.WellFormed)
    (hu : Spaced (e.blockTokens d) u) :
    ∃ v, u = v ++ ['}'] ∧ ∀ c ∈ v, isFormulaChar d.wildcardStyle c = true := by
  obtain ⟨v, hv, hchars, -⟩ := (BlockAt.of_spaced he hu []).exists_body
  refine ⟨v, ?_, hchars⟩
  rw [List.append_nil] at hv
  exact List.append_cancel_left hv

theorem not_mem_block {v : Text} (hv : ∀ c ∈ v, isFormulaChar d.wildcardStyle c = true)
    {q : Char} (hq : q = '$' ∨ q = '\\') : q ∉ d.opener ++ (v ++ ['}']) := by
  have hother : q ∉ d.opener ∧ q ≠ '}' := by
    cases d <;> rcases hq with rfl | rfl <;> decide
  have hformula : q ∉ v := by
    intro hmem
    have hchar := hv q hmem
    rw [isFormulaChar_eq_false_of_first hq] at hchar
    exact absurd hchar (by decide)
  simp [hother.1, hother.2, hformula]

theorem Spaced.not_mem_block {e : Expr} {u : Text} (he : e.WellFormed)
    (hu : Spaced (e.blockTokens d) u) {q : Char} (hq : q = '$' ∨ q = '\\') :
    q ∉ d.opener ++ u := by
  obtain ⟨v, rfl, hv⟩ := hu.exists_body he
  exact QuizFormula.not_mem_block hv hq

/-- The opener begins neither in itself nor in the rest of a block. -/
theorem lacks_body {v : Text} (hv : ∀ c ∈ v, isFormulaChar d.wildcardStyle c = true) :
    Lacks d.opener (d.opener.tail ++ (v ++ ['}'])) := by
  cases d with
  | moodle =>
      have hmark : '=' ∉ v := fun hmem => absurd (hv '=' hmem) (by decide)
      refine lacks_append (by decide) ?_
      exact lacks_append_singleton (a := '=') (by decide) hmark (by decide)
  | fp =>
      have hmark : '{' ∉ v := fun hmem => absurd (hv '{' hmem) (by decide)
      refine lacks_append (by decide) ?_
      exact lacks_append_singleton (a := '{') (by decide) hmark (by decide)

end

/-! ### Where nothing is found -/

namespace Respaced

variable {d : Dialect} {s s' : Text}

theorem head?_eq (h : Respaced d s s') : s'.head? = s.head? := by
  cases h with
  | nil => rfl
  | @math a s s' hd hmath hs =>
      obtain ⟨p, hp, x, rfl, -⟩ := exists_eq_of_mathSpan? hmath
      obtain ⟨q, o, k, hopen, -⟩ := exists_isDelimiter hp
      rw [hopen.pair]
      rfl
  | block hblock hu hs =>
      obtain ⟨-, -, v, hv, -⟩ := (block?_eq_some_iff_spaced d _ _ _).1 hblock
      rw [hv]
      cases d <;> rfl
  | char => rfl

/-- A pair of characters stands after a text that lacks the first of them. -/
theorem infix_of_infix_append {q k : Char} {a y : Text} (ha : q ∉ a) (h : [q, k] <:+: a ++ y) :
    [q, k] <:+: y := by
  induction a with
  | nil => exact h
  | cons c a ih =>
      rw [List.mem_cons, not_or] at ha
      rw [List.cons_append, List.infix_cons_iff] at h
      rcases h with h | h
      · exact absurd (List.cons_prefix_cons.1 h).1 ha.1
      · exact ih ha.2 h

/-- No delimiter is in the respaced document only. -/
theorem isInfix {p : Text} {q k : Char} (hp : IsDelimiter p q k) (h : Respaced d s s')
    (hs : p <:+: s') : p <:+: s := by
  rw [hp.pair] at hs ⊢
  induction h with
  | nil => exact hs
  | math hd hmath h ih =>
      exact Copies.infix_append_of_infix (fun hk => h.head?_eq ▸ hk) ih hs
  | @block e u u' s s' hblock hu h ih =>
      have hbare := hu.not_mem_block (wellFormed_of_block? hblock) hp.first
      rw [← List.append_assoc] at hs
      exact (ih (infix_of_infix_append hbare hs)).trans (List.suffix_append u s).isInfix
  | @char c s s' hmath hblock h ih =>
      exact Copies.infix_append_of_infix (a := [c]) (fun hk => h.head?_eq ▸ hk) ih hs

/-- What comes after the first character has no delimiter in the respaced document
only. -/
theorem isInfix_tail {p : Text} {q k c : Char} {t t' : Text} (hp : IsDelimiter p q k)
    (h : Respaced d (c :: t) (c :: t')) (ht : p <:+: t') : p <:+: t := by
  generalize hs : c :: t = s at h
  generalize hs' : c :: t' = s' at h
  cases h with
  | nil => exact absurd hs (List.cons_ne_nil c t)
  | @math a s s' hd hmath h =>
      cases a with
      | nil => exact absurd (length_lt_of_mathSpan? hmath) (Nat.lt_irrefl _)
      | cons b a =>
          obtain ⟨-, rfl⟩ := List.cons.inj hs
          obtain ⟨-, rfl⟩ := List.cons.inj hs'
          rw [hp.pair] at ht ⊢
          refine Copies.infix_append_of_infix (fun hk => h.head?_eq ▸ hk) ?_ ht
          intro hpair
          rw [← hp.pair] at hpair ⊢
          exact h.isInfix hp hpair
  | @block e u u' s s' hblock hu h =>
      have hbare := hu.not_mem_block (wellFormed_of_block? hblock) hp.first
      rw [← List.append_assoc] at hs'
      have htail : p <:+: s' := by
        rw [hp.pair] at ht ⊢
        refine infix_of_infix_append hbare ?_
        rw [← hs']
        exact ht.trans (List.suffix_cons c t').isInfix
      have hsuffix : s <:+ c :: t := hs ▸ List.suffix_append u s
      have hne : s ≠ c :: t := by
        rintro rfl
        rw [← hs] at hblock
        exact absurd (length_lt_of_block? hblock) (Nat.lt_irrefl _)
      rcases List.suffix_cons_iff.1 hsuffix with heq | hsuffix
      · exact absurd heq hne
      · exact (h.isInfix hp htail).trans hsuffix.isInfix
  | char hmath hblock h =>
      obtain ⟨-, rfl⟩ := List.cons.inj hs
      obtain ⟨-, rfl⟩ := List.cons.inj hs'
      exact h.isInfix hp ht

/-- No math begins where a character is copied. -/
theorem mathSpan?_cons {c : Char} (h : Respaced d s s') (hnone : mathSpan? (c :: s) = none) :
    mathSpan? (c :: s') = none := by
  rw [mathSpan?_eq_none_iff] at hnone ⊢
  intro p hp u hu hclose
  obtain ⟨q, o, k, hopen, hend⟩ := exists_isDelimiter hp
  rw [hopen.pair] at hu
  obtain ⟨rfl, hs'⟩ : c = q ∧ s' = o :: u := List.cons.inj hu
  subst hs'
  obtain ⟨w, rfl⟩ := List.head?_eq_some_iff.1 h.head?_eq.symm
  refine hnone p hp w ?_ (h.isInfix_tail hend hclose)
  rw [hopen.pair]
  rfl

/-- What stands in the respaced document up to a place where neither a block nor math has
begun stands in the document. -/
theorem exists_append {w r t : Text} (hlacks : Lacks d.opener w)
    (hmarks : ∀ c ∈ w, c ≠ '$' ∧ c ≠ '\\') (h : Respaced d t (w ++ r)) : ∃ r', t = w ++ r' := by
  induction w generalizing t with
  | nil => exact ⟨t, rfl⟩
  | cons c w ih =>
      obtain ⟨hc, hmarks⟩ := List.forall_mem_cons.1 hmarks
      generalize hz : c :: w ++ r = z at h
      cases h with
      | nil => exact absurd hz (List.cons_ne_nil _ _)
      | @math a s s' hd hmath h =>
          obtain ⟨p, hp, x, rfl, -⟩ := exists_eq_of_mathSpan? hmath
          obtain ⟨q, o, k, hopen, -⟩ := exists_isDelimiter hp
          rw [hopen.pair] at hz
          obtain ⟨rfl, -⟩ := List.cons.inj hz
          exact absurd hopen.first (by simp [hc.1, hc.2])
      | block hblock hu h =>
          exact absurd ⟨_, hz.symm⟩ (not_prefix_of_lacks hlacks r)
      | char hmath hblock h =>
          obtain ⟨rfl, rfl⟩ := List.cons.inj hz
          obtain ⟨r', rfl⟩ := ih ((lacks_cons c w).1 hlacks).2.2 hmarks h
          exact ⟨r', rfl⟩

/-- No block begins where a character is copied. -/
theorem block?_cons {c : Char} (h : Respaced d s s') (hnone : block? d (c :: s) = none) :
    block? d (c :: s') = none := by
  cases hread : block? d (c :: s') with
  | none => rfl
  | some x =>
      obtain ⟨hblock, hdepth⟩ := (block?_eq_some_iff d _ x.2 x.1).1 hread
      obtain ⟨v, hv, hchars, hall⟩ := hblock.exists_body
      have hopener : d.opener = c :: d.opener.tail := by
        cases d with
        | moodle =>
            obtain rfl : c = '{' := (List.cons.inj hv).1
            rfl
        | fp =>
            obtain rfl : c = 'f' := (List.cons.inj hv).1
            rfl
      have hbody : s' = (d.opener.tail ++ (v ++ ['}'])) ++ x.2 := by
        rw [hopener] at hv
        simpa using (List.cons.inj hv).2
      have hmarks : ∀ a ∈ d.opener.tail ++ (v ++ ['}']), a ≠ '$' ∧ a ≠ '\\' := by
        intro a ha
        have hmem : a ∈ d.opener ++ (v ++ ['}']) := by
          rw [hopener]
          exact List.mem_cons_of_mem c ha
        constructor
        · rintro rfl
          exact not_mem_block hchars (.inl rfl) hmem
        · rintro rfl
          exact not_mem_block hchars (.inr rfl) hmem
      obtain ⟨r', rfl⟩ := exists_append (lacks_body hchars) hmarks (hbody ▸ h)
      have hsome := (block?_eq_some_iff d _ r' x.1).2 ⟨hall r', hdepth⟩
      rw [hopener] at hsome
      exact absurd (hnone.symm.trans (by simpa using hsome)) (by simp)

/-! ### The same is found -/

theorem moodleSegments_eq (h : Respaced .moodle s s') : moodleSegments s' = moodleSegments s := by
  induction h with
  | nil => rfl
  | math hd hmath h ih =>
      rw [moodleSegments_of_math hmath, moodleSegments_of_math (mathSpan?_append hmath _), ih]
  | block hblock hu h ih =>
      have hrespaced := block?_of_spaced hblock hu
      rw [moodleSegments_of_block (mathSpan?_of_block? hblock) hblock,
        moodleSegments_of_block (mathSpan?_of_block? (hrespaced _)) (hrespaced _), ih]
  | char hmath hblock h ih =>
      rw [moodleSegments_of_none (hmath rfl) hblock,
        moodleSegments_of_none (h.mathSpan?_cons (hmath rfl)) (h.block?_cons hblock), ih]

theorem fpSegments_eq (h : Respaced .fp s s') : fpSegments s' = fpSegments s := by
  induction h with
  | nil => rfl
  | math hd => nomatch hd
  | block hblock hu h ih =>
      rw [fpSegments_of_block hblock, fpSegments_of_block (block?_of_spaced hblock hu _), ih]
  | char hmath hblock h ih =>
      rw [fpSegments_of_none hblock, fpSegments_of_none (h.block?_cons hblock), ih]

theorem translate_eq {j : Job} (h : Respaced j.direction.source s s') :
    j.translate s' = j.translate s := by
  cases j with
  | toFp o => simp only [Job.translate, translateToFp, translateBlocks, h.moodleSegments_eq]
  | toMoodle => simp only [Job.translate, translateToMoodle, h.fpSegments_eq]

theorem block_spaced {r r' u : Text} {e : Expr} (h : block? d s = some (e, r))
    (hu : Spaced (e.blockTokens d) u) (hr : Respaced d r r') :
    Respaced d s (d.opener ++ (u ++ r')) := by
  obtain ⟨-, -, v, rfl, -⟩ := (block?_eq_some_iff_spaced d s r e).1 h
  have hblock : block? d ((d.opener ++ v) ++ r) = some (e, r) := by rwa [List.append_assoc]
  simpa only [List.append_assoc] using Respaced.block hblock hu hr

theorem block_self {r : Text} {e : Expr} (h : block? d s = some (e, r)) (hr : Respaced d r r) :
    Respaced d s s := by
  obtain ⟨-, -, u, rfl, hu⟩ := (block?_eq_some_iff_spaced d s r e).1 h
  exact block_spaced h hu hr

/-- The blocks of a document may keep their blanks. -/
theorem refl (d : Dialect) (s : Text) : Respaced d s s := by
  cases d with
  | moodle =>
      induction s using document_induction with
      | nil => exact .nil
      | math hmath ih =>
          obtain rfl := append_eq_of_mathSpan? hmath
          exact .math rfl hmath ih
      | block _ hblock ih => exact block_self hblock ih
      | char hmath hblock ih => exact .char (fun _ => hmath) hblock ih
  | fp =>
      induction s using fpDocument_induction with
      | nil => exact .nil
      | block hblock ih => exact block_self hblock ih
      | char hblock ih => exact .char (fun h => nomatch h) hblock ih

end Respaced

/-! ### What is written for Moodle -/

/-- Whether the character is an ASCII character that is no blank and no control
character. -/
def isVisible (c : Char) : Bool := '!'.toNat ≤ c.toNat && c.toNat ≤ '~'.toNat

def Visible (t : Text) : Prop := ∀ c ∈ t, isVisible c = true

theorem visible_iff (t : Text) : Visible t ↔ t.all isVisible = true := by
  rw [Visible, List.all_eq_true]

instance (t : Text) : Decidable (Visible t) := decidable_of_iff _ (visible_iff t).symm

/-- Letters and digits lie between the first and the last visible character. -/
theorem isVisible_of_isAlphanum {c : Char} (h : c.isAlphanum = true) : isVisible c = true := by
  obtain ⟨hlow, hhigh⟩ := toNat_of_isAlphanum h
  rw [isVisible, Bool.and_eq_true, decide_eq_true_iff, decide_eq_true_iff]
  exact ⟨Nat.le_trans (by decide) hlow, Nat.le_trans hhigh (by decide)⟩

theorem visible_of_isName {n : Text} (hn : IsName n) : Visible n := by
  intro c hc
  have hname := hn.isNameChar c hc
  rw [isNameChar, Bool.or_eq_true, decide_eq_true_eq] at hname
  rcases hname with h | rfl
  · exact isVisible_of_isAlphanum h
  · decide

theorem visible_of_isNumber {l : Text} (hl : IsNumber l) : Visible l := by
  intro c hc
  rcases hl.mem hc with h | h
  · exact isVisible_of_isAlphanum (by simp [Char.isAlphanum, h])
  · simp only [List.mem_cons, List.not_mem_nil, or_false] at h
    rcases h with rfl | rfl | rfl | rfl | rfl <;> decide

theorem Visible.append {l r : Text} (hl : Visible l) (hr : Visible r) : Visible (l ++ r) :=
  List.forall_mem_append.2 ⟨hl, hr⟩

theorem Moodle.visible_block {e : Expr} (he : e.WellFormed) : Visible (block e) := by
  have hcomposed : Composed Visible :=
    { nil := fun c hc => absurd hc List.not_mem_nil
      separator := forall_mem_separators (by decide)
      append := Visible.append }
  have hpreserves : rendering.Preserves Visible := by
    apply preserves hcomposed
    · exact fun l hl => visible_of_isNumber hl
    · exact fun n hn => (visible_of_isName hn).append (by decide)
    · exact fun n hn => Visible.append (l := ['{']) (by decide)
        ((visible_of_isName hn).append (by decide))
  have hopening : Visible Dialect.moodle.opener := by decide
  have hclosing : Visible ['}'] := by decide
  exact hopening.append ((hpreserves.render he).append hclosing)

/-! ### Rendering -/

namespace Translator

theorem render_eq_of_respaced (t : Translator) {s s' : Text}
    (h : Respaced t.direction.source s s') : t.render s' = t.render s := by
  have htranslate : t.job.translate s' = t.job.translate s := Respaced.translate_eq h
  simp only [render, htranslate]

theorem text_render_of_block (t : Translator) (hjob : t.job = .toMoodle) {s r : Text} {e : Expr}
    (h : block? .fp s = some (e, r)) :
    (t.render s).1.text = Moodle.block e ++ (t.render r).1.text := by
  rw [text_render, text_render, hjob, Job.translate, translateToMoodle, translateToMoodle,
    fpSegments_of_block h, assemble_cons]
  rfl

/-- Blanks between the tokens of a block do not matter. A block is its tokens with blanks
between them, and with any other blanks it is a block of the same formula, whatever comes
after it. However many blocks of a document are changed in this way, rendering yields the
same text and the same log, and leaves the same translator. What is written for Moodle in
place of a block has no blank at all. -/
theorem render_respaced (t : Translator) :
    (∀ s r e, block? t.direction.source s = some (e, r) →
      ∃ u, s = t.direction.source.opener ++ (u ++ r) ∧
        Spaced (e.blockTokens t.direction.source) u ∧
        ∀ u', Spaced (e.blockTokens t.direction.source) u' →
          (∀ r', block? t.direction.source (t.direction.source.opener ++ (u' ++ r')) =
            some (e, r')) ∧
          t.render (t.direction.source.opener ++ (u' ++ r)) = t.render s) ∧
    (∀ s s', Respaced t.direction.source s s' → t.render s' = t.render s) ∧
    (t.job = .toMoodle → ∀ s r e, block? .fp s = some (e, r) →
      (t.render s).1.text = Moodle.block e ++ (t.render r).1.text ∧
        Visible (Moodle.block e)) := by
  refine ⟨?_, fun s s' h => t.render_eq_of_respaced h, ?_⟩
  · intro s r e h
    obtain ⟨-, -, u, hs, hu⟩ := (block?_eq_some_iff_spaced _ s r e).1 h
    refine ⟨u, hs, hu, fun u' hu' => ⟨block?_of_spaced h hu', ?_⟩⟩
    exact t.render_eq_of_respaced (.block_spaced h hu' (.refl _ r))
  · intro hjob s r e h
    exact ⟨t.text_render_of_block hjob h, Moodle.visible_block (wellFormed_of_block? h)⟩

/-- The two minus signs stay two tokens when the blank between them is left out. -/
theorem render_respaced_minus :
    (new .toMoodle).render r"fp{1--2}".toList =
        (new .toMoodle).render r"fp{1 - -2}".toList ∧
      Visible (Moodle.block (.chain (.number ['1']) .sub (.last (.number ['-', '2'])))) := by
  have hread : block? .fp r"fp{1 - -2}".toList =
      some (.chain (.number ['1']) .sub (.last (.number ['-', '2'])), []) := by
    decide +kernel
  have hspaced : Spaced [['1'], ['-'], ['-', '2'], ['}']] r"1--2}".toList :=
    .cons blank_nil (.cons blank_nil (.cons blank_nil (.singleton blank_nil _)))
  obtain ⟨hblock, -, hvisible⟩ := render_respaced (new .toMoodle)
  obtain ⟨u, -, -, hall⟩ := hblock _ _ _ hread
  exact ⟨(hall _ hspaced).2, (hvisible rfl _ _ _ hread).2⟩

end Translator

end QuizFormula

import QuizFormula.Proofs.Grammar.Block

/-!
# Where the items of a formula are complete

The items of a formula are its numbers, wildcards and calls. `FormulaReads w e s r l` says
that reading the formula `e` from `s` to `r` completes the items `l`, each where the text
beside it is left. The rules are those of the grammar. A number or a wildcard is complete
when it has been read, a call when its closing parenthesis has been read. The items are
complete one after the other (`FormulaReads.inOrder`), and a survey of the formula notes
them in this order (`FormulaReads.items_eq`).
-/

namespace QuizFormula

/-- A number, a wildcard or a call, without its arguments. -/
inductive Item where
  | number (literal : Text)
  | wildcard (name : Text)
  | call (name : Text) (arity : Nat)
deriving DecidableEq, Repr

def itemSurvey : Survey Item where
  number l := [.number l]
  wildcard n := [.wildcard n]
  call n arity := [.call n arity]

def Expr.items (e : Expr) : List Item := e.survey itemSurvey

/-- An item and the text that is left where it is complete. -/
structure Completed where
  item : Item
  rest : Text

def Completed.Before (c c' : Completed) : Prop := c'.rest.length < c.rest.length

/-- The items are complete one after the other, while the text `s` is read up to `r`. -/
structure InOrder (s r : Text) (l : List Completed) : Prop where
  suffix : r <:+ s
  between : ∀ c ∈ l, r <:+ c.rest ∧ c.rest <:+ s ∧ c.rest.length < s.length
  pairwise : l.Pairwise Completed.Before

namespace InOrder

variable {s t r : Text} {l m : List Completed}

theorem nil (h : r <:+ s) : InOrder s r [] :=
  ⟨h, fun _ hc => absurd hc List.not_mem_nil, .nil⟩

theorem singleton {u : Text} (hu : u ≠ []) (hs : s = u ++ r) (x : Item) :
    InOrder s r [⟨x, r⟩] := by
  subst hs
  have hsuffix := List.suffix_append u r
  have hlength : r.length < (u ++ r).length := by
    have hpos := List.length_pos_iff.2 hu
    rw [List.length_append]
    omega
  refine ⟨hsuffix, ?_, List.pairwise_singleton _ _⟩
  rintro c hc
  rw [List.mem_singleton.1 hc]
  exact ⟨List.suffix_rfl, hsuffix, hlength⟩

theorem append (hl : InOrder s t l) (hm : InOrder t r m) : InOrder s r (l ++ m) := by
  refine ⟨hm.suffix.trans hl.suffix, ?_, ?_⟩
  · intro c hc
    rcases List.mem_append.1 hc with hc | hc
    · obtain ⟨hrest, hs⟩ := hl.between c hc
      exact ⟨hm.suffix.trans hrest, hs⟩
    · obtain ⟨hrest, ht, hlength⟩ := hm.between c hc
      exact ⟨hrest, ht.trans hl.suffix, hlength.trans_le hl.suffix.length_le⟩
  · refine List.pairwise_append.2 ⟨hl.pairwise, hm.pairwise, ?_⟩
    intro c hc c' hc'
    exact (hm.between c' hc').2.2.trans_le (hl.between c hc).1.length_le

theorem of_suffix (h : t <:+ s) (hl : InOrder t r l) : InOrder s r l :=
  (nil h).append hl

theorem to_suffix (hl : InOrder s t l) (h : r <:+ t) : InOrder s r l := by
  simpa using hl.append (nil h)

end InOrder

mutual

/-- Reading the formula from `s` to `r` completes the items `l`. -/
inductive FormulaReads (w : WildcardStyle) : Expr → Text → Text → List Completed → Prop
  | last {a : Atom} {s r : Text} {l : List Completed} (ha : AtomReads w a s r l) :
      FormulaReads w (.last a) s r l
  | chain {a : Atom} {op : Operator} {e : Expr} {s b t r : Text} {l m : List Completed}
      (ha : AtomReads w a s (b ++ op.char :: t) l) (hb : Blank b) (he : FormulaReads w e t r m) :
      FormulaReads w (.chain a op e) s r (l ++ m)

inductive AtomReads (w : WildcardStyle) : Atom → Text → Text → List Completed → Prop
  | number {n b r : Text} (hb : Blank b) (hn : IsNumber n) :
      AtomReads w (.number n) (b ++ (n ++ r)) r [⟨.number n, r⟩]
  | signed {a : Atom} {b s r : Text} {l : List Completed} (hb : Blank b)
      (ha : SignedReads w a s r l) : AtomReads w a (b ++ s) r l

inductive SignedReads (w : WildcardStyle) : Atom → Text → Text → List Completed → Prop
  | minus {a : Atom} {b s r : Text} {l : List Completed} (hb : Blank b)
      (ha : SignedReads w a s r l) : SignedReads w (.minus a) ('-' :: (b ++ s)) r l
  | group {e : Expr} {s b r : Text} {l : List Completed}
      (he : FormulaReads w e s (b ++ ')' :: r) l) (hb : Blank b) :
      SignedReads w (.group e) ('(' :: s) r l
  | wildcard {n s r : Text} (hn : WildcardAt w n s r) :
      SignedReads w (.wildcard n) s r [⟨.wildcard n, r⟩]
  | call {n b s r : Text} {args : Args} {l : List Completed} (hn : IsName n) (hb : Blank b)
      (hargs : ArgumentsReads w args s r l) :
      SignedReads w (.call n args) (n ++ (b ++ '(' :: s)) r
        (l ++ [⟨.call n args.length, r⟩])

inductive ArgumentsReads (w : WildcardStyle) : Args → Text → Text → List Completed → Prop
  | none {b r : Text} (hb : Blank b) : ArgumentsReads w .nil (b ++ ')' :: r) r []
  | one {e : Expr} {s b r : Text} {l : List Completed}
      (he : FormulaReads w e s (b ++ ')' :: r) l) (hb : Blank b) :
      ArgumentsReads w (.cons e .nil) s r l
  | more {e e' : Expr} {args : Args} {s b t r : Text} {l m : List Completed}
      (he : FormulaReads w e s (b ++ ',' :: t) l) (hb : Blank b)
      (hargs : ArgumentsReads w (.cons e' args) t r m) :
      ArgumentsReads w (.cons e (.cons e' args)) s r (l ++ m)

end

section

variable {w : WildcardStyle}

/-! ### Every derivation completes some items -/

theorem AtomAt.exists_reads_of_signed {a : Atom} {s r : Text}
    (hsigned : ∀ {s r : Text}, SignedAt w a s r → ∃ l, SignedReads w a s r l)
    (h : AtomAt w a s r) : ∃ l, AtomReads w a s r l := by
  cases h with
  | number hb hn => exact ⟨_, .number hb hn⟩
  | signed hb ha =>
      obtain ⟨l, hl⟩ := hsigned ha
      exact ⟨l, .signed hb hl⟩

mutual

theorem FormulaAt.exists_reads : ∀ {e : Expr} {s r : Text},
    FormulaAt w e s r → ∃ l, FormulaReads w e s r l
  | .last a, _, _, h => by
      cases h with
      | last ha =>
          obtain ⟨l, hl⟩ := ha.exists_reads_of_signed SignedAt.exists_reads
          exact ⟨l, .last hl⟩
  | .chain a op e, _, _, h => by
      cases h with
      | chain ha hb he =>
          obtain ⟨l, hl⟩ := ha.exists_reads_of_signed SignedAt.exists_reads
          obtain ⟨m, hm⟩ := he.exists_reads
          exact ⟨l ++ m, .chain hl hb hm⟩

theorem SignedAt.exists_reads : ∀ {a : Atom} {s r : Text},
    SignedAt w a s r → ∃ l, SignedReads w a s r l
  | .number _, _, _, h => nomatch h
  | .wildcard n, _, _, h => by
      cases h with
      | wildcard hn => exact ⟨_, .wildcard hn⟩
  | .group e, _, _, h => by
      cases h with
      | group he hb =>
          obtain ⟨l, hl⟩ := he.exists_reads
          exact ⟨l, .group hl hb⟩
  | .call n args, _, _, h => by
      cases h with
      | call hn hb hargs =>
          obtain ⟨l, hl⟩ := hargs.exists_reads
          exact ⟨_, .call hn hb hl⟩
  | .minus a, _, _, h => by
      cases h with
      | minus hb ha =>
          obtain ⟨l, hl⟩ := SignedAt.exists_reads (a := a) ha
          exact ⟨l, .minus hb hl⟩

theorem ArgumentsAt.exists_reads : ∀ {args : Args} {s r : Text},
    ArgumentsAt w args s r → ∃ l, ArgumentsReads w args s r l
  | .nil, _, _, h => by
      cases h with
      | none hb => exact ⟨[], .none hb⟩
  | .cons e .nil, _, _, h => by
      cases h with
      | one he hb =>
          obtain ⟨l, hl⟩ := he.exists_reads
          exact ⟨l, .one hl hb⟩
  | .cons e (.cons e' args), _, _, h => by
      cases h with
      | more he hb hargs =>
          obtain ⟨l, hl⟩ := he.exists_reads
          obtain ⟨m, hm⟩ := hargs.exists_reads
          exact ⟨l ++ m, .more hl hb hm⟩

end

/-! ### The items are those of the formula -/

theorem FormulaReads.items_eq {e : Expr} {s r : Text} {l : List Completed}
    (h : FormulaReads w e s r l) : l.map Completed.item = e.items := by
  induction h using FormulaReads.rec
    (motive_2 := fun a _ _ l _ => l.map Completed.item = a.survey itemSurvey)
    (motive_3 := fun a _ _ l _ => l.map Completed.item = a.survey itemSurvey)
    (motive_4 := fun args _ _ l _ => l.map Completed.item = args.survey itemSurvey) with
  | last _ ih => exact ih
  | chain _ _ _ iha ihe =>
      rw [List.map_append, iha, ihe]
      rfl
  | number => rfl
  | signed _ _ ih => exact ih
  | minus _ _ ih => exact ih
  | group _ _ ih => exact ih
  | wildcard => rfl
  | call _ _ _ ih =>
      rw [List.map_append, ih]
      rfl
  | none => rfl
  | one _ _ ih =>
      rw [Args.survey, Args.survey, List.append_nil]
      exact ih
  | more _ _ _ ihe ihargs =>
      rw [List.map_append, ihe, ihargs]
      rfl

/-! ### The items come one after the other -/

theorem WildcardAt.exists_append {n s r : Text} (h : WildcardAt w n s r) :
    ∃ u, u ≠ [] ∧ s = u ++ r := by
  cases h with
  | braced => exact ⟨'{' :: (n ++ ['}']), List.cons_ne_nil _ _, by simp⟩
  | bare hn => exact ⟨n, hn.ne_nil, rfl⟩
  | tex => exact ⟨'\\' :: (n ++ [' ']), List.cons_ne_nil _ _, by simp⟩
  | pi => exact ⟨'\\' :: piMacro, List.cons_ne_nil _ _, rfl⟩

theorem suffix_append_cons (b : Text) (c : Char) (t : Text) : t <:+ b ++ c :: t :=
  (List.suffix_cons c t).trans (List.suffix_append b _)

/-- The items of a formula are complete one after the other, those of the arguments of a
call before the parenthesis that closes the call. -/
theorem FormulaReads.inOrder {e : Expr} {s r : Text} {l : List Completed}
    (h : FormulaReads w e s r l) : InOrder s r l := by
  induction h using FormulaReads.rec
    (motive_2 := fun _ s r l _ => InOrder s r l)
    (motive_3 := fun _ s r l _ => InOrder s r l)
    (motive_4 := fun _ s r l _ => InOrder s (')' :: r) l) with
  | last _ ih => exact ih
  | chain _ _ _ iha ihe => exact iha.append (ihe.of_suffix (suffix_append_cons _ _ _))
  | @number n b r _ hn =>
      have hne : b ++ n ≠ [] := List.append_ne_nil_of_right_ne_nil b hn.ne_nil
      exact .singleton hne (List.append_assoc b n r).symm _
  | signed _ _ ih => exact ih.of_suffix (List.suffix_append _ _)
  | minus _ _ ih =>
      exact ih.of_suffix ((List.suffix_append _ _).trans (List.suffix_cons _ _))
  | group _ _ ih =>
      exact (ih.of_suffix (List.suffix_cons _ _)).to_suffix (suffix_append_cons _ _ _)
  | wildcard hn =>
      obtain ⟨u, hu, hs⟩ := hn.exists_append
      exact .singleton hu hs _
  | @call n b s r args l _ _ _ ih =>
      have hs : s <:+ n ++ (b ++ '(' :: s) :=
        (suffix_append_cons b '(' s).trans (List.suffix_append n _)
      exact (ih.of_suffix hs).append (.singleton (List.cons_ne_nil ')' []) rfl _)
  | none => exact .nil (List.suffix_append _ _)
  | one _ _ ih => exact ih.to_suffix (List.suffix_append _ _)
  | more _ _ _ ihe ihargs => exact ihe.append (ihargs.of_suffix (suffix_append_cons _ _ _))

/-! ### A formula completes its items in one way only -/

theorem FormulaReads.formulaAt {e : Expr} {s r : Text} {l : List Completed}
    (h : FormulaReads w e s r l) : FormulaAt w e s r := by
  induction h using FormulaReads.rec
    (motive_2 := fun a s r _ _ => AtomAt w a s r)
    (motive_3 := fun a s r _ _ => SignedAt w a s r)
    (motive_4 := fun args s r _ _ => ArgumentsAt w args s r) with
  | last _ ih => exact .last ih
  | chain _ hb _ iha ihe => exact .chain iha hb ihe
  | number hb hn => exact .number hb hn
  | signed hb _ ih => exact .signed hb ih
  | minus hb _ ih => exact .minus hb ih
  | group _ hb ih => exact .group ih hb
  | wildcard hn => exact .wildcard hn
  | call hn hb _ ih => exact .call hn hb ih
  | none hb => exact .none hb
  | one _ hb ih => exact .one ih hb
  | more _ hb _ ihe ihargs => exact .more ihe hb ihargs

/-- A signed atom does not begin with a blank. -/
theorem SignedReads.stops_isBlank {a : Atom} {s r : Text} {l : List Completed}
    (h : SignedReads w a s r l) : Stops isBlank s := by
  have hname : ∀ {n t : Text}, IsName n → Stops isBlank (n ++ t) := by
    rintro n t ⟨c, u, rfl, hc, -⟩
    exact (stops_cons _ _ _).2 (isBlank_eq_false_of_isTokenChar (isTokenChar_of_isAlpha hc))
  cases h with
  | minus => exact (stops_cons _ _ _).2 (by decide)
  | group => exact (stops_cons _ _ _).2 (by decide)
  | wildcard hn =>
      cases hn with
      | braced => exact (stops_cons _ _ _).2 (by decide)
      | bare hn => exact hname hn
      | tex => exact (stops_cons _ _ _).2 (by decide)
      | pi => exact (stops_cons _ _ _).2 (by decide)
  | call hn => exact hname hn

theorem Blank.append_cancel {b b' s s' : Text} (hb : Blank b) (hb' : Blank b')
    (hs : Stops isBlank s) (hs' : Stops isBlank s') (h : b ++ s = b' ++ s') : s = s' := by
  have hskip := congrArg skipBlanks h
  rwa [skipBlanks_append hb, skipBlanks_append hb', skipBlanks_of_stops hs,
    skipBlanks_of_stops hs'] at hskip

theorem Blank.append_cons_cancel {b b' t t' : Text} {c : Char} (hb : Blank b) (hb' : Blank b')
    (hc : isBlank c = false) (h : b ++ c :: t = b' ++ c :: t') : t = t' := by
  have hstop : ∀ u, Stops isBlank (c :: u) := fun u => (stops_cons _ _ _).2 hc
  exact (List.cons.inj (hb.append_cancel hb' (hstop t) (hstop t') h)).2

theorem WildcardAt.rest_unique {n s r r' : Text} (h : WildcardAt w n s r)
    (h' : WildcardAt w n s r') : r = r' := by
  generalize hs : s = s' at h'
  cases h with
  | braced =>
      cases h' with
      | braced =>
          have htail := List.append_cancel_left (List.cons.inj hs).2
          exact (List.cons.inj htail).2
  | bare =>
      cases h' with
      | bare => exact List.append_cancel_left hs
  | tex hn hpi =>
      cases h' with
      | tex =>
          have htail := List.append_cancel_left (List.cons.inj hs).2
          exact (List.cons.inj htail).2
      | pi => exact absurd rfl hpi
  | pi =>
      cases h' with
      | tex hn hpi => exact absurd rfl hpi
      | pi => exact List.append_cancel_left (List.cons.inj hs).2

theorem AtomReads.unique_of_signed {a : Atom} {s r r' : Text} {l l' : List Completed}
    (hsigned : ∀ {s r r' : Text} {l l' : List Completed}, SignedReads w a s r l →
      SignedReads w a s r' l' → r = r' ∧ l = l')
    (h : AtomReads w a s r l) (h' : AtomReads w a s r' l') : r = r' ∧ l = l' := by
  generalize hs : s = s' at h'
  cases h with
  | number hb hn =>
      cases h' with
      | number hb' =>
          have htext := hb.append_cancel hb' (hn.stops_isBlank _) (hn.stops_isBlank _) hs
          obtain rfl := List.append_cancel_left htext
          exact ⟨rfl, rfl⟩
      | signed _ ha => nomatch ha
  | signed hb ha =>
      cases h' with
      | number => nomatch ha
      | signed hb' ha' =>
          obtain rfl := hb.append_cancel hb' ha.stops_isBlank ha'.stops_isBlank hs
          exact hsigned ha ha'

mutual

theorem FormulaReads.unique : ∀ {e : Expr} {s r r' : Text} {l l' : List Completed},
    FormulaReads w e s r l → FormulaReads w e s r' l' → r = r' ∧ l = l'
  | .last a, _, _, _, _, _, h, h' => by
      cases h with
      | last ha =>
          cases h' with
          | last ha' => exact ha.unique_of_signed SignedReads.unique ha'
  | .chain a op e, _, _, _, _, _, h, h' => by
      cases h with
      | chain ha hb he =>
          cases h' with
          | chain ha' hb' he' =>
              obtain ⟨hs, rfl⟩ := ha.unique_of_signed SignedReads.unique ha'
              obtain rfl := hb.append_cons_cancel hb' op.isBlank_char hs
              obtain ⟨rfl, rfl⟩ := he.unique he'
              exact ⟨rfl, rfl⟩

theorem SignedReads.unique : ∀ {a : Atom} {s r r' : Text} {l l' : List Completed},
    SignedReads w a s r l → SignedReads w a s r' l' → r = r' ∧ l = l'
  | .number _, _, _, _, _, _, h, _ => nomatch h
  | .wildcard n, _, _, _, _, _, h, h' => by
      cases h with
      | wildcard hn =>
          cases h' with
          | wildcard hn' =>
              obtain rfl := hn.rest_unique hn'
              exact ⟨rfl, rfl⟩
  | .group e, s, r, r', l, l', h, h' => by
      generalize hs : s = s' at h'
      cases h with
      | group he hb =>
          cases h' with
          | group he' hb' =>
              obtain rfl := (List.cons.inj hs).2
              obtain ⟨hr, rfl⟩ := he.unique he'
              obtain rfl := hb.append_cons_cancel hb' (by decide) hr
              exact ⟨rfl, rfl⟩
  | .call n args, s, r, r', l, l', h, h' => by
      generalize hs : s = s' at h'
      cases h with
      | call hn hb hargs =>
          cases h' with
          | call hn' hb' hargs' =>
              obtain rfl := hb.append_cons_cancel hb' (by decide) (List.append_cancel_left hs)
              obtain ⟨rfl, rfl⟩ := hargs.unique hargs'
              exact ⟨rfl, rfl⟩
  | .minus a, s, r, r', l, l', h, h' => by
      generalize hs : s = s' at h'
      cases h with
      | minus hb ha =>
          cases h' with
          | minus hb' ha' =>
              obtain rfl := hb.append_cancel hb' ha.stops_isBlank ha'.stops_isBlank
                (List.cons.inj hs).2
              exact SignedReads.unique (a := a) ha ha'

theorem ArgumentsReads.unique : ∀ {args : Args} {s r r' : Text} {l l' : List Completed},
    ArgumentsReads w args s r l → ArgumentsReads w args s r' l' → r = r' ∧ l = l'
  | .nil, s, r, r', l, l', h, h' => by
      generalize hs : s = s' at h'
      cases h with
      | none hb =>
          cases h' with
          | none hb' =>
              obtain rfl := hb.append_cons_cancel hb' (by decide) hs
              exact ⟨rfl, rfl⟩
  | .cons e .nil, _, _, _, _, _, h, h' => by
      cases h with
      | one he hb =>
          cases h' with
          | one he' hb' =>
              obtain ⟨hr, rfl⟩ := he.unique he'
              obtain rfl := hb.append_cons_cancel hb' (by decide) hr
              exact ⟨rfl, rfl⟩
  | .cons e (.cons e' args), _, _, _, _, _, h, h' => by
      cases h with
      | more he hb hargs =>
          cases h' with
          | more he' hb' hargs' =>
              obtain ⟨ht, rfl⟩ := he.unique he'
              obtain rfl := hb.append_cons_cancel hb' (by decide) ht
              obtain ⟨rfl, rfl⟩ := hargs.unique hargs'
              exact ⟨rfl, rfl⟩

end

end

/-! ### Blocks -/

/-- Reading the block from `s` to `r` completes the items `l`. -/
inductive BlockReads (d : Dialect) : Expr → Text → Text → List Completed → Prop
  | block {e : Expr} {t b r : Text} {l : List Completed}
      (he : FormulaReads d.wildcardStyle e t (b ++ '}' :: r) l) (hb : Blank b) :
      BlockReads d e (d.opener ++ t) r l

section

variable {d : Dialect} {e : Expr} {s r : Text} {l l' : List Completed}

theorem BlockAt.exists_reads (h : BlockAt d e s r) : ∃ l, BlockReads d e s r l := by
  cases h with
  | block he hb =>
      obtain ⟨l, hl⟩ := he.exists_reads
      exact ⟨l, .block hl hb⟩

theorem BlockReads.blockAt (h : BlockReads d e s r l) : BlockAt d e s r := by
  cases h with
  | block he hb => exact .block he.formulaAt hb

theorem BlockReads.items_eq (h : BlockReads d e s r l) : l.map Completed.item = e.items := by
  cases h with
  | block he hb => exact he.items_eq

theorem BlockReads.inOrder (h : BlockReads d e s r l) : InOrder s r l := by
  cases h with
  | block he hb =>
      exact (he.inOrder.of_suffix (List.suffix_append _ _)).to_suffix (suffix_append_cons _ _ _)

theorem BlockReads.unique (h : BlockReads d e s r l) (h' : BlockReads d e s r l') : l = l' := by
  generalize hs : s = s' at h'
  cases h with
  | block he hb =>
      cases h' with
      | block he' hb' =>
          obtain rfl := List.append_cancel_left hs
          exact (he.unique he').2

end

end QuizFormula

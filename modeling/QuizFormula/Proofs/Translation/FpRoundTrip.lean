import QuizFormula.Proofs.Document.Contents
import QuizFormula.Proofs.Translation.References
import QuizFormula.Proofs.Translation.Reports
import QuizFormula.Proofs.Translation.ToFp
import QuizFormula.Proofs.Translation.ToMoodle
import QuizFormula.Proofs.Translation.Writing

/-!
# From `fp` to Moodle and back

An `fp` block whose calls Moodle can express comes back from Moodle with each call in the
place of the same call, except that a negation has parentheses around its argument, that
of `clip` the parentheses are left, and that a root is a square root or a power
(`Fp.returned`). Wildcards come back as macros, and the macros in the result are those of
the wildcards that Moodle gets (`fp_round_trip`).
-/

namespace QuizFormula

theorem Expr.depth_pos (e : Expr) : 0 < e.depth := by
  cases e with
  | last a => exact Nat.succ_pos a.depth
  | chain a op e => exact Nat.lt_of_lt_of_le (Nat.succ_pos a.depth) (Nat.le_max_left _ _)

namespace Moodle

section Survey

variable {β : Type} (g : Text → List β)

/-- The degree of a square root has no wildcards. -/
theorem survey_rewriteRoot_perm (degree radicand : Expr) :
    ((rewriteRoot degree radicand).survey (.ofWildcards g)).Perm
      (degree.survey (.ofWildcards g) ++ radicand.survey (.ofWildcards g)) := by
  unfold rewriteRoot
  split
  · rename_i htwo
    obtain ⟨l, rfl, -⟩ := exists_number_of_isDegreeTwo htwo
    simp [Atom.survey, Args.survey, Expr.survey, Survey.ofWildcards]
  · simpa [Atom.survey, Args.survey, Expr.survey, Survey.ofWildcards, reciprocal] using
      List.perm_append_comm

/-- In Moodle formulas no wildcard is lost or added, except for the bare name that is pi
and for arguments of pi. -/
theorem keepsSurvey_rewriting :
    rewriting.KeepsSurvey (.ofWildcards g)
      (.ofWildcards fun n => if n = piName then [] else g n)
      (fun n args => n = piName → args.length = 0) where
  number _ := rfl
  wildcard n := by
    change (if n = piName then Atom.call piName .nil else .wildcard n).survey _ =
      if n = piName then [] else g n
    split <;> rfl
  minus _ := rfl
  call n args hpi := by
    change ((rewriteCall n (args.rewrite rewriting)).survey (.ofWildcards g)).Perm (_ ++ [])
    rw [List.append_nil]
    have hkept : ∀ m, ((Atom.call m (args.rewrite rewriting)).survey (.ofWildcards g)).Perm
        ((args.rewrite rewriting).survey (.ofWildcards g)) := fun m => .of_eq (List.append_nil _)
    cases n using name_cases with
    | root =>
        match args, hkept with
        | .cons degree (.cons radicand .nil), _ =>
            have hroot := survey_rewriteRoot_perm g (degree.rewrite rewriting)
              (radicand.rewrite rewriting)
            change ((rewriteRoot _ _).survey _).Perm (_ ++ (_ ++ []))
            rwa [List.append_nil]
        | .nil, hkept | .cons _ .nil, hkept | .cons _ (.cons _ (.cons _ _)), hkept =>
            exact hkept _
    | pow => exact (List.Perm.of_eq (List.append_nil _)).trans (Args.survey_exchange_perm _ _)
    | neg =>
        match args, hkept with
        | .cons e .nil, _ => exact .of_eq (List.append_nil _).symm
        | .nil, hkept | .cons _ (.cons _ _), hkept => exact hkept _
    | clip =>
        match args, hkept with
        | .cons e .nil, _ => exact .of_eq (List.append_nil _).symm
        | .nil, hkept | .cons _ (.cons _ _), hkept => exact hkept _
    | pi =>
        match args, hpi rfl with
        | .nil, _ => exact .refl _
    | other n hroot hother =>
        rw [rewriteCall_of_not_mem hroot hother]
        exact hkept _

end Survey

end Moodle

namespace Fp

/-- A call that comes back from Moodle, with as many arguments as it should have. -/
inductive IsReturned : Text → Args → Prop
  | shared (f : SharedFunction) (args : Args) : IsReturned (f.name .fp) args
  | pow (e e' : Expr) : IsReturned "pow".toList (.cons e (.cons e' .nil))
  | root (degree radicand : Expr) :
      IsReturned "root".toList (.cons degree (.cons radicand .nil))
  | neg (e : Expr) : IsReturned "neg".toList (.cons e .nil)
  | clip (e : Expr) : IsReturned "clip".toList (.cons e .nil)
  | pi : IsReturned "pi".toList .nil

theorem IsReturned.known {n : Text} {args : Args} (h : IsReturned n args) :
    Moodle.isRewritten n args.length = true ∨ ∃ f : SharedFunction, f.name .fp = n := by
  cases h with
  | shared f => exact .inr ⟨f, rfl⟩
  | pow | root | neg | clip | pi => exact .inl rfl

theorem IsReturned.isWritable {n : Text} {args : Args} (h : IsReturned n args) :
    Moodle.IsWritable n args := by
  intro hname
  cases h with
  | shared f =>
      have hmem : f.name .fp ∈ Moodle.rewritten := by
        rcases hname with hname | hname <;> rw [hname] <;> decide
      exact absurd hmem (Moodle.name_not_mem_rewritten f).2
  | pow | root | pi => exact absurd hname (by decide)
  | neg | clip => rfl

theorem IsReturned.length_eq_zero_of_pi {n : Text} {args : Args} (h : IsReturned n args)
    (hname : n = Moodle.piName) : args.length = 0 := by
  cases h with
  | shared f =>
      have hmem : f.name .fp ∈ Moodle.rewritten := by
        rw [hname]
        decide
      exact absurd hmem (Moodle.name_not_mem_rewritten f).2
  | pow | root | neg | clip => exact absurd hname (by decide)
  | pi => rfl

/-- How a root is written when it comes back, from its degree and from the written degree
and radicand. -/
def returnedRoot (degree : Expr) (d x : Text) : Text :=
  if Moodle.isDegreeTwo degree then squareRoot [x]
  else callText "pow".toList ["1/(".toList ++ (d ++ [')']), x]

/-- How a call is written when it comes back. -/
def returnedCall (name : Text) (args : Args) (ts : List Text) : Text :=
  if name = "root".toList then
    match args, ts with
    | .cons degree _, [d, x] => returnedRoot degree d x
    | _, ts => callText name ts
  else if name = "neg".toList then callText name [callText [] ts]
  else if name = "clip".toList then callText [] ts
  else if name = "pi".toList then pi
  else callText name ts

/-- How a formula for `fp` is written when it comes back from Moodle. -/
def returned (precision : Nat) : Writing where
  number := Literal.text precision
  wildcard n := if n = Moodle.piName then pi else texMacro n
  minus t := "neg(".toList ++ (t ++ [')'])
  call := returnedCall

theorem returnedCall_name (f : SharedFunction) (args : Args) (ts : List Text) :
    returnedCall (f.name .fp) args ts = callText (f.name .fp) ts := by
  cases f <;> rfl

theorem render_rewriteRoot (precision : Nat) (degree radicand : Expr) :
    (Moodle.rewriteRoot (degree.rewrite Moodle.rewriting) radicand).render
        (rendering precision) =
      returnedRoot degree ((degree.rewrite Moodle.rewriting).render (rendering precision))
        (radicand.render (rendering precision)) := by
  have hone : Literal.text precision "1".toList = "1".toList :=
    Literal.text_of_exponent_eq_none (n := ⟨none, "1".toList, none, none⟩) precision rfl rfl
  unfold Moodle.rewriteRoot returnedRoot
  rw [Moodle.isDegreeTwo_rewrite]
  split
  · rfl
  · have hreciprocal : (Moodle.reciprocal (degree.rewrite Moodle.rewriting)).render
        (rendering precision) = "1/(".toList ++
          ((degree.rewrite Moodle.rewriting).render (rendering precision) ++ [')']) :=
      congrArg (· ++ _) hone
    rw [← hreciprocal]
    rfl

theorem writesAs_returned (precision : Nat) :
    Moodle.rewriting.WritesAs (rendering precision) (returned precision) (fun _ => True)
      IsReturned where
  number _ := rfl
  wildcard n _ := by
    simp only [Moodle.rewriting, returned]
    split <;> rfl
  minus _ := rfl
  call n args h := by
    change (Moodle.rewriteCall n (args.rewrite _)).render _ = returnedCall n args _
    cases h with
    | shared f =>
        rw [Moodle.rewriteCall_name, returnedCall_name]
        exact call_name f _
    | pow e e' => rfl
    | root degree radicand => exact render_rewriteRoot precision degree _
    | neg e =>
        change _ = callText "neg".toList [callText [] [_]]
        rw [callText_singleton, callText_singleton]
        rfl
    | clip e => exact (callText_singleton [] _).symm
    | pi => rfl

theorem depth_rewriteRoot_le (degree radicand : Expr) :
    max degree.depth radicand.depth ≤ (Moodle.rewriteRoot degree radicand).depth := by
  rw [Moodle.depth_rewriteRoot]
  split
  · rename_i htwo
    obtain ⟨l, rfl, -⟩ := Moodle.exists_number_of_isDegreeTwo htwo
    exact Nat.max_le.2 ⟨radicand.depth_pos, Nat.le_refl _⟩
  · omega

/-- The translation to Moodle nests at least as deep as the formula. -/
theorem depth_le_rewrite {e : Expr} (he : e.WellFormed)
    (hcalls : ∀ c ∈ e.calls, IsReturned c.1 c.2) :
    e.depth ≤ (e.rewrite Moodle.rewriting).depth := by
  have hind : FormulaInduction (fun e => e.depth ≤ (e.rewrite Moodle.rewriting).depth)
      (fun a => a.depth ≤ (a.rewrite Moodle.rewriting).depth)
      (fun args => args.depth ≤ (args.rewrite Moodle.rewriting).depth)
      (fun _ => True) IsReturned :=
    { last := fun a ha => Nat.succ_le_succ ha
      chain := fun a op e ha he => by
        simp only [Expr.rewrite, Expr.depth]
        omega
      number := fun _ _ => Nat.le_refl 0
      wildcard := fun _ _ _ => Nat.zero_le _
      group := fun e he => he
      call := fun n args _ _ hc hargs => by
        change args.depth ≤ (Moodle.rewriteCall n (args.rewrite _)).depth
        cases hc with
        | shared f =>
            rw [Moodle.rewriteCall_name]
            exact hargs
        | pow e e' =>
            change _ ≤ (Args.exchange (Args.rewrite _ _)).depth
            rw [Args.depth_exchange]
            exact hargs
        | root degree radicand =>
            have hroot := depth_rewriteRoot_le (degree.rewrite Moodle.rewriting)
              (radicand.rewrite Moodle.rewriting)
            change _ ≤ (Moodle.rewriteRoot _ _).depth
            simp only [Args.rewrite, Args.depth] at hargs ⊢
            omega
        | neg e => exact hargs.trans (Nat.le_of_eq (Nat.max_zero _))
        | clip e => exact hargs.trans (Nat.le_of_eq (Nat.max_zero _))
        | pi => exact Nat.zero_le _
      minus := fun a ha => ha
      nil := Nat.le_refl 0
      cons := fun e args he hargs => by
        simp only [Args.rewrite, Args.depth]
        omega }
  exact hind.formula he (fun _ _ => trivial) hcalls

/-- A call in a formula that Moodle gets. -/
inductive IsSent : Text → Nat → Prop
  | shared (f : SharedFunction) (arity : Nat) : IsSent (f.name .moodle) arity
  | sqrt (arity : Nat) : IsSent "sqrt".toList arity
  | pow (arity : Nat) : IsSent "pow".toList arity
  | pi : IsSent "pi".toList 0

theorem IsSent.known {n : Text} {arity : Nat} (h : IsSent n arity) :
    n ∈ rewritten ∨ ∃ f : SharedFunction, f.name .moodle = n := by
  cases h with
  | shared f => exact .inr ⟨f, rfl⟩
  | sqrt | pow | pi => exact .inl (by decide)

theorem IsSent.eq_zero_of_pi {n : Text} {arity : Nat} (h : IsSent n arity)
    (hn : n = "pi".toList) : arity = 0 := by
  cases h with
  | shared f =>
      have hmem : f.name .moodle ∈ rewritten := by
        rw [hn]
        decide
      exact absurd hmem (name_not_mem_rewritten f)
  | sqrt | pow => exact absurd hn (by decide)
  | pi => rfl

theorem isNotedAs_isSent :
    Moodle.rewriting.IsNotedAs callSurvey (fun c => IsSent c.1 c.2) (fun _ => True)
      IsReturned where
  number _ _ hd := absurd hd List.not_mem_nil
  wildcard n _ := by
    change ∀ c ∈ (if n = Moodle.piName then Atom.call Moodle.piName .nil
      else .wildcard n).survey callSurvey, IsSent c.1 c.2
    split
    · exact List.forall_mem_singleton.2 .pi
    · exact fun _ hd => absurd hd List.not_mem_nil
  minus _ ha := ha
  call n args h hargs := by
    change ∀ c ∈ (Moodle.rewriteCall n (args.rewrite _)).survey callSurvey, IsSent c.1 c.2
    cases h with
    | shared f =>
        rw [Moodle.rewriteCall_name]
        exact List.forall_mem_append.2 ⟨hargs, List.forall_mem_singleton.2 (.shared f _)⟩
    | pow e e' =>
        refine List.forall_mem_append.2 ⟨?_, List.forall_mem_singleton.2 (.pow _)⟩
        exact fun c hc => hargs c ((Args.survey_exchange_perm _ _).mem_iff.1 hc)
    | root degree radicand =>
        change ∀ c ∈ (Moodle.rewriteRoot _ _).survey callSurvey, IsSent c.1 c.2
        obtain ⟨hdegree, hradicand⟩ := List.forall_mem_append.1 hargs
        unfold Moodle.rewriteRoot
        split
        · exact List.forall_mem_append.2 ⟨hradicand, List.forall_mem_singleton.2 (.sqrt _)⟩
        · obtain ⟨hradicand, hnil⟩ := List.forall_mem_append.1 hradicand
          refine List.forall_mem_append.2 ⟨?_, List.forall_mem_singleton.2 (.pow _)⟩
          exact List.forall_mem_append.2 ⟨hradicand, List.forall_mem_append.2 ⟨hdegree, hnil⟩⟩
    | neg e => exact (List.forall_mem_append.1 hargs).1
    | clip e => exact (List.forall_mem_append.1 hargs).1
    | pi => exact List.forall_mem_singleton.2 .pi

section

variable {e : Expr} (he : e.WellFormed) (hcalls : ∀ c ∈ e.calls, IsReturned c.1 c.2)
include he hcalls

theorem isSent_of_mem_calls : ∀ c ∈ (e.rewrite Moodle.rewriting).calls, IsSent c.1 c.2.length := by
  intro c hc
  have hsurvey := isNotedAs_isSent.survey_rewrite he (fun _ _ => trivial) hcalls
  exact hsurvey _ (Expr.mem_survey_of_mem_calls (List.mem_singleton_self _) hc)

/-- What Moodle gets is a block of the formula that the first translation builds. -/
theorem blockAt_moodleBlock :
    BlockAt .moodle (e.rewrite Moodle.rewriting) (Moodle.block e) [] :=
  FormulaText.blockAt (d := .moodle)
    (Moodle.isWrittenBy_rendering.formulaText he fun c hc => (hcalls c hc).isWritable)

/-- The macros in what comes back are those of the wildcards that Moodle gets. -/
theorem macroNames_write_perm (precision : Nat) :
    (macroNames (e.write (returned precision))).Perm ((Moodle.wildcards e).map texName) := by
  have he' := (blockAt_moodleBlock he hcalls).wellFormed
  have hpi : ∀ c ∈ (e.rewrite Moodle.rewriting).calls,
      c.1 = "pi".toList → c.2.length = 0 := fun c hc =>
    (isSent_of_mem_calls he hcalls c hc).eq_zero_of_pi
  have hnames := ((finds_macros precision).hasNames he' hpi).names_perm
  rw [(writesAs_returned precision).render_rewrite he (fun _ _ => trivial) hcalls] at hnames
  have hsurvey := (Moodle.keepsSurvey_rewriting fun n => [texName n]).survey_rewrite he
    fun c hc => (hcalls c hc).length_eq_zero_of_pi
  rw [Moodle.survey_eq_flatMap_wildcards, ← List.map_eq_flatMap] at hsurvey
  exact hnames.trans hsurvey

end

end Fp

/-- An `fp` block whose calls Moodle can express is translated to Moodle and back without
an error, and comes back as `Fp.returned` writes it, if what Moodle gets is nested no
deeper than allowed. The names of the macros in it are the names of the wildcards that
Moodle gets, without their underscores. -/
theorem fp_round_trip (o : Options) {s : Text} {e : Expr} (hs : BlockAt .fp e s [])
    (hcalls : ∀ c ∈ e.calls, Fp.IsReturned c.1 c.2)
    (hdepth : ∀ e', BlockAt .moodle e' (Moodle.block e) [] → e'.depth ≤ maxDepth) :
    (translateToMoodle s).diagnostics = [] ∧
    (translateToFp o (translateToMoodle s).text).text =
      Fp.blockOpening ++ (e.write (Fp.returned o.fixedPrecision) ++ Fp.blockClosing) ∧
    (∀ d ∈ (translateToFp o (translateToMoodle s).text).diagnostics, d.isError = false) ∧
    ∀ n, (IsMacroName n ∧ '\\' :: (n ++ [' ']) <:+: e.write (Fp.returned o.fixedPrecision)) ↔
      ∃ m ∈ (translateToMoodle s).wildcards, texName m = n := by
  have he := hs.wellFormed
  have hsent := Fp.blockAt_moodleBlock he hcalls
  have hread : block? .fp s = some (e, []) := by
    rw [block?_eq_some_iff]
    exact ⟨hs, (Fp.depth_le_rewrite he hcalls).trans (hdepth _ hsent)⟩
  have hback : block? .moodle (Moodle.block e) = some (e.rewrite Moodle.rewriting, []) := by
    rw [block?_eq_some_iff]
    exact ⟨hsent, hdepth _ hsent⟩
  have hwritten := (Fp.writesAs_returned o.fixedPrecision).render_rewrite he
    (fun _ _ => trivial) hcalls
  rw [translateToMoodle_of_block hread, translateToFp_of_block o hback]
  refine ⟨?_, ?_, ?_, ?_⟩
  · exact Moodle.survey_report_eq_nil he fun c hc => (hcalls c hc).known
  · rw [Fp.block, hwritten]
  · exact Fp.no_error o.overflowLimit hsent.wellFormed fun c hc =>
      (Fp.isSent_of_mem_calls he hcalls c hc).known
  · intro n
    rw [← mem_macroNames_iff, (Fp.macroNames_write_perm he hcalls o.fixedPrecision).mem_iff,
      List.mem_map]

/-- A square root of a negation after a minus sign. -/
theorem fp_round_trip_root :
    (translateToMoodle r"fp{root(2, -neg(x_1))}".toList).diagnostics = [] ∧
    (translateToFp .default
      (translateToMoodle r"fp{root(2, -neg(x_1))}".toList).text).text =
      Fp.blockOpening ++ (r"root(2, neg(neg((\x1 ))))".toList ++ Fp.blockClosing) ∧
    (∀ d ∈ (translateToFp .default
      (translateToMoodle r"fp{root(2, -neg(x_1))}".toList).text).diagnostics,
      d.isError = false) ∧
    ∀ n, (IsMacroName n ∧ '\\' :: (n ++ [' ']) <:+: r"root(2, neg(neg((\x1 ))))".toList) ↔
      ∃ m ∈ (translateToMoodle r"fp{root(2, -neg(x_1))}".toList).wildcards,
        texName m = n := by
  obtain ⟨e, hread, hcalls, hdepth, hwritten⟩ : ∃ e,
      block? .fp r"fp{root(2, -neg(x_1))}".toList = some (e, []) ∧
      (∀ c ∈ e.calls, Fp.IsReturned c.1 c.2) ∧
      (e.rewrite Moodle.rewriting).depth ≤ maxDepth ∧
      e.write (Fp.returned Options.default.fixedPrecision) =
        r"root(2, neg(neg((\x1 ))))".toList := by
    refine ⟨.last (.call "root".toList (.cons (.last (.number "2".toList)) (.cons
      (.last (.minus (.call "neg".toList (.cons (.last (.wildcard "x_1".toList)) .nil))))
      .nil))), by decide +kernel, ?_, by decide +kernel, by decide +kernel⟩
    exact List.forall_mem_cons.2 ⟨.neg _, List.forall_mem_singleton.2 (.root _ _)⟩
  have hs := ((block?_eq_some_iff _ _ _ _).1 hread).1
  rw [← hwritten]
  apply fp_round_trip .default hs hcalls
  intro e' he'
  rw [(he'.unique (Fp.blockAt_moodleBlock hs.wellFormed hcalls)).1]
  exact hdepth

end QuizFormula

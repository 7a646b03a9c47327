import QuizFormula.Proofs.Document.Contents
import QuizFormula.Proofs.Translation.Notes
import QuizFormula.Proofs.Translation.Reports
import QuizFormula.Proofs.Translation.ToFp
import QuizFormula.Proofs.Translation.ToMoodle
import QuizFormula.Proofs.Translation.Writing

/-!
# From Moodle to `fp` and back

A Moodle block without wildcards, whose calls both dialects have, comes back from `fp`
as the same block, up to three things: blanks are gone, literals are in the form in which
`fp` gets them, and a minus sign has parentheses around its atom. On the way, minus signs
are calls, so they nest: `Expr.nesting` counts them together with groups and arguments,
and `clip` takes one level more.
-/

namespace QuizFormula

mutual

/-- How many groups, arguments and minus signs stand within one another. -/
def Expr.nesting : Expr → Nat
  | .last a => a.nesting
  | .chain a _ e => max a.nesting e.nesting

def Atom.nesting : Atom → Nat
  | .number _ => 0
  | .wildcard _ => 0
  | .group e => e.nesting + 1
  | .call _ args => args.nesting
  | .minus a => a.nesting + 1

def Args.nesting : Args → Nat
  | .nil => 0
  | .cons e args => max (e.nesting + 1) args.nesting

end

mutual

theorem Expr.depth_le_nesting : ∀ e : Expr, e.depth ≤ e.nesting + 1
  | .last a => Nat.succ_le_succ a.depth_le_nesting
  | .chain a _ e => by
      have ha := a.depth_le_nesting
      have he := e.depth_le_nesting
      simp only [Expr.depth, Expr.nesting]
      omega

theorem Atom.depth_le_nesting : ∀ a : Atom, a.depth ≤ a.nesting
  | .number _ => Nat.le_refl 0
  | .wildcard _ => Nat.le_refl 0
  | .group e => e.depth_le_nesting
  | .call _ args => args.depth_le_nesting
  | .minus a => Nat.le_succ_of_le a.depth_le_nesting

theorem Args.depth_le_nesting : ∀ args : Args, args.depth ≤ args.nesting
  | .nil => Nat.le_refl 0
  | .cons e args => by
      have he := e.depth_le_nesting
      have hargs := args.depth_le_nesting
      simp only [Args.depth, Args.nesting]
      omega

end

namespace Moodle

/-- A call that comes back from `fp`: of a function that both dialects have, of a power,
or of a square root with one argument. -/
inductive IsReturned : Text → Args → Prop
  | shared (f : SharedFunction) (args : Args) : IsReturned (f.name .moodle) args
  | pow (args : Args) : IsReturned "pow".toList args
  | sqrt (e : Expr) : IsReturned "sqrt".toList (.cons e .nil)

theorem IsReturned.known {n : Text} {args : Args} (h : IsReturned n args) :
    n ∈ Fp.rewritten ∨ ∃ f : SharedFunction, f.name .moodle = n := by
  cases h with
  | shared f => exact .inr ⟨f, rfl⟩
  | pow | sqrt => exact .inl (by decide)

/-- How a Moodle formula is written when it comes back from `fp`. -/
def returned (precision : Nat) : Writing where
  number := Literal.text precision
  wildcard n := '{' :: (n ++ ['}'])
  minus t := "-(".toList ++ (t ++ [')'])
  call n _ ts := callText n ts

/-- What `fp` has in the place of a square root is a square root again. -/
theorem render_rewriteCall_sqrt (e : Expr) :
    (Fp.rewriteCall "sqrt".toList (.cons e .nil)).render rendering =
      callText "sqrt".toList [e.render rendering] := by
  have htwo : isTwo "2".toList = true := by decide +kernel
  have hargs : Args.render rendering (.cons (.last (.number "2".toList)) (.cons e .nil)) =
      ["2".toList, e.render rendering] := rfl
  rw [Fp.rewriteCall, if_pos rfl, render_call, hargs, call, if_pos rfl, root, htwo, if_pos rfl]

/-- What both dialects have comes back under its first name, the arguments of a power are
exchanged twice, and a root of degree two is a square root. -/
theorem writesAs_returned (precision : Nat) :
    (Fp.rewriting precision).WritesAs rendering (returned precision) (fun _ => False)
      IsReturned where
  number _ := rfl
  wildcard _ h := h.elim
  minus a := by
    change '-' :: callText [] [a.render rendering] = _
    rw [callText_nil_singleton]
    rfl
  call n args h := by
    change (Fp.rewriteCall n (args.rewrite _)).render rendering = callText n _
    cases h with
    | shared f => rw [Fp.rewriteCall_name, render_call, call_name]
    | pow args =>
        change callText "pow".toList (exchangePair (Args.render rendering (Args.exchange _))) = _
        rw [Args.render_exchange, exchangePair_exchangePair]
    | sqrt e => exact render_rewriteCall_sqrt _

/-- The first translation nests as deep as the nesting of the formula allows. -/
theorem depth_rewrite_le (precision : Nat) {e : Expr} (he : e.WellFormed)
    (hcalls : ∀ c ∈ e.calls, IsReturned c.1 c.2) :
    (e.rewrite (Fp.rewriting precision)).depth ≤ e.nesting + 1 := by
  have hind : FormulaInduction
      (fun e => (e.rewrite (Fp.rewriting precision)).depth ≤ e.nesting + 1)
      (fun a => (a.rewrite (Fp.rewriting precision)).depth ≤ a.nesting)
      (fun args => (args.rewrite (Fp.rewriting precision)).depth ≤ args.nesting)
      (fun _ => True) IsReturned :=
    { last := fun a ha => Nat.succ_le_succ ha
      chain := fun a op e ha he => by
        simp only [Expr.rewrite, Expr.depth, Expr.nesting]
        omega
      number := fun l _ => Nat.le_refl 0
      wildcard := fun n _ _ => Nat.le_refl 0
      group := fun e he => he
      call := fun n args _ _ hc hargs => by
        change (Fp.rewriteCall n (args.rewrite _)).depth ≤ args.nesting
        cases hc with
        | shared f =>
            rw [Fp.rewriteCall_name]
            exact hargs
        | pow args =>
            change (Args.exchange _).depth ≤ _
            rw [Args.depth_exchange]
            exact hargs
        | sqrt e =>
            change max 1 (Args.depth _) ≤ _
            simp only [Args.nesting] at hargs ⊢
            omega
      minus := fun a ha => by
        change max ((a.rewrite _).depth + 1) 0 ≤ a.nesting + 1
        omega
      nil := Nat.le_refl 0
      cons := fun e args he hargs => by
        simp only [Args.rewrite, Args.depth, Args.nesting]
        omega }
  exact hind.formula he (fun _ _ => trivial) hcalls

/-- The functions of what `fp` gets are known to Moodle, and there are no wildcards in
it. -/
theorem isNotedAs_returned {β : Type} {v : Survey β} {D : β → Prop} (precision : Nat)
    (number : ∀ l, ∀ d ∈ v.number l, D d)
    (rewritten : ∀ n arity, isRewritten n arity = true → ∀ d ∈ v.call n arity, D d)
    (shared : ∀ (f : SharedFunction) arity, ∀ d ∈ v.call (f.name .fp) arity, D d) :
    (Fp.rewriting precision).IsNotedAs v D (fun _ => False) IsReturned where
  number l := number _
  wildcard _ h := h.elim
  minus a ha := by
    change ∀ d ∈ (a.survey v ++ []) ++ v.call "neg".toList 1, D d
    rw [List.append_nil]
    exact List.forall_mem_append.2 ⟨ha, rewritten _ _ (by decide)⟩
  call n args h hargs := by
    change ∀ d ∈ (Fp.rewriteCall n (args.rewrite _)).survey v, D d
    cases h with
    | shared f =>
        rw [Fp.rewriteCall_name]
        exact List.forall_mem_append.2 ⟨hargs, shared f _⟩
    | pow args =>
        refine List.forall_mem_append.2 ⟨?_, rewritten _ _ (isRewritten_of_mem (by decide) _)⟩
        intro d hd
        exact hargs d ((Args.survey_exchange_perm v _).mem_iff.1 hd)
    | sqrt e =>
        refine List.forall_mem_append.2 ⟨?_, rewritten _ 2 (by decide)⟩
        exact List.forall_mem_append.2 ⟨number _, hargs⟩

/-- A formula inside `clip`. -/
def clip (e : Expr) : Expr := .last (.call "clip".toList (.cons e .nil))

/-- Of `clip` the parentheses are kept. -/
theorem block_clip (e : Expr) :
    block (clip e) = r"{=(".toList ++ (e.render rendering ++ r")}".toList) := by
  have hrender : (clip e).render rendering = callText [] [e.render rendering] := rfl
  have hopening : r"{=(".toList = Dialect.moodle.opener ++ ['('] := rfl
  have hclosing : r")}".toList = ')' :: ['}'] := rfl
  rw [block, hrender, callText_nil_singleton, hopening, hclosing]
  simp only [List.append_assoc, List.cons_append, List.nil_append]

theorem survey_clip {β : Type} (v : Survey β) (e : Expr) :
    (clip e).survey v = e.survey v ++ v.call "clip".toList 1 :=
  congrArg (· ++ v.call "clip".toList 1) (List.append_nil _)

section

variable {e : Expr} (he : e.WellFormed) (hwildcards : ∀ n ∈ e.survey wildcardSurvey, False)
  (hcalls : ∀ c ∈ e.calls, IsReturned c.1 c.2)
include he hwildcards hcalls

theorem survey_rewrite_eq_nil {β : Type} {v : Survey β} (precision : Nat)
    (number : ∀ l, v.number l = [])
    (rewritten : ∀ n arity, isRewritten n arity = true → v.call n arity = [])
    (shared : ∀ (f : SharedFunction) arity, v.call (f.name .fp) arity = []) :
    (e.rewrite (Fp.rewriting precision)).survey v = [] := by
  have hnoted : (Fp.rewriting precision).IsNotedAs v (fun _ => False) (fun _ => False)
      IsReturned := by
    apply isNotedAs_returned <;> simp_all
  exact List.eq_nil_iff_forall_not_mem.2 (hnoted.survey_rewrite he hwildcards hcalls)

theorem survey_wildcards_rewrite (precision : Nat) :
    (e.rewrite (Fp.rewriting precision)).survey wildcardSurvey = [] :=
  survey_rewrite_eq_nil he hwildcards hcalls precision (fun _ => rfl) (fun _ _ _ => rfl)
    (fun _ _ => rfl)

theorem survey_report_rewrite (precision : Nat) :
    (e.rewrite (Fp.rewriting precision)).survey report = [] :=
  survey_rewrite_eq_nil he hwildcards hcalls precision (fun _ => rfl)
    (fun _ _ => report_call_of_isRewritten) report_call_name

/-- What stands inside `clip` is read back as the formula that the first translation
builds. -/
theorem block?_clip (precision : Nat) (hnesting : e.nesting ≤ 254) :
    block? .fp (r"fp{".toList ++ (callText "clip".toList
        [e.render (Fp.rendering precision)] ++ r"}".toList)) =
      some (clip (e.rewrite (Fp.rewriting precision)), []) := by
  have hwritable : ∀ c ∈ e.calls, Fp.IsWritable c.1 c.2 := by
    intro c hc hname hnil
    have hreturned := hcalls c hc
    rw [hname, hnil] at hreturned
    generalize hn : "sqrt".toList = n at hreturned
    cases hreturned with
    | shared f =>
        revert hn
        cases f <;> decide
    | pow => exact absurd hn (by decide)
  have htext := (Fp.isWrittenBy_rendering precision).formulaText he hwritable
  have hbare := htext.restyle Dialect.fp.wildcardStyle
    (survey_wildcards_rewrite he hwildcards hcalls precision)
  have hdepth := depth_rewrite_le precision he hcalls
  rw [block?_eq_some_iff]
  refine ⟨(ArgsText.call (by decide) (.cons hbare .nil)).atomText.last.blockAt, ?_⟩
  simp only [clip, Expr.depth, Atom.depth, Args.depth, maxDepth]
  omega

end

end Moodle

/-- What is evaluated is a call of `clip`. -/
theorem Fp.block_eq_clip (precision : Nat) (e : Expr) :
    block precision e = r"\FPprint{\FPeval{\out}{".toList ++
      (callText "clip".toList [e.render (rendering precision)] ++ r"}\out}".toList) := by
  have hopening : blockOpening =
      r"\FPprint{\FPeval{\out}{".toList ++ ("clip".toList ++ ['(']) := rfl
  have hclosing : blockClosing = ')' :: r"}\out}".toList := rfl
  rw [block, hopening, hclosing, callText_singleton]
  simp only [List.append_assoc, List.cons_append, List.nil_append]

/-- A Moodle block without wildcards, whose calls both dialects have, is translated to
`fp` and back without an error, and comes back as `Moodle.returned` writes it, if its
formula is nested no deeper than the two levels of `clip` and of the outermost formula
allow. -/
theorem moodle_round_trip (o : Options) {s : Text} {e : Expr} (hs : BlockAt .moodle e s [])
    (hwildcards : e.survey wildcardSurvey = [])
    (hcalls : ∀ c ∈ e.calls, Moodle.IsReturned c.1 c.2) (hnesting : e.nesting ≤ 254) :
    ∃ t, (translateToFp o s).text =
        r"\FPprint{\FPeval{\out}{".toList ++ (t ++ r"}\out}".toList) ∧
      (∀ d ∈ (translateToFp o s).diagnostics, d.isError = false) ∧
      translateToMoodle (r"fp{".toList ++ (t ++ r"}".toList)) =
        { text := r"{=(".toList ++ (e.write (Moodle.returned o.fixedPrecision) ++
            r")}".toList)
          diagnostics := []
          wildcards := [] } := by
  have he := hs.wellFormed
  have hread : block? .moodle s = some (e, []) := by
    rw [block?_eq_some_iff]
    refine ⟨hs, ?_⟩
    have hdepth := e.depth_le_nesting
    rw [maxDepth]
    omega
  have hnone : ∀ n ∈ e.survey wildcardSurvey, False := by simp [hwildcards]
  have hwritten := (Moodle.writesAs_returned o.fixedPrecision).render_rewrite he hnone hcalls
  refine ⟨callText "clip".toList [e.render (Fp.rendering o.fixedPrecision)], ?_, ?_, ?_⟩
  · rw [translateToFp_of_block o hread]
    exact Fp.block_eq_clip o.fixedPrecision e
  · rw [translateToFp_of_block o hread]
    exact Fp.no_error o.overflowLimit he fun c hc => (hcalls c hc).known
  · have hback := Moodle.block?_clip he hnone hcalls o.fixedPrecision hnesting
    have hwildcards' := Moodle.survey_wildcards_rewrite he hnone hcalls o.fixedPrecision
    have hreport := Moodle.survey_report_rewrite he hnone hcalls o.fixedPrecision
    refine (translateToMoodle_of_block hback).trans ?_
    rw [Moodle.block_clip, Moodle.wildcards, Moodle.survey_clip, Moodle.survey_clip, hreport,
      hwildcards', hwritten]
    rfl

/-- Two minus signs and a literal with an exponent. -/
theorem moodle_round_trip_minus : ∃ t,
    (translateToFp .default r"{=- -sqrt(pow(2, log(1e1)))}".toList).text =
      r"\FPprint{\FPeval{\out}{".toList ++ (t ++ r"}\out}".toList) ∧
    (∀ d ∈ (translateToFp .default r"{=- -sqrt(pow(2, log(1e1)))}".toList).diagnostics,
      d.isError = false) ∧
    translateToMoodle (r"fp{".toList ++ (t ++ r"}".toList)) =
      { text := r"{=(-(-(sqrt(pow(2,log(10))))))}".toList
        diagnostics := []
        wildcards := [] } := by
  have hread : block? .moodle r"{=- -sqrt(pow(2, log(1e1)))}".toList =
      some (.last (.minus (.minus (.call "sqrt".toList (.cons (.last (.call "pow".toList
        (.cons (.last (.number "2".toList)) (.cons (.last (.call "log".toList
          (.cons (.last (.number "1e1".toList)) .nil))) .nil)))) .nil)))), []) := by
    decide +kernel
  obtain ⟨hblock, -⟩ := (block?_eq_some_iff _ _ _ _).1 hread
  obtain ⟨t, htext, herror, hback⟩ := moodle_round_trip .default hblock (by decide)
    (List.forall_mem_cons.2 ⟨.shared .ln _, List.forall_mem_cons.2 ⟨.pow _,
      List.forall_mem_singleton.2 (.sqrt _)⟩⟩) (by decide)
  refine ⟨t, htext, herror, hback.trans ?_⟩
  exact congrArg (Outcome.mk · [] []) (by decide +kernel)

end QuizFormula

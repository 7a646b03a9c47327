import QuizFormula.Proofs.Grammar.Block
import QuizFormula.Proofs.Meaning.Real
import QuizFormula.Proofs.Translation.Degree
import QuizFormula.Proofs.Translation.Names
import QuizFormula.Proofs.Translation.Rewriting

/-!
# What Moodle computes

The text that is written for Moodle is read back as the formula that
`Moodle.rewriting` builds: a call that becomes a minus sign, parentheses or a power of a
fraction is one atom still, wherever it stands. The formula has the value of the `fp`
formula whenever the functions of the two dialects correspond (`Moodle.Agrees`), so
the translation of a block keeps its value (`moodleBlock_keeps_value`).
-/

namespace QuizFormula

namespace Moodle

def reciprocal (e : Expr) : Expr := .chain (.number "1".toList) .div (.last (.group e))

/-- How a root is translated, from its degree and its radicand. -/
def rewriteRoot (degree radicand : Expr) : Atom :=
  if isDegreeTwo degree then .call "sqrt".toList (.cons radicand .nil)
  else .call "pow".toList (.cons radicand (.cons (reciprocal degree) .nil))

theorem depth_rewriteRoot (degree radicand : Expr) :
    (rewriteRoot degree radicand).depth =
      if isDegreeTwo degree then radicand.depth else max radicand.depth (degree.depth + 1) := by
  unfold rewriteRoot
  split
  · exact Nat.max_zero _
  · simp only [reciprocal, Expr.depth, Atom.depth, Args.depth]
    omega

/-- How a call is translated, as trees. Without exactly one argument `neg` and `clip`
have no translation. -/
def rewriteCall (name : Text) (args : Args) : Atom :=
  if name = "root".toList then
    match args with
    | .cons degree (.cons radicand .nil) => rewriteRoot degree radicand
    | _ => .call name args
  else if name = "pow".toList then .call name args.exchange
  else if name = "neg".toList then
    match args with
    | .cons e .nil => .minus (.group e)
    | _ => .call name args
  else if name = "clip".toList then
    match args with
    | .cons e .nil => .group e
    | _ => .call name args
  else if name = "pi".toList then .call name .nil
  else .call (Dialect.moodle.rename name) args

theorem rewriteCall_of_not_mem {n : Text} (hroot : n ≠ "root".toList) (hn : n ∉ rewritten)
    (args : Args) : rewriteCall n args = .call (Dialect.moodle.rename n) args := by
  simp only [mem_rewritten, not_or] at hn
  unfold rewriteCall
  rw [if_neg hroot, if_neg hn.1, if_neg hn.2.1, if_neg hn.2.2.1, if_neg hn.2.2.2]

@[simp] theorem rewriteCall_name (f : SharedFunction) (args : Args) :
    rewriteCall (f.name .fp) args = .call (f.name .moodle) args := by
  obtain ⟨hroot, hn⟩ := name_not_mem_rewritten f
  rw [rewriteCall_of_not_mem hroot hn]
  exact congrArg (Atom.call · args) (Dialect.moodle.rename_name f)

/-- How formulas are translated to Moodle, as trees. -/
def rewriting : Rewriting where
  number l := l
  wildcard n := if n = piName then .call piName .nil else .wildcard n
  minus := .minus
  call := rewriteCall

/-- A number stands where a number stood, and nowhere else. -/
theorem isDegreeTwo_rewrite (e : Expr) : isDegreeTwo (e.rewrite rewriting) = isDegreeTwo e := by
  have hroot : ∀ degree radicand, (rewriteRoot degree radicand).isNumber = false := by
    intro degree radicand
    unfold rewriteRoot
    split <;> rfl
  have hcall : ∀ n args, (rewriteCall n args).isNumber = false := by
    intro n args
    cases n using name_cases with
    | root =>
        match args with
        | .cons degree (.cons radicand .nil) => exact hroot degree radicand
        | .nil | .cons _ .nil | .cons _ (.cons _ (.cons _ _)) => rfl
    | pow => rfl
    | neg =>
        match args with
        | .nil | .cons _ .nil | .cons _ (.cons _ _) => rfl
    | clip =>
        match args with
        | .nil | .cons _ .nil | .cons _ (.cons _ _) => rfl
    | pi => rfl
    | other n hname hother =>
        rw [rewriteCall_of_not_mem hname hother]
        rfl
  have hother : ∀ {a : Atom}, a.isNumber = false → isDegreeTwo (.last a) = false := by
    intro a ha
    cases a with
    | number l => simp [Atom.isNumber] at ha
    | _ => rfl
  cases e with
  | chain a op e => rfl
  | last a =>
      cases a with
      | number l => rfl
      | group e => rfl
      | minus a => rfl
      | call n args => exact hother (hcall n _)
      | wildcard n =>
          apply hother
          simp only [Atom.rewrite, rewriting]
          split <;> rfl

/-! ### What is written -/

@[simp] theorem render_call (n : Text) (args : Args) :
    (Atom.call n args).render rendering = call n (args.render rendering) := rfl

theorem callText_nil_singleton (t : Text) : callText [] [t] = '(' :: (t ++ [')']) :=
  callText_singleton [] t

theorem signedText_pi : SignedText .braced (.call piName .nil) pi :=
  ArgsText.call (by decide) .nil

theorem signedText_wildcard {n : Text} (hn : IsName n) :
    SignedText .braced (.wildcard n) ('{' :: (n ++ ['}'])) := by
  intro r
  refine ⟨[], blank_nil, ?_⟩
  simpa using SignedAt.wildcard (WildcardAt.braced (r := r) hn)

theorem formulaText_reciprocal {e : Expr} {t : Text} (h : FormulaText .braced e t) :
    FormulaText .braced (reciprocal e) ("1/(".toList ++ (t ++ [')'])) := by
  have hone : AtomText .braced (.number "1".toList) "1".toList := .of_isNumber (by decide)
  exact hone.chain (SignedText.group h).atomText.last

theorem signedText_root {degree radicand : Expr} {d x : Text}
    (hd : FormulaText .braced degree d) (hx : FormulaText .braced radicand x)
    (htwo : isTwo d = isDegreeTwo degree) :
    SignedText .braced (rewriteRoot degree radicand) (root d x) := by
  unfold rewriteRoot root
  rw [htwo]
  split
  · exact ArgsText.call (by decide) (.cons hx .nil)
  · exact ArgsText.call (by decide) (.cons hx (.cons (formulaText_reciprocal hd) .nil))

/-- A minus sign and parentheses take the place of calls with one argument only. -/
def IsWritable (n : Text) (args : Args) : Prop :=
  n = "neg".toList ∨ n = "clip".toList → args.length = 1

theorem signedText_call {n : Text} {args : Args} (hn : IsName n) (hwf : args.WellFormed)
    (hargs : IsWritable n args)
    (h : ArgsText .braced (args.rewrite rewriting) (args.render rendering)) :
    SignedText .braced (rewriteCall n (args.rewrite rewriting))
      (call n (args.render rendering)) := by
  cases n using name_cases with
  | root =>
      match args, hwf, h with
      | .cons degree (.cons radicand .nil), hwf, h =>
          -- Whether the degree is two is decided by its text here and by its tree there.
          have htwo : isTwo (degree.render rendering) = isDegreeTwo (degree.rewrite rewriting) := by
            rw [isTwo_render hwf.1, isDegreeTwo_rewrite]
          cases h with
          | cons hd hrest =>
              cases hrest with
              | cons hx hnil => exact signedText_root hd hx htwo
      | .nil, _, h => exact h.call hn
      | .cons _ .nil, _, h => exact h.call hn
      | .cons _ (.cons _ (.cons _ _)), _, h => exact h.call hn
  | pow => exact h.exchange.call hn
  | neg =>
      match args, hargs (.inl rfl), h with
      | .cons e .nil, _, h =>
          cases h with
          | cons he hnil =>
              change SignedText .braced _ ('-' :: callText [] [e.render rendering])
              rw [callText_nil_singleton]
              exact (SignedText.group he).minus
  | clip =>
      match args, hargs (.inr rfl), h with
      | .cons e .nil, _, h =>
          cases h with
          | cons he hnil =>
              change SignedText .braced _ (callText [] [e.render rendering])
              rw [callText_nil_singleton]
              exact SignedText.group he
  | pi => exact signedText_pi
  | other n hroot hother =>
      rw [rewriteCall_of_not_mem hroot hother, call_of_not_mem hroot hother]
      exact h.call (Dialect.moodle.isName_rename hn)

/-- What is written for Moodle is what the rewriting builds. -/
theorem isWrittenBy_rendering : rewriting.IsWrittenBy rendering .braced IsWritable where
  number l hl := ⟨hl, rfl⟩
  wildcard n hn := by
    simp only [rewriting, rendering]
    split
    · exact signedText_pi
    · exact signedText_wildcard hn
  minus a t ha := ha.minus
  call n args hn hwf hargs h := signedText_call hn hwf hargs h

/-! ### What it means -/

/-- The interpretation `S` of formulas for `fp` and the interpretation `T` of Moodle
formulas correspond. -/
structure Agrees {V : Type} (S T : Interpretation V) : Prop where
  operate : T.operate = S.operate
  minus : ∀ x, T.minus x = S.minus x
  number : ∀ l, T.number l = S.number l
  /-- Wildcards have the same values, except for the name that is pi. -/
  wildcard : ∀ n, n ≠ piName → T.wildcard n = S.wildcard n
  /-- The bare name is pi. -/
  bare_pi : S.wildcard piName = T.call piName []
  pi : S.call piName [] = T.call piName []
  neg : ∀ x, S.call "neg".toList [x] = T.minus x
  /-- `clip` leaves its argument as it is. -/
  clip : ∀ x, S.call "clip".toList [x] = x
  /-- A power has its exponent first. -/
  pow : ∀ x y, S.call "pow".toList [y, x] = T.call "pow".toList [x, y]
  /-- A root is a power with the reciprocal of the degree. -/
  root : ∀ n x, S.call "root".toList [n, x] =
    T.call "pow".toList [x, T.operate .div (T.number "1".toList) n]
  /-- The root of degree two is the square root. -/
  root_two : ∀ l x, Literal.value? l = some 2 →
    S.call "root".toList [S.number l, x] = T.call "sqrt".toList [x]
  /-- The functions that both dialects have are the same. -/
  shared : ∀ (f : SharedFunction) xs, T.call (f.name .moodle) xs = S.call (f.name .fp) xs

/-- A function that needs more than a new name has as many arguments as it should. -/
structure HasArity (n : Text) (args : Args) : Prop where
  pow : n = "pow".toList → args.length = 2
  neg : n = "neg".toList → args.length = 1
  clip : n = "clip".toList → args.length = 1
  pi : n = "pi".toList → args.length = 0

/-- A degree that reads as two is exactly two. -/
def HasExactDegree (n : Text) (args : Args) : Prop :=
  n = "root".toList → ∀ l x, args = .cons (.last (.number l)) (.cons x .nil) →
    isTwo l = true → Literal.value? l = some 2

/-- The function is translated, the number of arguments is the right one, and a degree
that reads as two is two. -/
structure IsSupported (n : Text) (args : Args) : Prop extends HasArity n args where
  known : isRewritten n args.length = true ∨ (Dialect.moodle.rename? n).isSome = true
  degree : HasExactDegree n args

theorem isSupported_of_no_error {e : Expr}
    (herror : ∀ d ∈ e.survey report, d.isError = false)
    (harity : ∀ c ∈ e.calls, HasArity c.1 c.2)
    (hdegree : ∀ c ∈ e.calls, HasExactDegree c.1 c.2) (c : Text × Args) (hc : c ∈ e.calls) :
    IsSupported c.1 c.2 where
  toHasArity := harity c hc
  known := by
    by_cases hname : isRewritten c.1 c.2.length = true
    · exact .inl hname
    · right
      apply Dialect.isSome_rename?_of_no_error
      intro d hd
      apply herror d
      apply Expr.mem_survey_of_mem_calls (c := c) _ hc
      change d ∈ if isRewritten c.1 c.2.length then [] else Dialect.moodle.renameReport c.1
      rwa [if_neg hname]
  degree := hdegree c hc

theorem IsSupported.length_root {n : Text} {args : Args} (h : IsSupported n args)
    (hname : n = "root".toList) : args.length = 2 := by
  have hknown := h.known
  rw [hname, isRewritten_iff] at hknown
  rcases hknown with (hmem | hroot) | hrename
  · exact absurd hmem (by decide)
  · exact hroot.2
  · exact absurd hrename (by decide)

section

variable {V : Type} {S T : Interpretation V}

theorem value_rewriteRoot (h : Agrees S T) {degree radicand : Expr}
    (hdegree : ∀ l, degree = .last (.number l) → isTwo l = true → Literal.value? l = some 2) :
    (rewriteRoot degree radicand).value T =
      S.call "root".toList [degree.value T, radicand.value T] := by
  unfold rewriteRoot
  split
  · rename_i htwo
    obtain ⟨l, rfl, hl⟩ := exists_number_of_isDegreeTwo htwo
    have hvalue : (Expr.last (.number l)).value T = S.number l := h.number l
    rw [hvalue, h.root_two l _ (hdegree l rfl hl)]
    rfl
  · rw [h.root]
    rfl

theorem value_rewriteCall (h : Agrees S T) {n : Text} {args : Args} (hn : IsSupported n args)
    (hargs : (args.rewrite rewriting).values T = args.values S) :
    (rewriteCall n (args.rewrite rewriting)).value T = S.call n (args.values S) := by
  rw [← hargs]
  cases n using name_cases with
  | root =>
      match args, hn.length_root rfl, hn.degree rfl with
      | .cons degree (.cons radicand .nil), _, hdegree =>
          apply value_rewriteRoot h
          intro l hl htwo
          -- A rewritten degree is a number only if the degree is that number.
          have hdegreeTwo : isDegreeTwo degree = true := by
            rw [← isDegreeTwo_rewrite, hl]
            exact htwo
          obtain ⟨l', rfl, hl'⟩ := exists_number_of_isDegreeTwo hdegreeTwo
          cases hl
          exact hdegree l' radicand rfl hl'
  | pow =>
      match args, hn.pow rfl with
      | .cons e (.cons e' .nil), _ => exact (h.pow _ _).symm
  | neg =>
      match args, hn.neg rfl with
      | .cons e .nil, _ => exact (h.neg _).symm
  | clip =>
      match args, hn.clip rfl with
      | .cons e .nil, _ => exact (h.clip _).symm
  | pi =>
      match args, hn.pi rfl with
      | .nil, _ => exact h.pi.symm
  | other n hroot hother =>
      have hknown : (Dialect.moodle.rename? n).isSome = true := by
        apply hn.known.resolve_left
        rw [isRewritten_iff]
        rintro (hmem | ⟨hname, -⟩)
        · exact hother hmem
        · exact hroot hname
      obtain ⟨f, rfl, hrename⟩ := Dialect.exists_sharedFunction hknown
      rw [rewriteCall_of_not_mem hroot hother, hrename, Atom.value_call, h.shared]
      rfl

theorem keepsValue_rewriting (h : Agrees S T) :
    rewriting.KeepsValue S T (fun _ => True) IsSupported where
  operate := h.operate
  number := h.number
  wildcard n _ := by
    simp only [rewriting]
    split
    · rename_i hname
      rw [hname]
      exact h.bare_pi.symm
    · rename_i hname
      exact h.wildcard n hname
  minus a := h.minus (a.value T)
  call n args hn hargs := value_rewriteCall h hn hargs

end

/-- Over the real numbers the two dialects correspond, for any values of the
wildcards. -/
theorem agrees_real (wildcards : Text → ℝ) :
    Agrees (.real .fp Literal.real (fun n => if n = piName then Real.pi else wildcards n))
      (.real .moodle Literal.real wildcards) where
  operate := rfl
  minus _ := rfl
  number _ := rfl
  wildcard n hn := by rw [Interpretation.real_wildcard, Interpretation.real_wildcard, if_neg hn]
  bare_pi := by
    rw [Interpretation.real_wildcard, if_pos rfl, Interpretation.real_call]
    exact (Dialect.realCall_pi .moodle).symm
  pi := by
    rw [Interpretation.real_call, Interpretation.real_call]
    exact (Dialect.realCall_pi .fp).trans (Dialect.realCall_pi .moodle).symm
  neg x := by
    rw [Interpretation.real_call, Dialect.fp_realCall_neg, Interpretation.real_minus]
  clip x := by
    rw [Interpretation.real_call, Dialect.fp_realCall_clip]
  pow x y := by
    rw [Interpretation.real_call, Dialect.fp_realCall_pow, Interpretation.real_call,
      Dialect.moodle_realCall_pow]
  root n x := by
    have hone : Literal.real "1".toList = (1 : Nat) := Literal.real_toDigits 1
    rw [Interpretation.real_call, Dialect.fp_realCall_root, Interpretation.real_call,
      Dialect.moodle_realCall_pow, Interpretation.real_operate, Interpretation.real_number,
      hone, Nat.cast_one]
    rfl
  root_two l x hl := by
    rw [Interpretation.real_call, Interpretation.real_number, Literal.real_of_value? hl,
      Rat.cast_ofNat, Dialect.fp_realCall_root_two, Interpretation.real_call]
  shared f xs := by
    rw [Interpretation.real_call, Dialect.realCall_name, Interpretation.real_call,
      Dialect.realCall_name]

end Moodle

/-- The translation of a block to Moodle keeps its value, if no error is reported, the
calls have the right number of arguments and a degree that reads as two is two: what is
written is the block of one formula, and its value is the value of the block. -/
theorem moodleBlock_keeps_value {V : Type} {S T : Interpretation V}
    (hagrees : Moodle.Agrees S T) {s r : Text} {e : Expr} (hblock : block? .fp s = some (e, r))
    (herror : ∀ d ∈ e.survey Moodle.report, d.isError = false)
    (harity : ∀ c ∈ e.calls, Moodle.HasArity c.1 c.2)
    (hdegree : ∀ c ∈ e.calls, Moodle.HasExactDegree c.1 c.2) :
    ∃ e', (∀ e'', BlockAt .moodle e'' (Moodle.block e) [] ↔ e'' = e') ∧
      e'.value T = e.value S := by
  have hsupported := Moodle.isSupported_of_no_error herror harity hdegree
  have hwritable : ∀ c ∈ e.calls, Moodle.IsWritable c.1 c.2 := by
    rintro c hc (hname | hname)
    · exact (hsupported c hc).neg hname
    · exact (hsupported c hc).clip hname
  have htext := Moodle.isWrittenBy_rendering.formulaText (wellFormed_of_block? hblock) hwritable
  obtain ⟨b, hb, hformula⟩ := htext ['}']
  have hwritten : BlockAt .moodle (e.rewrite Moodle.rewriting) (Moodle.block e) [] :=
    .block hformula hb
  refine ⟨e.rewrite Moodle.rewriting, ?_, ?_⟩
  · intro e''
    constructor
    · intro h
      exact (h.unique hwritten).1
    · rintro rfl
      exact hwritten
  · exact (Moodle.keepsValue_rewriting hagrees).value (fun _ _ => trivial) hsupported

/-- Over the real numbers, a square root of a negated wildcard. -/
theorem moodleBlock_keeps_value_root : ∃ e,
    block? .fp r"fp{1-root(2,-x)}".toList = some (e, []) ∧
    ∃ e', (∀ e'', BlockAt .moodle e'' (Moodle.block e) [] ↔ e'' = e') ∧
      e'.value (.real .moodle Literal.real (fun _ => 9)) =
        e.value (.real .fp Literal.real
          (fun n => if n = Moodle.piName then Real.pi else 9)) := by
  have hread : block? .fp r"fp{1-root(2,-x)}".toList =
      some (.chain (.number "1".toList) .sub (.last (.call "root".toList
        (.cons (.last (.number "2".toList))
          (.cons (.last (.minus (.wildcard "x".toList))) .nil)))), []) := by
    decide +kernel
  have hagrees := Moodle.agrees_real (fun _ => 9)
  refine ⟨_, hread, moodleBlock_keeps_value hagrees hread ?_ ?_ ?_⟩
  · decide
  · intro c hc
    rw [List.mem_singleton.1 hc]
    exact ⟨by decide, by decide, by decide, by decide⟩
  · intro c hc
    rw [List.mem_singleton.1 hc]
    intro _ l x hargs _
    cases hargs
    exact Literal.value?_toDigits 2

end QuizFormula

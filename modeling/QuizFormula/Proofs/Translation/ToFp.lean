import QuizFormula.Proofs.Grammar.Plain
import QuizFormula.Proofs.Meaning.Real
import QuizFormula.Proofs.Translation.Names
import QuizFormula.Proofs.Translation.Rewriting

/-!
# What `fp` computes

The text that is written for `fp` is read back as the formula that `Fp.rewriting`
builds, and that formula has the value of the Moodle formula whenever the functions of
the two dialects correspond (`Fp.Agrees`). So the translation of a block keeps its
value (`fpBlock_keeps_value`).
-/

namespace QuizFormula

namespace Fp

/-- How a call is translated, as trees. -/
def rewriteCall (name : Text) (args : Args) : Atom :=
  if name = "sqrt".toList then
    .call "root".toList (.cons (.last (.number "2".toList)) args)
  else if name = "pow".toList then .call name args.exchange
  else if name = "pi".toList then .wildcard piMacro
  else .call (Dialect.fp.rename name) args

theorem rewriteCall_of_not_mem {n : Text} (hn : n ∉ rewritten) (args : Args) :
    rewriteCall n args = .call (Dialect.fp.rename n) args := by
  simp only [mem_rewritten, not_or] at hn
  unfold rewriteCall
  rw [if_neg hn.1, if_neg hn.2.1, if_neg hn.2.2]

@[simp] theorem rewriteCall_name (f : SharedFunction) (args : Args) :
    rewriteCall (f.name .moodle) args = .call (f.name .fp) args := by
  rw [rewriteCall_of_not_mem (name_not_mem_rewritten f)]
  exact congrArg (Atom.call · args) (Dialect.fp.rename_name f)

/-- How formulas are translated to `fp`, as trees. -/
def rewriting (precision : Nat) : Rewriting where
  number := Literal.text precision
  wildcard n := .wildcard (texName n)
  minus a := .call "neg".toList (.cons (.last a) .nil)
  call := rewriteCall

/-! ### What is written -/

theorem signedText_texMacro {n : Text} (hn : IsName n) :
    SignedText .tex (.wildcard (texName n)) (texMacro n) := by
  intro r
  by_cases hpi : texName n = piMacro
  · -- The macro for pi needs no blank, so the blank after it is left over.
    refine ⟨[' '], by simp [Blank, isBlank], ?_⟩
    rw [texMacro, hpi]
    simpa using SignedAt.wildcard (WildcardAt.pi (r := ' ' :: r))
  · refine ⟨[], blank_nil, ?_⟩
    simpa [texMacro] using
      SignedAt.wildcard (WildcardAt.tex (r := r) (isMacroName_texName hn) hpi)

theorem signedText_pi : SignedText .tex (.wildcard piMacro) pi := by
  intro r
  exact ⟨[], blank_nil, .wildcard .pi⟩

/-- A square root is a root of degree two, with a blank in front of its radicand. -/
theorem squareRoot_cons (t : Text) (ts : List Text) :
    squareRoot (t :: ts) = callText "root".toList ("2".toList :: (' ' :: t) :: ts) := by
  have hopening : "root(2, ".toList = "root".toList ++ '(' :: ("2".toList ++ [',', ' ']) := rfl
  have hcomma := commaSeparated_cons_cons "2".toList (' ' :: t) ts
  rw [commaSeparated_cons_append ' ' t ts] at hcomma
  unfold squareRoot callText
  rw [hcomma, hopening]
  simp only [List.append_assoc, List.cons_append, List.nil_append]

theorem signedText_squareRoot {args : Args} {ts : List Text} (hargs : args ≠ .nil)
    (h : ArgsText .tex args ts) :
    SignedText .tex (.call "root".toList (.cons (.last (.number "2".toList)) args))
      (squareRoot ts) := by
  cases h with
  | nil => exact absurd rfl hargs
  | cons he hrest =>
      have hblank : Blank [' '] := by simp [Blank, isBlank]
      have htwo : AtomText .tex (.number "2".toList) "2".toList := .of_isNumber (by decide)
      rw [squareRoot_cons]
      exact ArgsText.call (by decide) (.cons htwo.last (.cons (he.blank_append hblank) hrest))

def IsWritable (n : Text) (args : Args) : Prop := n = "sqrt".toList → args ≠ .nil

theorem signedText_call {n : Text} {args : Args} {ts : List Text} (hn : IsName n)
    (hsqrt : IsWritable n args) (h : ArgsText .tex args ts) :
    SignedText .tex (rewriteCall n args) (call n ts) := by
  cases n using name_cases with
  | sqrt => exact signedText_squareRoot (hsqrt rfl) h
  | pow => exact h.exchange.call hn
  | pi => exact signedText_pi
  | other n hother =>
      rw [rewriteCall_of_not_mem hother, call_of_not_mem hother]
      exact h.call (Dialect.fp.isName_rename hn)

/-- What is written for `fp` is what the rewriting builds. -/
theorem isWrittenBy_rendering (precision : Nat) :
    (rewriting precision).IsWrittenBy (rendering precision) .tex IsWritable where
  number l hl := ⟨Literal.isNumber_text precision hl, rfl⟩
  wildcard n hn := signedText_texMacro hn
  minus a t ha := by
    have hcall := ArgsText.call (n := "neg".toList) (by decide) (.cons ha.atomText.last .nil)
    simpa [callText, commaSeparated, rendering, rewriting] using hcall
  call n args hn _ hsqrt hargs := by
    have hsqrt' : IsWritable n (args.rewrite (rewriting precision)) := by
      intro hname hnil
      apply hsqrt hname
      cases args with
      | nil => rfl
      | cons e args => simp [Args.rewrite] at hnil
    exact signedText_call hn hsqrt' hargs

/-! ### What it means -/

/-- The interpretation `S` of Moodle formulas and the interpretation `T` of formulas
for `fp` correspond. -/
structure Agrees {V : Type} (precision : Nat) (S T : Interpretation V) : Prop where
  operate : T.operate = S.operate
  /-- A literal has the value of the literal that is written for it. -/
  number : ∀ l, T.number (Literal.text precision l) = S.number l
  /-- A wildcard has the value of its macro. -/
  wildcard : ∀ n, texName n ≠ piMacro → T.wildcard (texName n) = S.wildcard n
  /-- The macro for pi is pi. -/
  pi : T.wildcard piMacro = S.call "pi".toList []
  neg : ∀ x, T.call "neg".toList [x] = S.minus x
  /-- A power has its exponent first. -/
  pow : ∀ x y, T.call "pow".toList [y, x] = S.call "pow".toList [x, y]
  /-- The root of degree two is the square root. -/
  root : ∀ x, T.call "root".toList [T.number "2".toList, x] = S.call "sqrt".toList [x]
  /-- The functions that both dialects have are the same. -/
  shared : ∀ (f : SharedFunction) xs, T.call (f.name .fp) xs = S.call (f.name .moodle) xs

/-- A function that needs more than a new name has as many arguments as it should. -/
structure HasArity (n : Text) (args : Args) : Prop where
  sqrt : n = "sqrt".toList → args.length = 1
  pow : n = "pow".toList → args.length = 2
  pi : n = "pi".toList → args.length = 0

/-- The function is translated, and the number of arguments is the right one. -/
structure IsSupported (n : Text) (args : Args) : Prop extends HasArity n args where
  known : n ∈ rewritten ∨ (Dialect.fp.rename? n).isSome = true

theorem isSupported_of_no_error {limit : Binary64} {e : Expr}
    (herror : ∀ d ∈ e.survey (report limit), d.isError = false)
    (harity : ∀ c ∈ e.calls, HasArity c.1 c.2) (c : Text × Args) (hc : c ∈ e.calls) :
    IsSupported c.1 c.2 where
  toHasArity := harity c hc
  known := by
    by_cases hname : c.1 ∈ rewritten
    · exact .inl hname
    · right
      apply Dialect.isSome_rename?_of_no_error
      intro d hd
      apply herror d
      apply Expr.mem_survey_of_mem_calls (c := c) _ hc
      change d ∈ if c.1 ∈ rewritten then [] else Dialect.fp.renameReport c.1
      rwa [if_neg hname]

theorem value_rewriteCall {V : Type} {precision : Nat} {S T : Interpretation V}
    (h : Agrees precision S T) {n : Text} {args : Args} (hn : IsSupported n args) :
    (rewriteCall n args).value T = S.call n (args.values T) := by
  cases n using name_cases with
  | sqrt =>
      match args, hn.sqrt rfl with
      | .cons e .nil, _ => exact h.root (e.value T)
  | pow =>
      match args, hn.pow rfl with
      | .cons e (.cons e' .nil), _ => exact h.pow (e.value T) (e'.value T)
  | pi =>
      match args, hn.pi rfl with
      | .nil, _ => exact h.pi
  | other n hother =>
      obtain ⟨f, rfl, hrename⟩ := Dialect.exists_sharedFunction (hn.known.resolve_left hother)
      rw [rewriteCall_of_not_mem hother, hrename, Atom.value_call, h.shared]
      rfl

theorem keepsValue_rewriting {V : Type} {precision : Nat} {S T : Interpretation V}
    (h : Agrees precision S T) :
    (rewriting precision).KeepsValue S T (fun n => texName n ≠ piMacro) IsSupported where
  operate := h.operate
  number := h.number
  wildcard n hn := h.wildcard n hn
  minus a := h.neg (a.value T)
  call n args hn hargs := by
    have harity : HasArity n (args.rewrite (rewriting precision)) := by
      constructor
      · simpa using hn.sqrt
      · simpa using hn.pow
      · simpa using hn.pi
    rw [← hargs]
    exact value_rewriteCall h ⟨harity, hn.known⟩

/-- Over the real numbers the two dialects correspond, for any values of the macros. -/
theorem agrees_real (precision : Nat) (macros : Text → ℝ) :
    Agrees precision
      (.real .moodle (fun l => Literal.real (Literal.text precision l))
        (fun n => macros (texName n)))
      (.real .fp Literal.real (fun n => if n = piMacro then Real.pi else macros n)) where
  operate := rfl
  number _ := rfl
  wildcard n hn := by rw [Interpretation.real_wildcard, if_neg hn, Interpretation.real_wildcard]
  pi := by
    rw [Interpretation.real_wildcard, if_pos rfl, Interpretation.real_call, Dialect.realCall_pi]
  neg x := by
    rw [Interpretation.real_call, Dialect.fp_realCall_neg, Interpretation.real_minus]
  pow x y := by
    rw [Interpretation.real_call, Dialect.fp_realCall_pow, Interpretation.real_call,
      Dialect.moodle_realCall_pow]
  root x := by
    have htwo : Literal.real "2".toList = 2 := Literal.real_toDigits 2
    rw [Interpretation.real_call, Interpretation.real_number, htwo,
      Dialect.fp_realCall_root_two, Interpretation.real_call]
  shared f xs := by
    rw [Interpretation.real_call, Dialect.realCall_name, Interpretation.real_call,
      Dialect.realCall_name]

end Fp

/-- The translation of a block to `fp` keeps its value, if no error is reported, the
calls have the right number of arguments and no wildcard has the macro of pi: what is
written inside `clip` is one formula, and its value is the value of the block. -/
theorem fpBlock_keeps_value {V : Type} (o : Options) {S T : Interpretation V}
    (hagrees : Fp.Agrees o.fixedPrecision S T) {s r : Text} {e : Expr}
    (hblock : block? .moodle s = some (e, r))
    (herror : ∀ d ∈ e.survey (Fp.report o.overflowLimit), d.isError = false)
    (harity : ∀ c ∈ e.calls, Fp.HasArity c.1 c.2)
    (hpi : ∀ n ∈ e.survey wildcardSurvey, texName n ≠ piMacro) :
    ∃ t e', Fp.block o.fixedPrecision e = Fp.blockOpening ++ (t ++ Fp.blockClosing) ∧
      (∀ e'', IsFormula .tex e'' t ↔ e'' = e') ∧ e'.value T = e.value S := by
  have hsupported := Fp.isSupported_of_no_error herror harity
  have hwritable : ∀ c ∈ e.calls, Fp.IsWritable c.1 c.2 := by
    intro c hc hname hnil
    have hlength := (hsupported c hc).sqrt hname
    simp [hnil, Args.length] at hlength
  have htext : FormulaText .tex (e.rewrite (Fp.rewriting o.fixedPrecision))
      (e.render (Fp.rendering o.fixedPrecision)) :=
    (Fp.isWrittenBy_rendering o.fixedPrecision).formulaText (wellFormed_of_block? hblock)
      hwritable
  refine ⟨e.render (Fp.rendering o.fixedPrecision), e.rewrite (Fp.rewriting o.fixedPrecision),
    rfl, htext.isFormula_iff, ?_⟩
  exact (Fp.keepsValue_rewriting hagrees).value hpi hsupported

/-- Over the real numbers, a square root with two minus signs in front of it. -/
theorem fpBlock_keeps_value_sqrt : ∃ e,
    block? .moodle r"{=1--sqrt({x_1})}".toList = some (e, []) ∧
    ∃ t e', Fp.block 18 e = Fp.blockOpening ++ (t ++ Fp.blockClosing) ∧
      (∀ e'', IsFormula .tex e'' t ↔ e'' = e') ∧
      e'.value (.real .fp Literal.real (fun n => if n = piMacro then Real.pi else 9)) =
        e.value (.real .moodle (fun l => Literal.real (Literal.text 18 l)) (fun _ => 9)) := by
  have hread : block? .moodle r"{=1--sqrt({x_1})}".toList =
      some (.chain (.number "1".toList) .sub (.last (.minus (.call "sqrt".toList
        (.cons (.last (.wildcard "x_1".toList)) .nil)))), []) := by
    decide +kernel
  have hagrees := Fp.agrees_real 18 (fun _ => 9)
  refine ⟨_, hread, fpBlock_keeps_value .default hagrees hread ?_ ?_ ?_⟩
  · decide +kernel
  · intro c hc
    rw [List.mem_singleton.1 hc]
    exact ⟨by decide, by decide, by decide⟩
  · decide

end QuizFormula

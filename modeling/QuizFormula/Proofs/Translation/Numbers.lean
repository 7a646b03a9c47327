import QuizFormula.Proofs.Grammar.Numbers
import QuizFormula.Proofs.Translation.Notes
import QuizFormula.Proofs.Translation.ToFp

/-!
# The numbers in what is written for `fp`

In a block that is written for `fp` the numbers are those of the translated formula, in
their order (`Fp.numbersIn_block`): the prepared numbers of the Moodle formula outside of the
arguments of `pi`, and the degrees of its square roots.
-/

namespace QuizFormula

/-- The survey of the numbers. -/
def numberSurvey : Survey Text where
  number l := [l]
  wildcard _ := []
  call _ _ := []

/-- The surveys of the arguments, one by one. -/
def Args.surveys {β : Type} (v : Survey β) : Args → List (List β)
  | .nil => []
  | .cons e args => e.survey v :: args.surveys v

theorem Args.flatten_surveys {β : Type} (v : Survey β) (args : Args) :
    (args.surveys v).flatten = args.survey v := by
  fun_induction args.surveys v with
  | case1 => rfl
  | case2 e args ih => rw [List.flatten_cons, ih, Args.survey]

theorem Args.surveys_exchange {β : Type} (v : Survey β) (args : Args) :
    args.exchange.surveys v = exchangePair (args.surveys v) := by
  match args with
  | .nil | .cons _ .nil | .cons _ (.cons _ .nil) | .cons _ (.cons _ (.cons _ _)) => rfl

/-! ### The numbers in a written block -/

namespace Fp

theorem numberless_texMacro {n : Text} (hn : IsName n) : Numberless (texMacro n) where
  starts := ⟨'\\', texName n ++ [' '], rfl, rfl, rfl⟩
  opens := by
    have hname : (texName n).any opensOperand = false := by
      apply any_opensOperand_eq_false
      intro c hc
      simp [isTokenChar, hn.isNameChar c (List.mem_of_mem_filter hc)]
    rw [texMacro, List.any_cons, List.any_append, hname]
    rfl

theorem numberless_pi : Numberless pi where
  starts := ⟨'\\', piMacro, rfl, rfl, rfl⟩
  opens := rfl

theorem hasNumbers_squareRoot {ts : List Text} {nss : List (List Text)}
    (h : List.Forall₂ HasNumbers ts nss) :
    HasNumbers (squareRoot ts) (['2'] :: nss.flatten) := by
  intro r _
  have hroot : IsName "root".toList := by decide
  have htwo : IsNumber ['2'] := by decide
  have hopening : "root(2, ".toList = "root".toList ++ '(' :: (['2'] ++ [',', ' ']) := rfl
  have htext : squareRoot ts ++ r =
      "root".toList ++ '(' :: (['2'] ++ ',' :: ' ' :: (commaSeparated ts ++ ')' :: r)) := by
    unfold squareRoot
    rw [hopening]
    simp only [List.append_assoc, List.cons_append, List.nil_append]
  rw [htext, hroot.numbersIn_parenthesis,
    numbersIn_number htwo ((stops_cons _ _ _).2 (by decide)), nextOperand_cons (by decide),
    numbersIn_opener (by decide) (.inl (by decide)), numbersIn_arguments h, List.cons_append]

theorem hasNumbers_call {n : Text} (hn : IsName n) {args : Args} {ts : List Text}
    (h : List.Forall₂ HasNumbers ts (args.surveys numberSurvey)) :
    HasNumbers (call n ts) ((rewriteCall n args).survey numberSurvey) := by
  cases n using name_cases with
  | sqrt =>
      have hroot := hasNumbers_squareRoot h
      rw [Args.flatten_surveys] at hroot
      change HasNumbers (squareRoot ts) (_ ++ [])
      rwa [List.append_nil]
  | pow =>
      have hpow := hasNumbers_callText hn (forall₂_exchangePair h)
      rw [← Args.surveys_exchange, Args.flatten_surveys] at hpow
      change HasNumbers (callText _ (exchangePair ts)) (_ ++ [])
      rwa [List.append_nil]
  | pi => exact numberless_pi.hasNumbers
  | other n hother =>
      have hcall := hasNumbers_callText (Dialect.fp.isName_rename hn) h
      rw [Args.flatten_surveys] at hcall
      rw [call_of_not_mem hother, rewriteCall_of_not_mem hother, Atom.survey]
      change HasNumbers _ (_ ++ [])
      rwa [List.append_nil]

theorem survey_rewrite_minus (precision : Nat) (a : Atom) :
    ((Atom.minus a).rewrite (rewriting precision)).survey numberSurvey =
      (a.rewrite (rewriting precision)).survey numberSurvey :=
  (List.append_nil _).trans (List.append_nil _)

theorem hasNumbers_render (precision : Nat) {e : Expr} (he : e.WellFormed) :
    HasNumbers (e.render (rendering precision))
      ((e.rewrite (rewriting precision)).survey numberSurvey) := by
  have hind : FormulaInduction
      (fun e => HasNumbers (e.render (rendering precision))
        ((e.rewrite (rewriting precision)).survey numberSurvey))
      (fun a => HasNumbers (a.render (rendering precision))
        ((a.rewrite (rewriting precision)).survey numberSurvey))
      (fun args => List.Forall₂ HasNumbers (args.render (rendering precision))
        ((args.rewrite (rewriting precision)).surveys numberSurvey))
      (fun _ => True) (fun _ _ => True) :=
    { last := fun _ ha => ha
      chain := fun _ op _ ha he => ha.chain op he
      number := fun _ hl => (Literal.isNumber_text precision hl).hasNumbers
      wildcard := fun _ hn _ => (numberless_texMacro hn).hasNumbers
      group := fun _ he => he.parenthesized
      call := fun _ _ hn _ _ hargs => hasNumbers_call hn hargs
      minus := fun a ha => by
        have hneg := hasNumbers_callText (n := "neg".toList) (by decide) (.cons ha .nil)
        rw [callText_singleton, List.flatten_singleton] at hneg
        rw [survey_rewrite_minus]
        exact hneg
      nil := .nil
      cons := fun _ _ he hargs => .cons he hargs }
  exact hind.formula he (fun _ _ => trivial) (fun _ _ => trivial)

/-- The numbers in a written block are those of the translated formula. -/
theorem numbersIn_block (precision : Nat) {e : Expr} (he : e.WellFormed) :
    numbersIn (block precision e) =
      (e.rewrite (rewriting precision)).survey numberSurvey := by
  have hopening : blockOpening = r"\FPprint{\FPeval{\out}{clip".toList ++ ['('] := rfl
  have hword : Numberless r"\FPprint{\FPeval{\out}{clip".toList :=
    ⟨⟨'\\', _, rfl, rfl, rfl⟩, rfl⟩
  have hboundary : AtBoundary blockClosing := (stops_cons _ ')' _).2 (by decide)
  have hclosing : nextOperand blockClosing = [] := rfl
  rw [block, hopening, List.append_assoc, List.singleton_append, hword.numbersIn_append,
    nextOperand_cons (by decide), hasNumbers_render precision he _ hboundary, hclosing, numbersIn,
    List.append_nil]

theorem mem_survey_rewriteCall {n : Text} {args : Args} {d : Text}
    (hd : d ∈ (rewriteCall n args).survey numberSurvey) :
    d = ['2'] ∨ d ∈ args.survey numberSurvey := by
  have hcall : ∀ {m : Text} {args' : Args}, d ∈ (Atom.call m args').survey numberSurvey →
      d ∈ args'.survey numberSurvey :=
    fun h => (List.mem_append.1 h).resolve_right List.not_mem_nil
  cases n using name_cases with
  | sqrt => exact (List.mem_cons.1 (hcall hd)).imp_right id
  | pow => exact .inr ((Args.survey_exchange_perm numberSurvey args).mem_iff.1 (hcall hd))
  | pi => exact absurd hd List.not_mem_nil
  | other n hother =>
      rw [rewriteCall_of_not_mem hother] at hd
      exact .inr (hcall hd)

/-- A number in a written block is a prepared number of the formula, or the degree of a square
root. -/
theorem mem_numbersIn_block (precision : Nat) {e : Expr} (he : e.WellFormed) :
    ∀ l ∈ numbersIn (block precision e),
      l = ['2'] ∨ l ∈ (e.survey numberSurvey).map (Literal.text precision) := by
  have hind : FormulaInduction
      (fun e => ∀ l ∈ (e.rewrite (rewriting precision)).survey numberSurvey,
        l = ['2'] ∨ l ∈ (e.survey numberSurvey).map (Literal.text precision))
      (fun a => ∀ l ∈ (a.rewrite (rewriting precision)).survey numberSurvey,
        l = ['2'] ∨ l ∈ (a.survey numberSurvey).map (Literal.text precision))
      (fun args => ∀ l ∈ (args.rewrite (rewriting precision)).survey numberSurvey,
        l = ['2'] ∨ l ∈ (args.survey numberSurvey).map (Literal.text precision))
      (fun _ => True) (fun _ _ => True) :=
    { last := fun _ ha => ha
      chain := fun _ _ _ ha he => by
        rw [Expr.survey, List.map_append]
        refine List.forall_mem_append.2 ⟨?_, ?_⟩
        · exact fun l hl => (ha l hl).imp_right (List.mem_append_left _)
        · exact fun l hl => (he l hl).imp_right (List.mem_append_right _)
      number := fun _ _ _ hl => .inr hl
      wildcard := fun _ _ _ _ hl => absurd hl List.not_mem_nil
      group := fun _ he => he
      call := fun n args _ _ _ hargs l hl => by
        rw [Atom.survey, List.map_append]
        rcases mem_survey_rewriteCall hl with hl | hl
        · exact .inl hl
        · exact (hargs l hl).imp_right (List.mem_append_left _)
      minus := fun a ha => by
        rw [survey_rewrite_minus]
        exact ha
      nil := fun _ hl => absurd hl List.not_mem_nil
      cons := fun _ _ he hargs => by
        rw [Args.survey, List.map_append]
        refine List.forall_mem_append.2 ⟨?_, ?_⟩
        · exact fun l hl => (he l hl).imp_right (List.mem_append_left _)
        · exact fun l hl => (hargs l hl).imp_right (List.mem_append_right _) }
  intro l hl
  rw [numbersIn_block precision he] at hl
  exact hind.formula he (fun _ _ => trivial) (fun _ _ => trivial) l hl

end Fp

end QuizFormula

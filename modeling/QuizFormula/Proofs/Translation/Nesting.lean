import QuizFormula.Proofs.Document.Accepted
import QuizFormula.Proofs.Translation.Constants
import QuizFormula.Proofs.Translation.ToMoodle
import QuizFormula.Proofs.Translation.Writing

/-!
# How deep the translation to Moodle nests

What is written for Moodle is one block of the grammar as long as `neg` and `clip` have one
argument each. Whether Moodle blocks may nest so deep is another matter: the degree of a root
is written in parentheses within an argument of a power, one level deeper than it stood
before. `Expr.sentDepth` counts the levels of what is written from the formula itself, and
what is written is read as one block exactly if they are no more than allowed
(`moodleBlock_accepted_iff`).
-/

namespace QuizFormula

namespace Moodle

/-- The levels in what is written for a call, from the levels in its written arguments. A root
is a power whose exponent has the degree in parentheses, or a square root without a degree;
`pi` has no arguments left. -/
def sentCallDepth (n : Text) (args : Args) (ds : List Nat) : Nat :=
  if n = "root".toList then
    match args, ds with
    | .cons degree (.cons _ .nil), [d, x] => if isDegreeTwo degree then x else max x (d + 1)
    | _, ds => ds.foldr max 0
  else if n = "pi".toList then 0
  else ds.foldr max 0

end Moodle

mutual

/-- How many formulas stand within one another in what is written for Moodle. -/
def Expr.sentDepth : Expr → Nat
  | .last a => a.sentDepth + 1
  | .chain a _ e => max (a.sentDepth + 1) e.sentDepth

def Atom.sentDepth : Atom → Nat
  | .number _ => 0
  | .wildcard _ => 0
  | .group e => e.sentDepth
  | .call n args => Moodle.sentCallDepth n args args.sentDepths
  | .minus a => a.sentDepth

def Args.sentDepths : Args → List Nat
  | .nil => []
  | .cons e args => e.sentDepth :: args.sentDepths

end

def Args.depths : Args → List Nat
  | .nil => []
  | .cons e args => e.depth :: args.depths

theorem Args.depth_eq_foldr (args : Args) : args.depth = args.depths.foldr max 0 := by
  induction args using Args.rec (motive_1 := fun _ => True) (motive_2 := fun _ => True) with
  | nil => rfl
  | cons e args _ ih => exact congrArg (max e.depth) ih
  | _ => trivial

namespace Moodle

theorem depth_rewriteCall (n : Text) (args : Args) :
    (rewriteCall n (args.rewrite rewriting)).depth =
      sentCallDepth n args (args.rewrite rewriting).depths := by
  have hkept := (args.rewrite rewriting).depth_eq_foldr
  cases n using name_cases with
  | root =>
      match args, hkept with
      | .cons degree (.cons radicand .nil), _ =>
          -- Of the degree the rewritten root looks at the rewritten one, which is two alike.
          have hroot := depth_rewriteRoot (degree.rewrite rewriting) (radicand.rewrite rewriting)
          rw [isDegreeTwo_rewrite] at hroot
          exact hroot
      | .nil, hkept | .cons _ .nil, hkept | .cons _ (.cons _ (.cons _ _)), hkept => exact hkept
  | pow => exact (Args.depth_exchange _).trans hkept
  | neg =>
      match args, hkept with
      | .cons e .nil, _ => exact (Nat.max_zero _).symm
      | .nil, hkept | .cons _ (.cons _ _), hkept => exact hkept
  | clip =>
      match args, hkept with
      | .cons e .nil, _ => exact (Nat.max_zero _).symm
      | .nil, hkept | .cons _ (.cons _ _), hkept => exact hkept
  | pi => rfl
  | other n hroot hother =>
      have hpi : n ≠ "pi".toList := fun h => hother (by rw [h]; decide)
      unfold sentCallDepth
      rw [rewriteCall_of_not_mem hroot hother, if_neg hroot, if_neg hpi]
      exact hkept

/-- The depth of what is written for Moodle is told from the formula. -/
theorem depth_rewrite {e : Expr} (he : e.WellFormed) :
    (e.rewrite rewriting).depth = e.sentDepth := by
  have hind : FormulaInduction (fun e => (e.rewrite rewriting).depth = e.sentDepth)
      (fun a => (a.rewrite rewriting).depth = a.sentDepth)
      (fun args => (args.rewrite rewriting).depths = args.sentDepths)
      (fun _ => True) (fun _ _ => True) :=
    { last := fun a ha => congrArg (· + 1) ha
      chain := fun a op e ha he => by
        rw [Expr.rewrite, Expr.depth, Expr.sentDepth, ha, he]
      number := fun _ _ => rfl
      wildcard := fun n _ _ => by
        simp only [Atom.rewrite, rewriting]
        split <;> rfl
      group := fun e he => he
      call := fun n args _ _ _ hargs => by
        rw [Atom.sentDepth, ← hargs]
        exact depth_rewriteCall n args
      minus := fun a ha => ha
      nil := rfl
      cons := fun e args he hargs => by
        rw [Args.rewrite, Args.depths, Args.sentDepths, he, hargs] }
  exact hind.formula he (fun _ _ => trivial) (fun _ _ => trivial)

/-- If the call is a root that has a degree and a radicand, the degree is two. -/
def IsShallow (n : Text) (args : Args) : Prop :=
  n = "root".toList → ∀ degree radicand, args = .cons degree (.cons radicand .nil) →
    isDegreeTwo degree = true

theorem sentCallDepth_le {n : Text} {args : Args} (h : IsShallow n args) (ds : List Nat) :
    sentCallDepth n args ds ≤ ds.foldr max 0 := by
  unfold sentCallDepth
  split
  · rename_i hroot
    split
    · rw [if_pos (h hroot _ _ rfl)]
      simp
    · exact Nat.le_refl _
  · split
    · exact Nat.zero_le _
    · exact Nat.le_refl _

/-- Without a root that becomes a power, what is written nests no deeper than the formula. -/
theorem sentDepth_le_depth {e : Expr} (he : e.WellFormed)
    (hcalls : ∀ c ∈ e.calls, IsShallow c.1 c.2) : e.sentDepth ≤ e.depth := by
  have hind : FormulaInduction (fun e => e.sentDepth ≤ e.depth)
      (fun a => a.sentDepth ≤ a.depth)
      (fun args => args.sentDepths.foldr max 0 ≤ args.depth)
      (fun _ => True) IsShallow :=
    { last := fun a ha => Nat.succ_le_succ ha
      chain := fun a op e ha he => by
        simp only [Expr.sentDepth, Expr.depth]
        omega
      number := fun _ _ => Nat.le_refl 0
      wildcard := fun _ _ _ => Nat.le_refl 0
      group := fun e he => he
      call := fun n args _ _ hc hargs => (sentCallDepth_le hc args.sentDepths).trans hargs
      minus := fun a ha => ha
      nil := Nat.le_refl 0
      cons := fun e args he hargs => by
        simp only [Args.sentDepths, Args.depth, List.foldr_cons]
        omega }
  exact hind.formula he (fun _ _ => trivial) hcalls

end Moodle

/-- What is written for Moodle is a block of the grammar, however deep, if `neg` and `clip`
have one argument each wherever their calls are not left out with the arguments of `pi`. It
is read from its first to its last character as one block exactly if the formula is sent no
deeper than blocks may nest. That is so for every block in which no root becomes a power. -/
theorem moodleBlock_accepted_iff {s : Text} {e : Expr} (he : e ∈ fpBlocks s)
    (harity : ∀ c ∈ (e.rewrite constantPi).calls, Moodle.IsWritable c.1 c.2) :
    (∀ e', BlockAt .moodle e' (Moodle.block e) [] ↔ e' = e.rewrite Moodle.rewriting) ∧
    ((∃ e', block? .moodle (Moodle.block e) = some (e', [])) ↔ e.sentDepth ≤ maxDepth) ∧
    ((∀ c ∈ e.calls, Moodle.IsShallow c.1 c.2) →
      ∃ e', block? .moodle (Moodle.block e) = some (e', [])) := by
  have hwell := wellFormed_of_mem_fpBlocks he
  have hwritten : BlockAt .moodle (e.rewrite Moodle.rewriting) (Moodle.block e) [] := by
    have htext := Moodle.isWrittenBy_rendering.formulaText hwell.rewrite_constantPi harity
    -- Neither what is written nor what is built looks at the arguments of `pi`.
    rw [rewrite_constantPi (fun _ => rfl) hwell, render_constantPi (fun _ => rfl) hwell] at htext
    exact FormulaText.blockAt (d := .moodle) htext
  have hunique : ∀ e', BlockAt .moodle e' (Moodle.block e) [] ↔
      e' = e.rewrite Moodle.rewriting := by
    intro e'
    constructor
    · exact fun h => (h.unique hwritten).1
    · rintro rfl
      exact hwritten
  have hread : (∃ e', block? .moodle (Moodle.block e) = some (e', [])) ↔
      e.sentDepth ≤ maxDepth := by
    simp only [block?_eq_some_iff, hunique, exists_eq_left, Moodle.depth_rewrite hwell]
  refine ⟨hunique, hread, ?_⟩
  intro hshallow
  obtain ⟨u, -, -, hdepth⟩ := (mem_fpBlocks_iff s e).1 he
  exact hread.2 ((Moodle.sentDepth_le_depth hwell hshallow).trans hdepth)

/-- A root within a group, and a call that is left out with the arguments of `pi`. -/
theorem moodleBlock_accepted_iff_root :
    ∃ e ∈ fpBlocks r"fp{(root(3,neg(x)))+pi(clip())}".toList,
      (∀ c ∈ (e.rewrite constantPi).calls, Moodle.IsWritable c.1 c.2) ∧
      ((∃ e', block? .moodle (Moodle.block e) = some (e', [])) ↔ e.sentDepth ≤ maxDepth) ∧
      e.sentDepth = 4 := by
  obtain ⟨e, he, harity, hdepth⟩ :
      ∃ e ∈ fpBlocks r"fp{(root(3,neg(x)))+pi(clip())}".toList,
      (∀ c ∈ (e.rewrite constantPi).calls, Moodle.IsWritable c.1 c.2) ∧ e.sentDepth = 4 := by
    unfold Moodle.IsWritable
    decide +kernel
  exact ⟨e, he, harity, (moodleBlock_accepted_iff he harity).2.1, hdepth⟩

/-- A text in so many pairs of parentheses. -/
def grouped (n : Nat) (t : Text) : Text := List.replicate n '(' ++ (t ++ List.replicate n ')')

/-- Although nothing is reported, what is written is not read back: the degree of the root is
sent one level too deep, and after the minus sign stand two arguments. -/
theorem moodleBlock_refused :
    (∃ e ∈ fpBlocks (r"fp{".toList ++ (grouped 254 "root(3,x)".toList ++ r"}".toList)),
      e.survey Moodle.report = [] ∧ block? .moodle (Moodle.block e) = none) ∧
    ∃ e ∈ fpBlocks r"fp{neg(1,2)}".toList,
      e.survey Moodle.report = [] ∧ block? .moodle (Moodle.block e) = none := by
  decide +kernel

end QuizFormula

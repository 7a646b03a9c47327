import QuizFormula.Proofs.Grammar.Phrase
import QuizFormula.Proofs.Grammar.WellFormed
import QuizFormula.Proofs.Meaning.Value
import QuizFormula.Proofs.Translation.Calls

/-!
# Translation as rewriting

A translation writes each token and each call of a formula in another way. The same
can be done to the formula as a tree: `Expr.rewrite` puts an atom in the place of each
wildcard, minus sign and call. Two properties of a rewriting are about single tokens
and calls, and carry over to whole formulas: that a rendering writes what the rewriting
builds (`Rewriting.IsWrittenBy`), and that values are kept (`Rewriting.KeepsValue`).
-/

namespace QuizFormula

/-- What takes the place of the parts of a formula, from the rewritten smaller
parts. -/
structure Rewriting where
  number : Text → Text
  wildcard : Text → Atom
  minus : Atom → Atom
  call : Text → Args → Atom

mutual

def Expr.rewrite (f : Rewriting) : Expr → Expr
  | .last a => .last (a.rewrite f)
  | .chain a op e => .chain (a.rewrite f) op (e.rewrite f)

def Atom.rewrite (f : Rewriting) : Atom → Atom
  | .number l => .number (f.number l)
  | .wildcard n => f.wildcard n
  | .group e => .group (e.rewrite f)
  | .call n args => f.call n (args.rewrite f)
  | .minus a => f.minus (a.rewrite f)

def Args.rewrite (f : Rewriting) : Args → Args
  | .nil => .nil
  | .cons e args => .cons (e.rewrite f) (args.rewrite f)

end

@[simp] theorem Args.length_rewrite (f : Rewriting) : ∀ args : Args,
    (args.rewrite f).length = args.length
  | .nil => rfl
  | .cons _ args => congrArg (· + 1) (args.length_rewrite f)

/-! ### What is written -/

/-- The rendering `x` writes the parts that the rewriting builds, in the style `w`; for
calls, as far as they satisfy `Q`. -/
structure Rewriting.IsWrittenBy (f : Rewriting) (x : Rendering) (w : WildcardStyle)
    (Q : Text → Args → Prop) : Prop where
  number : ∀ l, IsNumber l → IsNumber (f.number l) ∧ x.number l = f.number l
  wildcard : ∀ n, IsName n → SignedText w (f.wildcard n) (x.wildcard n)
  minus : ∀ a t, SignedText w a t → SignedText w (f.minus a) (x.minus t)
  call : ∀ n args, IsName n → args.WellFormed → Q n args →
    ArgsText w (args.rewrite f) (args.render x) →
      SignedText w (f.call n (args.rewrite f)) (x.call n (args.render x))

section IsWrittenBy

variable {f : Rewriting} {x : Rendering} {w : WildcardStyle} {Q : Text → Args → Prop}

theorem Rewriting.IsWrittenBy.atomText (h : f.IsWrittenBy x w Q) {a : Atom}
    (ha : a.WellFormed)
    (hsigned : a.isNumber = false → SignedText w (a.rewrite f) (a.render x)) :
    AtomText w (a.rewrite f) (a.render x) := by
  cases a with
  | number l =>
      obtain ⟨hl, htext⟩ := h.number l ha
      rw [Atom.render, htext]
      exact .of_isNumber hl
  | wildcard n => exact (hsigned rfl).atomText
  | group e => exact (hsigned rfl).atomText
  | call n args => exact (hsigned rfl).atomText
  | minus a => exact (hsigned rfl).atomText

mutual

/-- What is written for a formula is the rewritten formula. -/
theorem Rewriting.IsWrittenBy.formulaText (h : f.IsWrittenBy x w Q) :
    ∀ {e : Expr}, e.WellFormed → (∀ c ∈ e.calls, Q c.1 c.2) →
      FormulaText w (e.rewrite f) (e.render x)
  | .last _, he, hc => (h.atomText he (h.signedText he hc)).last
  | .chain _ _ _, he, hc => by
      obtain ⟨hca, hce⟩ := List.forall_mem_append.1 hc
      exact (h.atomText he.1 (h.signedText he.1 hca)).chain (h.formulaText he.2 hce)

theorem Rewriting.IsWrittenBy.signedText (h : f.IsWrittenBy x w Q) :
    ∀ {a : Atom}, a.WellFormed → (∀ c ∈ a.calls, Q c.1 c.2) → a.isNumber = false →
      SignedText w (a.rewrite f) (a.render x)
  | .number _, _, _, hnumber => absurd hnumber (by simp [Atom.isNumber])
  | .wildcard n, ha, _, _ => h.wildcard n ha
  | .group _, ha, hc, _ => .group (h.formulaText ha hc)
  | .call n args, ha, hc, _ => by
      obtain ⟨hargs, hcall⟩ := List.forall_mem_append.1 hc
      exact h.call n args ha.1 ha.2 (hcall _ (List.mem_singleton_self _))
        (h.argsText ha.2 hargs)
  | .minus _, ha, hc, _ => h.minus _ _ (h.signedText ha.1 hc ha.2)

theorem Rewriting.IsWrittenBy.argsText (h : f.IsWrittenBy x w Q) :
    ∀ {args : Args}, args.WellFormed → (∀ c ∈ args.calls, Q c.1 c.2) →
      ArgsText w (args.rewrite f) (args.render x)
  | .nil, _, _ => .nil
  | .cons _ _, hargs, hc => by
      obtain ⟨hce, hcargs⟩ := List.forall_mem_append.1 hc
      exact .cons (h.formulaText hargs.1 hce) (h.argsText hargs.2 hcargs)

end

end IsWrittenBy

/-! ### What it means -/

/-- The parts that the rewriting builds mean in `T` what the parts in whose place they
stand mean in `S`; for wildcards and calls, as far as they satisfy `W` and `Q`. -/
structure Rewriting.KeepsValue {V : Type} (f : Rewriting) (S T : Interpretation V)
    (W : Text → Prop) (Q : Text → Args → Prop) : Prop where
  operate : T.operate = S.operate
  number : ∀ l, T.number (f.number l) = S.number l
  wildcard : ∀ n, W n → (f.wildcard n).value T = S.wildcard n
  minus : ∀ a, (f.minus a).value T = S.minus (a.value T)
  call : ∀ n args, Q n args → (args.rewrite f).values T = args.values S →
    (f.call n (args.rewrite f)).value T = S.call n (args.values S)

section KeepsValue

variable {V : Type} {f : Rewriting} {S T : Interpretation V} {W : Text → Prop}
  {Q : Text → Args → Prop}

mutual

theorem Rewriting.KeepsValue.valueAfter (h : f.KeepsValue S T W Q) (sum product : V → V) :
    ∀ {e : Expr}, (∀ n ∈ e.survey wildcardSurvey, W n) → (∀ c ∈ e.calls, Q c.1 c.2) →
      (e.rewrite f).valueAfter T sum product = e.valueAfter S sum product
  | .last _, hw, hc => congrArg (fun v => sum (product v)) (h.atomValue hw hc)
  | .chain a op e, hw, hc => by
      obtain ⟨hwa, hwe⟩ := List.forall_mem_append.1 hw
      obtain ⟨hca, hce⟩ := List.forall_mem_append.1 hc
      have ha := h.atomValue hwa hca
      -- An operator changes what waits on the left, so this is for all of it.
      have he := fun sum product => h.valueAfter sum product hwe hce
      cases op <;> simp only [Expr.rewrite, Expr.valueAfter, ha, he, h.operate]

theorem Rewriting.KeepsValue.atomValue (h : f.KeepsValue S T W Q) :
    ∀ {a : Atom}, (∀ n ∈ a.survey wildcardSurvey, W n) → (∀ c ∈ a.calls, Q c.1 c.2) →
      (a.rewrite f).value T = a.value S
  | .number l, _, _ => h.number l
  | .wildcard n, hw, _ => h.wildcard n (hw n (List.mem_singleton_self n))
  | .group _, hw, hc => h.valueAfter id id hw hc
  | .call n args, hw, hc => by
      obtain ⟨hwargs, -⟩ := List.forall_mem_append.1 hw
      obtain ⟨hcargs, hcall⟩ := List.forall_mem_append.1 hc
      exact h.call n args (hcall _ (List.mem_singleton_self _)) (h.argValues hwargs hcargs)
  | .minus a, hw, hc => by
      have ha := h.atomValue (a := a) hw hc
      rw [Atom.rewrite, h.minus, ha]
      rfl

theorem Rewriting.KeepsValue.argValues (h : f.KeepsValue S T W Q) :
    ∀ {args : Args}, (∀ n ∈ args.survey wildcardSurvey, W n) →
      (∀ c ∈ args.calls, Q c.1 c.2) → (args.rewrite f).values T = args.values S
  | .nil, _, _ => rfl
  | .cons e args, hw, hc => by
      obtain ⟨hwe, hwargs⟩ := List.forall_mem_append.1 hw
      obtain ⟨hce, hcargs⟩ := List.forall_mem_append.1 hc
      rw [Args.rewrite, Args.values_cons, Args.values_cons, h.argValues hwargs hcargs]
      exact congrArg (· :: args.values S) (h.valueAfter id id hwe hce)

end

/-- A rewritten formula has the value of the formula. -/
theorem Rewriting.KeepsValue.value (h : f.KeepsValue S T W Q) {e : Expr}
    (hw : ∀ n ∈ e.survey wildcardSurvey, W n) (hc : ∀ c ∈ e.calls, Q c.1 c.2) :
    (e.rewrite f).value T = e.value S :=
  h.valueAfter id id hw hc

end KeepsValue

end QuizFormula

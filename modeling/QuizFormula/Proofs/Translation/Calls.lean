import Mathlib.Data.List.Forall2
import QuizFormula.Expr.Survey
import QuizFormula.Proofs.Grammar.Phrase
import QuizFormula.Proofs.Meaning.Value

/-!
# The calls of a formula

`Expr.calls` lists the calls of a formula together with their arguments. What a survey
notes of them is noted of the formula (`Expr.mem_survey_of_mem_calls`).
-/

namespace QuizFormula

mutual

/-- The calls in a formula with their arguments, in the order of a survey. -/
def Expr.calls : Expr → List (Text × Args)
  | .last a => a.calls
  | .chain a _ e => a.calls ++ e.calls

def Atom.calls : Atom → List (Text × Args)
  | .number _ => []
  | .wildcard _ => []
  | .group e => e.calls
  | .call n args => args.calls ++ [(n, args)]
  | .minus a => a.calls

def Args.calls : Args → List (Text × Args)
  | .nil => []
  | .cons e args => e.calls ++ args.calls

end

section Survey

variable {β : Type} {v : Survey β} {c : Text × Args} {d : β}

mutual

/-- What a survey notes of a call is among its notes on the formula. -/
theorem Expr.mem_survey_of_mem_calls (hd : d ∈ v.call c.1 c.2.length) :
    ∀ {e : Expr}, c ∈ e.calls → d ∈ e.survey v
  | .last _, h => Atom.mem_survey_of_mem_calls hd h
  | .chain _ _ _, h => by
      rcases List.mem_append.1 h with h | h
      · exact List.mem_append_left _ (Atom.mem_survey_of_mem_calls hd h)
      · exact List.mem_append_right _ (Expr.mem_survey_of_mem_calls hd h)

theorem Atom.mem_survey_of_mem_calls (hd : d ∈ v.call c.1 c.2.length) :
    ∀ {a : Atom}, c ∈ a.calls → d ∈ a.survey v
  | .number _, h => absurd h List.not_mem_nil
  | .wildcard _, h => absurd h List.not_mem_nil
  | .group _, h => Expr.mem_survey_of_mem_calls hd h
  | .call _ _, h => by
      rcases List.mem_append.1 h with h | h
      · exact List.mem_append_left _ (Args.mem_survey_of_mem_calls hd h)
      · rw [List.mem_singleton.1 h] at hd
        exact List.mem_append_right _ hd
  | .minus a, h => Atom.mem_survey_of_mem_calls (a := a) hd h

theorem Args.mem_survey_of_mem_calls (hd : d ∈ v.call c.1 c.2.length) :
    ∀ {args : Args}, c ∈ args.calls → d ∈ args.survey v
  | .nil, h => absurd h List.not_mem_nil
  | .cons _ _, h => by
      rcases List.mem_append.1 h with h | h
      · exact List.mem_append_left _ (Expr.mem_survey_of_mem_calls hd h)
      · exact List.mem_append_right _ (Args.mem_survey_of_mem_calls hd h)

end

end Survey

/-! ### Exchanged arguments -/

/-- The arguments of a power, exchanged. -/
def Args.exchange : Args → Args
  | .cons e (.cons e' .nil) => .cons e' (.cons e .nil)
  | args => args

theorem ArgsText.exchange {w : WildcardStyle} {args : Args} {ts : List Text}
    (h : ArgsText w args ts) : ArgsText w args.exchange (exchangePair ts) := by
  cases h with
  | nil => exact .nil
  | cons he hargs =>
      cases hargs with
      | nil => exact .cons he .nil
      | cons he' hargs' =>
          cases hargs' with
          | nil => exact .cons he' (.cons he .nil)
          | cons he'' hargs'' => exact .cons he (.cons he' (.cons he'' hargs''))

theorem forall₂_exchangePair {α β : Type} {R : α → β → Prop} {l : List α} {m : List β}
    (h : List.Forall₂ R l m) : List.Forall₂ R (exchangePair l) (exchangePair m) := by
  cases h with
  | nil => exact .nil
  | cons ha hl =>
      cases hl with
      | nil => exact .cons ha .nil
      | cons hb hl =>
          cases hl with
          | nil => exact .cons hb (.cons ha .nil)
          | cons hc hl => exact .cons ha (.cons hb (.cons hc hl))

/-! ### Written arguments -/

theorem infix_commaSeparated {t : Text} {ts : List Text} (ht : t ∈ ts) :
    t <:+: commaSeparated ts := by
  induction ts with
  | nil => exact absurd ht List.not_mem_nil
  | cons u us ih =>
      cases us with
      | nil =>
          rw [List.mem_singleton.1 ht]
          simp [commaSeparated]
      | cons v vs =>
          rw [commaSeparated_cons_cons]
          rcases List.mem_cons.1 ht with rfl | ht
          · exact (List.prefix_append _ _).isInfix
          · exact (ih ht).trans ((List.suffix_cons _ _).trans (List.suffix_append _ _)).isInfix

theorem infix_callText (n : Text) {t : Text} {ts : List Text} (ht : t ∈ ts) :
    t <:+: callText n ts := by
  have hargs : commaSeparated ts <:+: callText n ts :=
    ⟨n ++ ['('], [')'], by simp [callText]⟩
  exact (infix_commaSeparated ht).trans hargs

end QuizFormula

import QuizFormula.Proofs.Document.Accepted
import QuizFormula.Proofs.Grammar.Wildcards
import QuizFormula.Proofs.Translation.Constants
import QuizFormula.Proofs.Translation.Degree
import QuizFormula.Proofs.Translation.References

/-!
# Which references a translation carries over

The references to wildcards in the block that is written are those in the block that is
read, as often as they are there, except for those in the arguments of `pi`, which are lost
(`Job.referenceNames_append`). Going to `fp`, underscores are left out of the names; going to
Moodle, the bare name `pi` is no reference.
-/

namespace QuizFormula

/-- References by names in braces. -/
def References.braces : References where
  mark := '{'
  isPart _ := false
  names := bracedNames
  names_nil := rfl
  names_cons := bracedNames_cons_of_ne
  separator := forall_mem_separators (by decide)

namespace Moodle

theorem hasNames_braced {n : Text} (hn : IsName n) :
    References.braces.HasNames ('{' :: (n ++ ['}'])) [n] := by
  intro r _
  rw [List.cons_append, List.append_assoc]
  exact .of_eq (bracedNames_braced hn r)

/-- A written degree that reads as two refers to nothing. -/
theorem names_nil_of_isTwo {d : Text} {ns : List Text} (h : References.braces.HasNames d ns)
    (htwo : isTwo d = true) : ns = [] := by
  have hbrace : '{' ∉ d := by
    obtain ⟨n, hn⟩ := exists_ofText?_of_isTwo htwo
    rw [← Numeral.text_of_ofText? hn]
    exact (Numeral.wellFormed_of_ofText? hn).not_mem_text (by decide) (by decide)
  have hnone := (References.hasNames_of_not_mem (F := .braces) hbrace).names_perm
  exact (h.names_perm.symm.trans hnone).eq_nil

theorem hasNames_root {d x : Text} {ns ms : List Text} (hd : References.braces.HasNames d ns)
    (hx : References.braces.HasNames x ms) :
    References.braces.HasNames (root d x) (ns ++ ms) := by
  unfold root
  split
  · rename_i htwo
    obtain rfl := names_nil_of_isTwo hd htwo
    have hsqrt := References.hasNames_callText (n := "sqrt".toList) (by decide)
      (List.Forall₂.cons hx .nil)
    rwa [List.flatten_singleton] at hsqrt
  · -- The radicand is written before the degree, so the names come in another order.
    have hdegree := (hd.append_singleton (c := ')') (by decide)).prepend (l := "1/(".toList)
      (by decide)
    have hpow := References.hasNames_callText (n := "pow".toList) (by decide)
      (List.Forall₂.cons hx (.cons hdegree .nil))
    rw [List.flatten_cons, List.flatten_singleton] at hpow
    exact hpow.perm List.perm_append_comm

/-- What is written for Moodle has the wildcards in braces, as often as there are
wildcards. -/
theorem finds_braces :
    References.braces.Finds rendering (.ofWildcards fun n => if n = piName then [] else [n])
      (fun n args => n = "pi".toList → args.length = 0) where
  number l hl := References.hasNames_of_not_mem (hl.not_mem (by decide) (by decide))
  wildcard n hn := by
    change References.braces.HasNames (if n = piName then pi else '{' :: (n ++ ['}']))
      (if n = piName then [] else [n])
    split
    · exact References.hasNames_of_not_mem (by decide)
    · exact hasNames_braced hn
  minus t ns ht := ht.prepend (l := ['-']) (by decide)
  call n args nss hn hpi h := by
    change References.braces.HasNames (call n (args.render rendering)) (nss.flatten ++ [])
    rw [List.append_nil]
    have hkept := References.hasNames_callText (hn.not_mem (by decide)) h
    have hclip := References.hasNames_callText (n := []) List.not_mem_nil h
    cases n using name_cases with
    | root =>
        generalize args.render rendering = ts at h hkept
        match ts, nss, h with
        | [d, x], [ns, ms], .cons hd (.cons hx .nil) =>
            have hroot := hasNames_root hd hx
            rwa [List.flatten_cons, List.flatten_singleton]
        | [], _, _ | [_], _, _ | _ :: _ :: _ :: _, _, _ => exact hkept
    | pow =>
        have hpow := References.hasNames_callText (hn.not_mem (by decide))
          (forall₂_exchangePair h)
        exact hpow.perm (References.flatten_exchangePair_perm nss)
    | neg => exact hclip.prepend (l := ['-']) (by decide)
    | clip => exact hclip
    | pi =>
        match args, hpi rfl, h with
        | .nil, _, .nil => exact References.hasNames_of_not_mem (by decide)
    | other n hroot hother =>
        rw [call_of_not_mem hroot hother]
        exact References.hasNames_callText
          ((Dialect.moodle.isName_rename hn).not_mem (by decide)) h

end Moodle

/-! ### Blocks -/

namespace Job

/-- The wildcards that a written text refers to. -/
def referenceNames : Job → Text → List Text
  | toFp _ => macroNames
  | toMoodle => bracedNames

/-- How wildcards are called in what is written. -/
def carry : Job → List Text → List Text
  | toFp _ => List.map texName
  | toMoodle => List.filter (· ≠ "pi".toList)

theorem carry_append (j : Job) (ns ms : List Text) :
    j.carry (ns ++ ms) = j.carry ns ++ j.carry ms := by
  cases j with
  | toFp o => exact List.map_append
  | toMoodle => exact List.filter_append _ _

theorem carry_perm (j : Job) {ns ms : List Text} (h : ns.Perm ms) :
    (j.carry ns).Perm (j.carry ms) := by
  cases j with
  | toFp o => exact h.map _
  | toMoodle => exact h.filter _

end Job

theorem Fp.macroNames_block_perm (precision : Nat) {e : Expr} (he : e.WellFormed)
    (hc : ∀ c ∈ e.calls, c.1 = "pi".toList → c.2.length = 0) :
    (macroNames (block precision e)).Perm ((e.survey wildcardSurvey).map texName) := by
  have hopening : ∀ t, macroNames (blockOpening ++ t) = macroNames t := fun _ => rfl
  have hstops : Stops References.macros.isPart blockClosing :=
    (stops_cons _ ')' r"}\out}".toList).2 (by decide)
  have hrender := (finds_macros precision).hasNames he hc blockClosing hstops
  have hclosing : References.macros.names blockClosing = [] := by decide
  rw [Expr.survey_ofWildcards, ← List.map_eq_flatMap, hclosing, List.append_nil] at hrender
  rw [block, hopening]
  exact hrender

theorem Moodle.bracedNames_block_perm {e : Expr} (he : e.WellFormed)
    (hc : ∀ c ∈ e.calls, c.1 = "pi".toList → c.2.length = 0) :
    (bracedNames (block e)).Perm (wildcards e) := by
  have hopening : ∀ t, bracedNames (Dialect.moodle.opener ++ t) = bracedNames t := fun _ => rfl
  have hrender := finds_braces.hasNames he hc ['}'] ((stops_cons _ _ _).2 rfl)
  have hclosing : References.braces.names ['}'] = [] := by decide
  rw [survey_eq_flatMap_wildcards, List.flatMap_singleton', hclosing, List.append_nil] at hrender
  rw [block, hopening]
  exact hrender

namespace Job

/-- What is written does not depend on the arguments of `pi`. -/
theorem write_constantPi (j : Job) {e : Expr} (he : e.WellFormed) :
    j.write (e.rewrite constantPi) = j.write e := by
  cases j with
  | toFp o =>
      change Fp.block _ _ = Fp.block _ _
      rw [Fp.block, render_constantPi (fun _ => rfl) he, Fp.block]
  | toMoodle =>
      change Moodle.block _ = Moodle.block _
      rw [Moodle.block, render_constantPi (fun _ => rfl) he, Moodle.block]

theorem referenceNames_write_perm (j : Job) {e : Expr} (he : e.WellFormed) :
    (j.referenceNames (j.write e)).Perm
      (j.carry ((e.rewrite constantPi).survey wildcardSurvey)) := by
  have hpi := fun c hc => length_of_mem_calls_constantPi (c := c) he hc
  rw [← j.write_constantPi he]
  cases j with
  | toFp o => exact Fp.macroNames_block_perm o.fixedPrecision he.rewrite_constantPi hpi
  | toMoodle => exact Moodle.bracedNames_block_perm he.rewrite_constantPi hpi

/-- The references in what is written for a formula, together with those in the arguments of
`pi`, are those to its wildcards. -/
theorem referenceNames_append (j : Job) {e : Expr} (he : e.WellFormed) :
    (j.referenceNames (j.write e) ++ j.carry e.underPi).Perm
      (j.carry (e.survey wildcardSurvey)) := by
  refine ((j.referenceNames_write_perm he).append_right _).trans ?_
  rw [← j.carry_append]
  exact j.carry_perm (survey_constantPi_append_underPi he)

/-- No reference is lost if and only if there is none in the arguments of `pi`. -/
theorem referenceNames_perm_iff (j : Job) {e : Expr} (he : e.WellFormed) :
    (j.referenceNames (j.write e)).Perm (j.carry (e.survey wildcardSurvey)) ↔
      j.carry e.underPi = [] := by
  have hall := j.referenceNames_append he
  constructor
  · intro hperm
    have hlength := (hall.trans hperm.symm).length_eq
    rw [List.length_append] at hlength
    exact List.length_eq_zero_iff.1 (Nat.add_eq_left.1 hlength)
  · intro hnil
    rwa [hnil, List.append_nil] at hall

end Job

end QuizFormula

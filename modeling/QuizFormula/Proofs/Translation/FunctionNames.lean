import QuizFormula.Proofs.Document.Accepted
import QuizFormula.Proofs.Grammar.Words
import QuizFormula.Proofs.Translation.Composed

/-!
# Names of functions in what is written

Each dialect has its functions (`Dialect.functions`). If all calls of a formula can be
carried over, the names of functions in what is written for it are functions of the target
dialect (`Job.mem_functions_of_isFunctionIn`), wherever such a name comes from: a new name
of the same function, or a call that is written in another way.
-/

namespace QuizFormula

/-- The functions of the program that evaluates the formulas of the dialect. -/
def Dialect.functions : Dialect → List Text
  | moodle =>
    ["sin", "cos", "tan", "asin", "acos", "atan", "abs", "exp", "log", "min", "max", "pow",
      "sqrt", "pi"].map String.toList
  | fp =>
    ["sin", "cos", "tan", "arcsin", "arccos", "arctan", "abs", "exp", "ln", "min", "max",
      "pow", "root", "neg", "clip"].map String.toList

namespace Job

def target (j : Job) : Dialect := j.source.opposite

/-- The calls that can be carried over are those of functions of the source dialect. Going
to Moodle, pi may be called as well, and a root must have a degree and a radicand. -/
def Translates (j : Job) (n : Text) (arity : Nat) : Prop :=
  match j with
  | toFp _ => n ∈ Dialect.moodle.functions
  | toMoodle =>
    n ∈ "pi".toList :: Dialect.fp.functions ∧ (n = "root".toList → arity = 2)

end Job

/-! ### Calls that can be carried over -/

theorem SharedFunction.isSome_ofName?_iff (d : Dialect) (n : Text) :
    (ofName? d n).isSome = true ↔ ∃ f : SharedFunction, f.name d = n := by
  rw [ofName?, List.find?_isSome]
  simp [mem_all]

theorem SharedFunction.mem_map_name_iff (d : Dialect) (n : Text) :
    n ∈ all.map (name d) ↔ ∃ f : SharedFunction, f.name d = n := by
  simp [mem_all]

/-- The functions of Moodle are those that need more than a new name, and those that both
dialects have. -/
theorem Fp.mem_functions_iff (n : Text) : n ∈ Dialect.moodle.functions ↔
    n ∈ rewritten ∨ ∃ f : SharedFunction, f.name .moodle = n := by
  have hperm : Dialect.moodle.functions.Perm
      (rewritten ++ SharedFunction.all.map (SharedFunction.name .moodle)) := by decide
  rw [hperm.mem_iff, List.mem_append, SharedFunction.mem_map_name_iff]

/-- The functions of `fp`, with pi as one of them, are the root, those that need more than a
new name, and those that both dialects have. -/
theorem Moodle.mem_functions_iff (n : Text) : n ∈ "pi".toList :: Dialect.fp.functions ↔
    n = "root".toList ∨ n ∈ rewritten ∨ ∃ f : SharedFunction, f.name .fp = n := by
  have hperm : ("pi".toList :: Dialect.fp.functions).Perm
      ("root".toList :: (rewritten ++ SharedFunction.all.map (SharedFunction.name .fp))) := by
    decide
  rw [hperm.mem_iff, List.mem_cons, List.mem_append, SharedFunction.mem_map_name_iff]

theorem Moodle.translates_iff (n : Text) (arity : Nat) : Job.toMoodle.Translates n arity ↔
    n = "root".toList ∧ arity = 2 ∨ n ∈ rewritten ∨ ∃ f : SharedFunction, f.name .fp = n := by
  rw [Job.Translates, mem_functions_iff]
  constructor
  · rintro ⟨hroot | h, harity⟩
    · exact .inl ⟨hroot, harity hroot⟩
    · exact .inr h
  · rintro (⟨hroot, harity⟩ | hn | ⟨f, rfl⟩)
    · exact ⟨.inl hroot, fun _ => harity⟩
    · refine ⟨.inr (.inl hn), ?_⟩
      rintro rfl
      exact absurd hn (by decide)
    · exact ⟨.inr (.inr ⟨f, rfl⟩), fun hroot => absurd hroot (name_not_mem_rewritten f).1⟩

theorem Job.supports_iff (j : Job) (n : Text) (arity : Nat) :
    j.supports n arity = true ↔ j.Translates n arity := by
  cases j with
  | toFp o =>
      rw [supports, Bool.or_eq_true, decide_eq_true_eq, SharedFunction.isSome_ofName?_iff,
        Translates, Fp.mem_functions_iff]
  | toMoodle =>
      rw [supports, Bool.or_eq_true, Moodle.isRewritten_iff, SharedFunction.isSome_ofName?_iff,
        Moodle.translates_iff, or_comm (a := n ∈ Moodle.rewritten), or_assoc]

/-! ### Names of functions -/

/-- The names of functions in the text are in `F`, whatever stands before and after it. -/
def Calls (F : List Text) (l : Text) : Prop :=
  ∀ joined t, ∀ n ∈ functionNames joined (l ++ t), n ∈ F ∨ n ∈ functionNames false t

section Calls

variable {F : List Text}

theorem functionNames_subset (joined : Bool) (t : Text) :
    functionNames joined t ⊆ functionNames false t := by
  cases t with
  | nil => exact List.Subset.refl _
  | cons c t =>
      apply List.map_subset
      apply List.filter_subset
      cases joined with
      | false => exact List.Subset.refl _
      | true => exact List.subset_append_right _ _

theorem calls_of_words {l : Text}
    (h : ∀ joined t, functionNames joined (l ++ t) ⊆ functionNames false t) : Calls F l :=
  fun joined t _ hn => .inr (h joined t hn)

theorem composed_calls (F : List Text) : Composed (Calls F) where
  nil := calls_of_words functionNames_subset
  separator c hc := calls_of_words fun joined t => by
    rw [functionNames, List.singleton_append, words_of_separator hc, functionNames]
    exact List.Subset.refl _
  append {l r} hl hr joined t n hn := by
    rw [List.append_assoc] at hn
    rcases hl joined _ n hn with hn | hn
    · exact .inl hn
    · exact hr false t n hn

theorem calls_number {l : Text} (hl : IsNumber l) : Calls F l :=
  calls_of_words fun joined t => by
    rw [functionNames, words_of_isNumber hl]
    exact functionNames_subset true t

/-- A name with a parenthesis after it is the name of a function. -/
theorem calls_name {n : Text} (hn : IsName n) (hmem : n ∈ F) : Calls F (n ++ ['(']) := by
  intro joined t m hm
  have hopen : AtBoundary ('(' :: t) := (stops_cons _ _ _).2 rfl
  rw [List.append_assoc, List.singleton_append, functionNames, words_of_isName hn hopen,
    words_of_separator (by decide)] at hm
  rw [List.filter_append, List.map_append] at hm
  rcases List.mem_append.1 hm with hm | hm
  · left
    obtain ⟨w, hw, rfl⟩ := List.mem_map.1 hm
    have hw := List.mem_of_mem_filter hw
    -- Joined to a token before it, the name is no word.
    cases joined with
    | false => rwa [List.mem_singleton.1 hw]
    | true => exact absurd hw List.not_mem_nil
  · exact .inr hm

theorem isTokenChar_of_isMacroName {m : Text} (hm : IsMacroName m) :
    ∀ c ∈ m, isTokenChar c = true := by
  intro c hc
  simp [isTokenChar, isNameChar, hm.2 c hc]

theorem calls_texMacro {n : Text} (hn : IsName n) : Calls F (texMacro n) :=
  calls_of_words fun joined t => by
    have htoken := isTokenChar_of_isMacroName (isMacroName_texName hn)
    have hjoint : isJoint '\\' = true := by decide
    have hmacro : texMacro n ++ t = '\\' :: (texName n ++ ' ' :: t) := by simp [texMacro]
    rw [functionNames, hmacro, words_cons rfl, hjoint, words_of_isTokenChar htoken,
      words_of_isBlank rfl, functionNames]
    exact List.Subset.refl _

theorem calls_pi : Calls F Fp.pi :=
  calls_of_words fun joined t => by
    have htoken := isTokenChar_of_isMacroName isMacroName_piMacro
    have hjoint : isJoint '\\' = true := by decide
    rw [functionNames, Fp.pi, List.cons_append, words_cons rfl, hjoint,
      words_of_isTokenChar htoken]
    exact functionNames_subset true t

theorem calls_blank : Calls F [' '] :=
  calls_of_words fun joined t => by
    rw [functionNames, List.singleton_append, words_of_isBlank rfl, functionNames]
    exact List.Subset.refl _

theorem calls_braced {n : Text} (hn : IsName n) : Calls F ('{' :: (n ++ ['}'])) :=
  calls_of_words fun joined t => by
    have hclose : AtBoundary ('}' :: t) := (stops_cons _ _ _).2 rfl
    have hopen : isJoint '{' = false := by decide
    have hnext : nextChar ('}' :: t) = some '}' :=
      nextChar_append_cons (b := []) blank_nil (by decide) t
    have hwords : words joined ('{' :: (n ++ '}' :: t)) = (n, '}' :: t) :: words false t := by
      rw [words_cons rfl, hopen, words_of_isName hn hclose, words_cons rfl]
      rfl
    rw [functionNames, List.cons_append, List.append_assoc, List.singleton_append, hwords,
      List.filter_cons_of_neg (by simp [hnext]), functionNames]
    exact List.Subset.refl _

end Calls

/-! ### Blocks -/

namespace Fp

/-- Before a formula `clip` is called, and after it nothing is. -/
theorem calls_block (precision : Nat) {e : Expr}
    (h : Calls Dialect.fp.functions (e.render (rendering precision))) :
    Calls Dialect.fp.functions (block precision e) := by
  have hcomposed := composed_calls Dialect.fp.functions
  have hmacros : Calls Dialect.fp.functions r"\FPprint{\FPeval{\out}{".toList :=
    calls_of_words fun joined t => by cases joined <;> exact List.Subset.refl _
  have hopening : Calls Dialect.fp.functions blockOpening :=
    hcomposed.append hmacros (calls_name (n := "clip".toList) (by decide) (by decide))
  have hclosing : Calls Dialect.fp.functions blockClosing :=
    calls_of_words fun joined t => by cases joined <;> exact List.Subset.refl _
  exact hcomposed.append hopening (hcomposed.append h hclosing)

theorem rename_mem_functions {n : Text} (hn : n ∈ Dialect.moodle.functions)
    (hsqrt : n ≠ "sqrt".toList) (hpi : n ≠ "pi".toList) :
    Dialect.fp.rename n ∈ Dialect.fp.functions := by
  have hall : ∀ n ∈ Dialect.moodle.functions, n ≠ "sqrt".toList → n ≠ "pi".toList →
      Dialect.fp.rename n ∈ Dialect.fp.functions := by decide
  exact hall n hn hsqrt hpi

theorem calls_render (precision : Nat) {e : Expr} (he : e.WellFormed)
    (hc : ∀ c ∈ e.calls, c.1 ∈ Dialect.moodle.functions) :
    Calls Dialect.fp.functions (e.render (rendering precision)) := by
  have hcomposed := composed_calls Dialect.fp.functions
  apply hcomposed.render (Q := fun n _ => n ∈ Dialect.moodle.functions) _ _ _ _ he hc
  · exact fun l hl => calls_number (Literal.isNumber_text precision hl)
  · exact fun n hn => calls_texMacro hn
  · intro t ht
    have hneg := hcomposed.callText (calls_name (n := "neg".toList) (by decide) (by decide))
      (List.forall_mem_singleton.2 ht)
    rwa [callText_singleton] at hneg
  · intro n ts hn hfunction hts
    apply composed_call hcomposed (fun l => calls_number) calls_blank calls_pi
      (calls_name (by decide) (by decide)) _ hts
    exact fun hsqrt hpi => calls_name (Dialect.fp.isName_rename hn)
      (rename_mem_functions hfunction hsqrt hpi)

end Fp

namespace Moodle

theorem calls_block {e : Expr} (h : Calls Dialect.moodle.functions (e.render rendering)) :
    Calls Dialect.moodle.functions (block e) := by
  have hcomposed := composed_calls Dialect.moodle.functions
  have hopening : Calls Dialect.moodle.functions Dialect.moodle.opener :=
    calls_of_words fun joined t => by cases joined <;> exact List.Subset.refl _
  have hclosing : Calls Dialect.moodle.functions ['}'] :=
    calls_of_words fun joined t => by cases joined <;> exact List.Subset.refl _
  exact hcomposed.append hopening (hcomposed.append h hclosing)

theorem rename_mem_functions {n : Text} (hn : n ∈ "pi".toList :: Dialect.fp.functions)
    (hroot : n ≠ "root".toList) (hneg : n ≠ "neg".toList) (hclip : n ≠ "clip".toList) :
    Dialect.moodle.rename n ∈ Dialect.moodle.functions := by
  have hall : ∀ n ∈ "pi".toList :: Dialect.fp.functions, n ≠ "root".toList →
      n ≠ "neg".toList → n ≠ "clip".toList →
        Dialect.moodle.rename n ∈ Dialect.moodle.functions := by decide
  exact hall n hn hroot hneg hclip

theorem calls_render {e : Expr} (he : e.WellFormed)
    (hc : ∀ c ∈ e.calls, Job.toMoodle.Translates c.1 c.2.length) :
    Calls Dialect.moodle.functions (e.render rendering) := by
  have hcomposed := composed_calls Dialect.moodle.functions
  apply hcomposed.render (Q := Job.toMoodle.Translates) _ _ _ _ he hc
  · exact fun l hl => calls_number hl
  · intro n hn
    change Calls _ (if n = piName then pi else '{' :: (n ++ ['}']))
    split
    · exact hcomposed.append (calls_name (n := piName) (by decide) (by decide))
        (hcomposed.separator ')' (by decide))
    · exact calls_braced hn
  · exact fun t ht => hcomposed.append (hcomposed.separator '-' (by decide)) ht
  · rintro n ts hn ⟨hfunction, harity⟩ hts
    apply composed_call hcomposed (fun l => calls_number) (calls_name (by decide) (by decide))
      (calls_name (by decide) (by decide)) _ hts
    exact fun hroot hneg hclip => calls_name (Dialect.moodle.isName_rename hn)
      (rename_mem_functions hfunction (fun h => hroot h (harity h)) hneg hclip)

end Moodle

namespace Job

theorem calls_write (j : Job) {e : Expr} (he : e.WellFormed)
    (hc : ∀ c ∈ e.survey callSurvey, j.Translates c.1 c.2) :
    Calls j.target.functions (j.write e) := by
  have hcalls : ∀ c ∈ e.calls, j.Translates c.1 c.2.length := fun c hmem =>
    hc (c.1, c.2.length) (Expr.mem_survey_of_mem_calls (List.mem_singleton_self _) hmem)
  cases j with
  | toFp o => exact Fp.calls_block _ (Fp.calls_render _ he hcalls)
  | toMoodle => exact Moodle.calls_block (Moodle.calls_render he hcalls)

/-- If all calls of a formula can be carried over, what is written for it has functions of
the target dialect only. -/
theorem mem_functions_of_isFunctionIn (j : Job) {e : Expr} (he : e.WellFormed)
    (hc : ∀ c ∈ e.survey callSurvey, j.Translates c.1 c.2) {n : Text}
    (hn : IsFunctionIn n (j.write e)) : n ∈ j.target.functions := by
  rw [← mem_functionNames_iff, ← List.append_nil (j.write e)] at hn
  rcases j.calls_write he hc false [] n hn with hn | hn
  · exact hn
  · exact absurd hn List.not_mem_nil

end Job

end QuizFormula

import Mathlib.Data.List.Forall2
import QuizFormula.Proofs.Grammar.Characters
import QuizFormula.Proofs.Grammar.Plain
import QuizFormula.Proofs.Translation.Names
import QuizFormula.Proofs.Translation.Notes

/-!
# References to wildcards in a text

What is written for a formula refers to its wildcards, and to nothing else. A reference
begins with a mark that nothing else in a formula has, so the references in a text are
found by going from mark to mark (`References`). The references in a formula are those in
its parts, whatever comes after it (`References.Finds.hasNames`), where the order may
change with the order of arguments.
-/

namespace QuizFormula

/-- How the names that a text refers to are found. -/
structure References where
  /-- The character with which a reference begins. -/
  mark : Char
  /-- The characters that can go on with a reference. -/
  isPart : Char → Bool
  /-- The names that a text refers to. -/
  names : Text → List Text
  names_nil : names [] = []
  names_cons : ∀ {c : Char} (t : Text), c ≠ mark → names (c :: t) = names t
  separator : ∀ c ∈ separators, c ≠ mark ∧ isPart c = false

namespace References

variable (F : References)

/-- The text refers to the names `ns`, whatever comes after it. -/
def HasNames (t : Text) (ns : List Text) : Prop :=
  ∀ r, Stops F.isPart r → (F.names (t ++ r)).Perm (ns ++ F.names r)

variable {F}

theorem names_append {l : Text} (hl : F.mark ∉ l) (r : Text) : F.names (l ++ r) = F.names r := by
  induction l with
  | nil => rfl
  | cons c l ih =>
      rw [List.mem_cons, not_or] at hl
      rw [List.cons_append, F.names_cons _ (Ne.symm hl.1), ih hl.2]

theorem HasNames.perm {t : Text} {ns ms : List Text} (h : F.HasNames t ns) (hns : ns.Perm ms) :
    F.HasNames t ms :=
  fun r hr => (h r hr).trans (hns.append_right _)

theorem HasNames.names_perm {t : Text} {ns : List Text} (h : F.HasNames t ns) :
    (F.names t).Perm ns := by
  have hend := h [] (stops_nil _)
  rwa [List.append_nil, F.names_nil, List.append_nil] at hend

theorem hasNames_of_not_mem {l : Text} (hl : F.mark ∉ l) : F.HasNames l [] := by
  intro r _
  rw [names_append hl, List.nil_append]

theorem HasNames.prepend {l t : Text} {ns : List Text} (hl : F.mark ∉ l)
    (h : F.HasNames t ns) : F.HasNames (l ++ t) ns := by
  intro r hr
  rw [List.append_assoc, names_append hl]
  exact h r hr

/-- The names in two texts with a separator between them. -/
theorem HasNames.append_cons {t u : Text} {ns ms : List Text} {c : Char}
    (ht : F.HasNames t ns) (hc : c ∈ separators) (hu : F.HasNames u ms) :
    F.HasNames (t ++ c :: u) (ns ++ ms) := by
  intro r hr
  obtain ⟨hmark, hpart⟩ := F.separator _ hc
  have hboth := ht (c :: (u ++ r)) ((stops_cons _ _ _).2 hpart)
  rw [F.names_cons _ hmark] at hboth
  rw [List.append_assoc, List.cons_append, List.append_assoc]
  exact hboth.trans ((hu r hr).append_left ns)

theorem HasNames.append_singleton {t : Text} {ns : List Text} {c : Char}
    (ht : F.HasNames t ns) (hc : c ∈ separators) : F.HasNames (t ++ [c]) ns := by
  have hboth := ht.append_cons hc (hasNames_of_not_mem (l := []) List.not_mem_nil)
  rwa [List.append_nil] at hboth

theorem HasNames.parenthesized {t : Text} {ns : List Text} (h : F.HasNames t ns) :
    F.HasNames ('(' :: (t ++ [')'])) ns := by
  have hopen : F.mark ∉ ['('] := by
    rw [List.mem_singleton]
    exact (F.separator '(' (by decide)).1.symm
  exact (h.append_singleton (by decide)).prepend hopen

theorem hasNames_commaSeparated {ts : List Text} {nss : List (List Text)}
    (h : List.Forall₂ F.HasNames ts nss) : F.HasNames (commaSeparated ts) nss.flatten := by
  induction h with
  | nil => exact hasNames_of_not_mem List.not_mem_nil
  | @cons t ns ts nss ht hts ih =>
      rw [List.flatten_cons]
      cases hts with
      | nil => simpa [commaSeparated] using ht
      | cons hu hus =>
          rw [commaSeparated_cons_cons]
          exact ht.append_cons (by decide) ih

theorem hasNames_callText {n : Text} {ts : List Text} {nss : List (List Text)}
    (hn : F.mark ∉ n) (h : List.Forall₂ F.HasNames ts nss) :
    F.HasNames (callText n ts) nss.flatten :=
  (hasNames_commaSeparated h).parenthesized.prepend hn

theorem flatten_exchangePair_perm (nss : List (List Text)) :
    (exchangePair nss).flatten.Perm nss.flatten := by
  match nss with
  | [] | [_] | _ :: _ :: _ :: _ => exact .refl _
  | [ns, ms] =>
      simpa [exchangePair] using List.perm_append_comm

/-- In what is written for the parts of a formula the survey says which names there are;
for calls, as far as they satisfy `Q`. -/
structure Finds (F : References) (x : Rendering) (v : Survey Text) (Q : Text → Args → Prop) :
    Prop where
  number : ∀ l, IsNumber l → F.HasNames (x.number l) (v.number l)
  wildcard : ∀ n, IsName n → F.HasNames (x.wildcard n) (v.wildcard n)
  minus : ∀ t ns, F.HasNames t ns → F.HasNames (x.minus t) ns
  call : ∀ n args nss, IsName n → Q n args → List.Forall₂ F.HasNames (args.render x) nss →
    F.HasNames (x.call n (args.render x)) (nss.flatten ++ v.call n args.length)

/-- The names that a written formula refers to. -/
theorem Finds.hasNames {x : Rendering} {v : Survey Text} {Q : Text → Args → Prop}
    (h : F.Finds x v Q) {e : Expr} (he : e.WellFormed) (hc : ∀ c ∈ e.calls, Q c.1 c.2) :
    F.HasNames (e.render x) (e.survey v) := by
  have hind : FormulaInduction (fun e => F.HasNames (e.render x) (e.survey v))
      (fun a => F.HasNames (a.render x) (a.survey v))
      (fun args => ∃ nss, List.Forall₂ F.HasNames (args.render x) nss ∧
        nss.flatten = args.survey v) (fun _ => True) Q :=
    { last := fun a ha => ha
      chain := fun a op e ha he => ha.append_cons op.char_mem_separators he
      number := h.number
      wildcard := fun n hn _ => h.wildcard n hn
      group := fun e he => he.parenthesized
      call := by
        rintro n args hn - hq ⟨nss, hargs, hflatten⟩
        have hcall := h.call n args nss hn hq hargs
        rwa [hflatten] at hcall
      minus := fun a ha => h.minus _ _ ha
      nil := ⟨[], .nil, rfl⟩
      cons := by
        rintro e args he ⟨nss, hargs, hflatten⟩
        refine ⟨e.survey v :: nss, .cons he hargs, ?_⟩
        rw [List.flatten_cons, hflatten]
        rfl }
  exact hind.formula he (fun _ _ => trivial) hc

end References

/-- The bare name that is pi is not among the wildcards that Moodle gets. -/
theorem Moodle.survey_eq_flatMap_wildcards {β : Type} (g : Text → List β) (e : Expr) :
    e.survey (.ofWildcards fun n => if n = piName then [] else g n) =
      (wildcards e).flatMap g := by
  rw [Expr.survey_ofWildcards, wildcards]
  induction e.survey wildcardSurvey with
  | nil => rfl
  | cons n ns ih =>
      rw [List.flatMap_cons, ih]
      by_cases hpi : n = piName
      · simp [hpi]
      · simp [hpi]

/-! ### Macros

The macros of wildcards are ended by a blank, and so are told apart from the macro for
pi. -/

/-- The name at the start of the text, if a blank ends it. -/
def blankEnded? (t : Text) : Option Text :=
  if t.takeWhile Char.isAlphanum ≠ [] ∧ (t.dropWhile Char.isAlphanum).head? = some ' ' then
    some (t.takeWhile Char.isAlphanum)
  else none

/-- The names of the macros in a text that a blank ends. -/
def macroNames : Text → List Text
  | [] => []
  | c :: t => if c = '\\' then (blankEnded? t).toList ++ macroNames t else macroNames t

theorem macroNames_cons_of_ne {c : Char} (t : Text) (hc : c ≠ '\\') :
    macroNames (c :: t) = macroNames t :=
  if_neg hc

theorem macroNames_backslash (t : Text) :
    macroNames ('\\' :: t) = (blankEnded? t).toList ++ macroNames t :=
  if_pos rfl

theorem blankEnded?_append {n : Text} (hn : IsMacroName n) (r : Text) :
    blankEnded? (n ++ ' ' :: r) = some n := by
  have hr : Stops Char.isAlphanum (' ' :: r) := by
    rw [stops_cons]
    decide
  rw [blankEnded?, takeWhile_append_of_stops hn.2 hr, dropWhile_append_of_stops hn.2 hr,
    if_pos ⟨hn.1, rfl⟩]

theorem blankEnded?_eq_some_iff (t n : Text) :
    blankEnded? t = some n ↔ IsMacroName n ∧ n ++ [' '] <+: t := by
  constructor
  · intro h
    rw [blankEnded?, Option.ite_none_right_eq_some] at h
    obtain ⟨⟨hne, hblank⟩, hn⟩ := h
    obtain ⟨r, hr⟩ := List.head?_eq_some_iff.1 hblank
    rw [← Option.some.inj hn]
    refine ⟨⟨hne, fun c hc => List.mem_takeWhile_imp hc⟩, r, ?_⟩
    rw [List.append_assoc, List.singleton_append, ← hr, List.takeWhile_append_dropWhile]
  · rintro ⟨hn, r, rfl⟩
    rw [List.append_assoc]
    exact blankEnded?_append hn r

/-- The names are those that stand in the text between a backslash and a blank. -/
theorem mem_macroNames_iff (n t : Text) :
    n ∈ macroNames t ↔ IsMacroName n ∧ '\\' :: (n ++ [' ']) <:+: t := by
  induction t with
  | nil => simp [macroNames]
  | cons c t ih =>
      rw [List.infix_cons_iff, List.cons_prefix_cons, and_or_left, ← ih]
      by_cases hc : c = '\\'
      · subst hc
        rw [macroNames_backslash, List.mem_append, Option.mem_toList, blankEnded?_eq_some_iff]
        simp
      · rw [macroNames_cons_of_ne t hc]
        simp [Ne.symm hc]

/-- References by macros. -/
def References.macros : References where
  mark := '\\'
  isPart c := c.isAlphanum || c = ' '
  names := macroNames
  names_nil := rfl
  names_cons := macroNames_cons_of_ne
  separator := forall_mem_separators (by decide)

namespace Fp

theorem hasNames_texMacro {n : Text} (hn : IsName n) :
    References.macros.HasNames (texMacro n) [texName n] := by
  intro r _
  have htex := isMacroName_texName hn
  have hslash : '\\' ∉ texName n ++ [' '] := by
    intro h
    rcases List.mem_append.1 h with h | h
    · exact htex.not_mem (by decide) h
    · exact absurd (List.mem_singleton.1 h) (by decide)
  have hblank : texName n ++ [' '] ++ r = texName n ++ ' ' :: r := by simp
  change (macroNames ('\\' :: (texName n ++ [' '] ++ r))).Perm _
  rw [macroNames_backslash, hblank, blankEnded?_append htex, ← hblank]
  exact (References.names_append (F := .macros) hslash r).symm ▸ .refl _

/-- The macro for pi has no blank after it, and the text that comes next does not begin
with one. -/
theorem hasNames_pi : References.macros.HasNames pi [] := by
  intro r hr
  have halnum : Stops Char.isAlphanum r := hr.mono fun c hc => Bool.or_eq_true_iff.2 (.inl hc)
  have hblank : r.head? ≠ some ' ' := fun h => absurd (hr ' ' h) (by decide)
  have hnone : blankEnded? (piMacro ++ r) = none := by
    rw [blankEnded?, dropWhile_append_of_stops isMacroName_piMacro.2 halnum]
    exact if_neg fun h => hblank h.2
  have hslash : '\\' ∉ piMacro := by decide
  change (macroNames ('\\' :: (piMacro ++ r))).Perm _
  rw [macroNames_backslash, hnone]
  exact (References.names_append (F := .macros) hslash r).symm ▸ .refl _

/-- What is written for `fp` refers to its wildcards by macros, and besides at most to pi. -/
theorem finds_of_mark {F : References} (hmark : F.mark = '\\') {v : Survey Text}
    {precision : Nat} (number : ∀ l, v.number l = [])
    (wildcard : ∀ n, IsName n → F.HasNames (texMacro n) (v.wildcard n))
    (pi : F.HasNames pi (v.call "pi".toList 0))
    (call : ∀ n arity, n ≠ "pi".toList → v.call n arity = []) :
    F.Finds (rendering precision) v (fun n args => n = "pi".toList → args.length = 0) where
  number l hl := by
    rw [number]
    apply References.hasNames_of_not_mem
    rw [hmark]
    exact (Literal.isNumber_text precision hl).not_mem (by decide) (by decide)
  wildcard := wildcard
  minus t ns ht := by
    refine (ht.append_singleton (by decide)).prepend (l := "neg(".toList) ?_
    rw [hmark]
    decide
  call n args nss hn hpi h := by
    change F.HasNames (Fp.call n (args.render (rendering precision))) _
    cases n using name_cases with
    | sqrt =>
        rw [call _ _ (by decide), List.append_nil]
        refine ((References.hasNames_commaSeparated h).append_singleton (by decide)).prepend
          (l := "root(2, ".toList) ?_
        rw [hmark]
        decide
    | pow =>
        rw [call _ _ (by decide), List.append_nil]
        have hslash : F.mark ∉ "pow".toList := by
          rw [hmark]
          decide
        exact (References.hasNames_callText hslash (forall₂_exchangePair h)).perm
          (References.flatten_exchangePair_perm nss)
    | pi =>
        match args, hpi rfl, h with
        | .nil, _, .nil => exact pi
    | other n hother =>
        have hslash : F.mark ∉ Dialect.fp.rename n := by
          rw [hmark]
          exact (Dialect.fp.isName_rename hn).not_mem (by decide)
        have hne : n ≠ "pi".toList := fun h => hother (by rw [h]; decide)
        rw [call _ _ hne, List.append_nil, call_of_not_mem hother]
        exact References.hasNames_callText hslash h

/-- What is written for `fp` has the macros of the wildcards, as often as there are
wildcards. -/
theorem finds_macros (precision : Nat) :
    References.macros.Finds (rendering precision) (.ofWildcards fun n => [texName n])
      (fun n args => n = "pi".toList → args.length = 0) :=
  finds_of_mark rfl (fun _ => rfl) (fun _ hn => hasNames_texMacro hn) hasNames_pi
    (fun _ _ _ => rfl)

end Fp

end QuizFormula

import QuizFormula.Proofs.Grammar.Characters
import QuizFormula.Proofs.Grammar.Induction
import QuizFormula.Proofs.Grammar.Plain
import QuizFormula.Proofs.Grammar.WellFormed
import QuizFormula.Proofs.Translation.Names

/-!
# Properties of what is written

A formula is written by putting together its tokens and the separators between them. So a
property that holds of these, and is kept when texts are put together (`Composed`), holds
of all that is written for `fp` and for Moodle (`Fp.preserves`, `Moodle.preserves`).
-/

namespace QuizFormula

/-- The property holds of separators and is kept when texts are put together. -/
structure Composed (P : Text → Prop) : Prop where
  nil : P []
  separator : ∀ c ∈ separators, P [c]
  append : ∀ {l r : Text}, P l → P r → P (l ++ r)

section

variable {P : Text → Prop}

theorem Composed.parenthesized (h : Composed P) {t : Text} (ht : P t) :
    P ('(' :: (t ++ [')'])) :=
  h.append (h.separator _ (by decide)) (h.append ht (h.separator _ (by decide)))

theorem Composed.chain (h : Composed P) {t u : Text} (op : Operator) (ht : P t) (hu : P u) :
    P (t ++ op.char :: u) :=
  h.append ht (h.append (h.separator _ op.char_mem_separators) hu)

theorem Composed.commaSeparated (h : Composed P) {ts : List Text} (hts : ∀ t ∈ ts, P t) :
    P (commaSeparated ts) := by
  induction ts with
  | nil => exact h.nil
  | cons t ts ih =>
      obtain ⟨ht, hts⟩ := List.forall_mem_cons.1 hts
      cases ts with
      | nil => simpa [QuizFormula.commaSeparated] using ht
      | cons u ts =>
          rw [commaSeparated_cons_cons]
          exact h.append ht (h.append (h.separator _ (by decide)) (ih hts))

/-- A name is put together with the parenthesis after it. -/
theorem Composed.callText (h : Composed P) {n : Text} {ts : List Text} (hn : P (n ++ ['(']))
    (hts : ∀ t ∈ ts, P t) : P (callText n ts) := by
  have hargs := h.append hn (h.append (h.commaSeparated hts) (h.separator ')' (by decide)))
  rwa [List.append_assoc] at hargs

/-- The property holds of a written formula if it holds of what is written for its tokens and
its calls, where only calls that satisfy `Q` matter. -/
theorem Composed.render (h : Composed P) {x : Rendering} {Q : Text → Nat → Prop}
    (number : ∀ l, IsNumber l → P (x.number l)) (wildcard : ∀ n, IsName n → P (x.wildcard n))
    (minus : ∀ t, P t → P (x.minus t))
    (call : ∀ n ts, IsName n → Q n ts.length → (∀ t ∈ ts, P t) → P (x.call n ts)) {e : Expr}
    (he : e.WellFormed) (hc : ∀ c ∈ e.calls, Q c.1 c.2.length) : P (e.render x) := by
  have hind : FormulaInduction (fun e => P (e.render x)) (fun a => P (a.render x))
      (fun args => ∀ t ∈ args.render x, P t) (fun _ => True) (fun n args => Q n args.length) :=
    { last := fun _ ha => ha
      chain := fun _ op _ ha he => h.chain op ha he
      number := number
      wildcard := fun n hn _ => wildcard n hn
      group := fun _ he => h.parenthesized he
      call := fun n args hn _ hc hargs =>
        call n _ hn ((length_render_args x args).symm ▸ hc) hargs
      minus := fun _ ha => minus _ ha
      nil := fun _ ht => absurd ht List.not_mem_nil
      cons := fun _ _ he hargs => List.forall_mem_cons.2 ⟨he, hargs⟩ }
  exact hind.formula he (fun _ _ => trivial) hc

theorem mem_exchangePair {α : Type} {a : α} {l : List α} (h : a ∈ exchangePair l) : a ∈ l := by
  unfold exchangePair at h
  split at h
  · simpa [or_comm] using h
  · exact h

/-- A property of what is written for `fp` for a call: a square root is written as a call of
`root`, and pi without a call. -/
theorem Fp.composed_call (h : Composed P) (number : ∀ l, IsNumber l → P l) (blank : P [' '])
    (hpi : P pi) (root : P ("root".toList ++ ['('])) {n : Text} {ts : List Text}
    (name : n ≠ "sqrt".toList → n ≠ "pi".toList → P (Dialect.fp.rename n ++ ['(']))
    (hts : ∀ t ∈ ts, P t) : P (call n ts) := by
  cases n using name_cases with
  | sqrt =>
      have hdegree := h.append root (h.append (number "2".toList (by decide))
        (h.append (h.separator ',' (by decide)) blank))
      exact h.append hdegree (h.append (h.commaSeparated hts) (h.separator _ (by decide)))
  | pow =>
      exact h.callText (name (by decide) (by decide)) fun t ht => hts t (mem_exchangePair ht)
  | pi => exact hpi
  | other n hother =>
      rw [call_of_not_mem hother]
      rw [mem_rewritten, not_or, not_or] at hother
      exact h.callText (name hother.1 hother.2.2) hts

/-- A property of what is written for `fp`. -/
theorem Fp.preserves (precision : Nat) (h : Composed P) (number : ∀ l, IsNumber l → P l)
    (name : ∀ n, IsName n → P (n ++ ['('])) (wildcard : ∀ n, IsName n → P (texMacro n))
    (blank : P [' ']) (hpi : P pi) : (rendering precision).Preserves P where
  number l hl := number _ (Literal.isNumber_text precision hl)
  wildcard := wildcard
  group t ht := h.parenthesized ht
  minus t ht := by
    have hneg : P (callText "neg".toList [t]) :=
      h.callText (name _ (by decide)) (List.forall_mem_singleton.2 ht)
    rwa [callText_singleton] at hneg
  call _ _ hn hts := composed_call h number blank hpi (name _ (by decide))
    (fun _ _ => name _ (Dialect.fp.isName_rename hn)) hts
  chain t op u ht hu := h.chain op ht hu

/-- A root is written as a square root or as a power of the reciprocal of its degree. -/
theorem Moodle.composed_root (h : Composed P) (number : ∀ l, IsNumber l → P l)
    (sqrt : P ("sqrt".toList ++ ['('])) (pow : P ("pow".toList ++ ['('])) {d x : Text}
    (hd : P d) (hx : P x) : P (root d x) := by
  unfold root
  split
  · exact h.callText sqrt (List.forall_mem_singleton.2 hx)
  · have hone := h.append (number "1".toList (by decide)) (h.separator '/' (by decide))
    have hreciprocal := h.append hone (h.parenthesized hd)
    exact h.callText pow
      (List.forall_mem_cons.2 ⟨hx, List.forall_mem_singleton.2 hreciprocal⟩)

/-- A property of what is written for Moodle for a call: a root with a degree and a radicand
is a square root or a power, and of `neg` and `clip` the parentheses are left. -/
theorem Moodle.composed_call (h : Composed P) (number : ∀ l, IsNumber l → P l)
    (sqrt : P ("sqrt".toList ++ ['('])) (pow : P ("pow".toList ++ ['('])) {n : Text}
    {ts : List Text} (name : (n = "root".toList → ts.length ≠ 2) → n ≠ "neg".toList →
      n ≠ "clip".toList → P (Dialect.moodle.rename n ++ ['(']))
    (hts : ∀ t ∈ ts, P t) : P (call n ts) := by
  have hclip : P (callText [] ts) := h.callText (h.separator '(' (by decide)) hts
  cases n using name_cases with
  | root =>
      match ts, hts, name with
      | [d, x], hts, _ =>
          exact composed_root h number sqrt pow (hts d (by simp)) (hts x (by simp))
      | [], hts, name | [_], hts, name | _ :: _ :: _ :: _, hts, name =>
          exact h.callText (name (fun _ => by simp) (by decide) (by decide)) hts
  | pow => exact h.callText pow fun t ht => hts t (mem_exchangePair ht)
  | neg => exact h.append (h.separator '-' (by decide)) hclip
  | clip => exact hclip
  | pi =>
      have hcall := name (fun h => absurd h (by decide)) (by decide) (by decide)
      exact h.append hcall (h.separator ')' (by decide))
  | other n hroot hother =>
      rw [call_of_not_mem hroot hother]
      rw [mem_rewritten, not_or, not_or, not_or] at hother
      exact h.callText (name (fun h => absurd h hroot) hother.2.1 hother.2.2.1) hts

/-- A property of what is written for Moodle. -/
theorem Moodle.preserves (h : Composed P) (number : ∀ l, IsNumber l → P l)
    (name : ∀ n, IsName n → P (n ++ ['(']))
    (wildcard : ∀ n, IsName n → P ('{' :: (n ++ ['}']))) : rendering.Preserves P where
  number := number
  wildcard n hn := by
    change P (if n = piName then pi else '{' :: (n ++ ['}']))
    split
    · exact h.append (name piName (by decide)) (h.separator ')' (by decide))
    · exact wildcard n hn
  group t ht := h.parenthesized ht
  minus t ht := h.append (h.separator '-' (by decide)) ht
  call _ _ hn hts := composed_call h number (name _ (by decide)) (name _ (by decide))
    (fun _ _ _ => name _ (Dialect.moodle.isName_rename hn)) hts
  chain t op u ht hu := h.chain op ht hu

end

end QuizFormula

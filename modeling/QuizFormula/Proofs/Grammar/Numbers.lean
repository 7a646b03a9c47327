import Mathlib.Data.List.Forall2
import QuizFormula.Expr.Rendering
import QuizFormula.Proofs.Grammar.Rules

/-!
# The numbers in a text

A number stands where an operand begins: at the start of a text, or behind an opening
parenthesis, a comma or an operator, and blanks. `numbersIn` goes from operand to operand,
so it finds numbers with their signs and exponents, and does not take the digits of a name
for a number. The text need not be a formula.

What is put together from texts has the numbers of these (`HasNumbers`).
-/

namespace QuizFormula

/-- Whether an operand may begin behind the character. -/
def opensOperand (c : Char) : Bool := c ∈ ['(', ',', '+', '-', '*', '/']

/-- The text behind the first character behind which an operand may begin. -/
def nextOperand (s : Text) : Text := (s.dropWhile fun c => !opensOperand c).tail

theorem length_nextOperand_le (s : Text) : (nextOperand s).length ≤ s.length := by
  rw [nextOperand, List.length_tail]
  exact (Nat.sub_le _ _).trans (List.dropWhile_suffix _).length_le

/-- The numbers in a text, in their order. -/
def numbersIn : Text → List Text
  | [] => []
  | c :: s =>
    match _ : number? (c :: s) with
    | some (l, r) => l :: numbersIn (nextOperand r)
    | none => if isBlank c || opensOperand c then numbersIn s else numbersIn (nextOperand s)
termination_by s => s.length
decreasing_by
  · exact Nat.lt_of_le_of_lt (length_nextOperand_le r)
      (length_lt_of_number? ‹number? (c :: s) = some (l, r)›)
  · simp
  · exact Nat.lt_succ_of_le (length_nextOperand_le s)

example : numbersIn r"-1e+5 -2*(x1e5, -\y3 +4.0)-sin( 1E400 )".toList =
    ["-1e+5", "2", "4.0", "1E400"].map String.toList := by
  decide +kernel

theorem nextOperand_cons {c : Char} (hc : opensOperand c = true) (s : Text) :
    nextOperand (c :: s) = s := by
  rw [nextOperand, List.dropWhile_cons_of_neg (by simp [hc]), List.tail_cons]

theorem nextOperand_append {l : Text} (hl : l.any opensOperand = false) (r : Text) :
    nextOperand (l ++ r) = nextOperand r := by
  have hskip : ∀ c ∈ l, (!opensOperand c) = true := by simpa using hl
  rw [nextOperand, List.dropWhile_append_of_pos hskip, nextOperand]

theorem numbersIn_number {l r : Text} (hl : IsNumber l) (hr : AtBoundary r) :
    numbersIn (l ++ r) = l :: numbersIn (nextOperand r) := by
  have hread := number?_append hl hr
  obtain ⟨c, t, rfl, -⟩ := hl.exists_cons
  rw [List.cons_append] at hread ⊢
  rw [numbersIn]
  split
  · rename_i heq
    rw [hread] at heq
    cases heq
    rfl
  · rename_i heq
    rw [hread] at heq
    cases heq

/-- Whether a number may begin with the character. -/
def startsNumber (c : Char) : Bool := c.isDigit || c = '+' || c = '-'

theorem number?_cons_eq_none {c : Char} (hc : startsNumber c = false) (s : Text) :
    number? (c :: s) = none := by
  simp only [startsNumber, Bool.or_eq_false_iff, decide_eq_false_iff_not] at hc
  obtain ⟨⟨hdigit, hplus⟩, hminus⟩ := hc
  rw [number?_eq_none_iff, scanSign]
  · simp [leadingDigits, hdigit]
  · rintro t h
    exact hplus (List.cons.inj h).1
  · rintro t h
    exact hminus (List.cons.inj h).1

theorem numbersIn_cons {c : Char} (hc : startsNumber c = false) (s : Text) :
    numbersIn (c :: s) =
      if isBlank c || opensOperand c then numbersIn s else numbersIn (nextOperand s) := by
  have hnone := number?_cons_eq_none hc s
  rw [numbersIn]
  split
  · rename_i heq
    rw [hnone] at heq
    cases heq
  · rfl

theorem numbersIn_opener {c : Char} (hc : startsNumber c = false)
    (hopen : isBlank c = true ∨ opensOperand c = true) (s : Text) :
    numbersIn (c :: s) = numbersIn s := by
  rw [numbersIn_cons hc, if_pos (Bool.or_eq_true_iff.2 hopen)]

/-! ### Words -/

/-- The text is an operand in which no number is found: a name or a macro. -/
structure Numberless (t : Text) : Prop where
  starts : ∃ c s, t = c :: s ∧ startsNumber c = false ∧ isBlank c = false
  opens : t.any opensOperand = false

theorem Numberless.numbersIn_append {t : Text} (ht : Numberless t) (r : Text) :
    numbersIn (t ++ r) = numbersIn (nextOperand r) := by
  obtain ⟨⟨c, s, rfl, hc, hblank⟩, hopens⟩ := ht
  obtain ⟨hopen, hs⟩ := Bool.or_eq_false_iff.1 hopens
  rw [List.cons_append, numbersIn_cons hc, hblank, hopen, Bool.or_false, if_neg (by decide),
    nextOperand_append hs]

theorem any_opensOperand_eq_false {t : Text} (ht : ∀ c ∈ t, isTokenChar c = true) :
    t.any opensOperand = false := by
  rw [List.any_eq_false]
  intro c hc hopen
  rw [opensOperand, decide_eq_true_eq] at hopen
  have htoken := ht c hc
  simp only [List.mem_cons, List.not_mem_nil, or_false] at hopen
  rcases hopen with rfl | rfl | rfl | rfl | rfl | rfl <;> exact absurd htoken (by decide)

theorem startsNumber_eq_false_of_isAlpha {c : Char} (h : c.isAlpha = true) :
    startsNumber c = false := by
  rw [startsNumber, isDigit_eq_false_of_isAlpha h, Bool.false_or, Bool.or_eq_false_iff,
    decide_eq_false_iff_not, decide_eq_false_iff_not]
  constructor <;> rintro rfl <;> exact absurd h (by decide)

theorem IsName.numberless {n : Text} (hn : IsName n) : Numberless n where
  starts := by
    obtain ⟨c, s, rfl, hc, -⟩ := hn
    exact ⟨c, s, rfl, startsNumber_eq_false_of_isAlpha hc,
      isBlank_eq_false_of_isTokenChar (isTokenChar_of_isAlpha hc)⟩
  opens := by
    apply any_opensOperand_eq_false
    intro c hc
    simp [isTokenChar, hn.isNameChar c hc]

/-- Behind a name an opening parenthesis begins the next operand. -/
theorem IsName.numbersIn_parenthesis {n : Text} (hn : IsName n) (s : Text) :
    numbersIn (n ++ '(' :: s) = numbersIn s := by
  rw [hn.numberless.numbersIn_append, nextOperand_cons (by decide)]

/-! ### Texts put together -/

/-- The text is an operand, or operands with operators between them, and has these numbers. -/
def HasNumbers (t : Text) (ls : List Text) : Prop :=
  ∀ r, AtBoundary r → numbersIn (t ++ r) = ls ++ numbersIn (nextOperand r)

theorem IsNumber.hasNumbers {l : Text} (hl : IsNumber l) : HasNumbers l [l] :=
  fun _ hr => numbersIn_number hl hr

theorem Numberless.hasNumbers {t : Text} (ht : Numberless t) : HasNumbers t [] :=
  fun r _ => ht.numbersIn_append r

theorem HasNumbers.chain {t u : Text} {ls ms : List Text} (ht : HasNumbers t ls)
    (op : Operator) (hu : HasNumbers u ms) : HasNumbers (t ++ op.char :: u) (ls ++ ms) := by
  intro r hr
  have hboundary : AtBoundary (op.char :: (u ++ r)) := (stops_cons _ _ _).2 op.isTokenChar_char
  have hopens : opensOperand op.char = true := by cases op <;> decide
  rw [List.append_assoc, List.cons_append, ht _ hboundary, nextOperand_cons hopens, hu r hr,
    List.append_assoc]

/-- The numbers between parentheses, in arguments with commas between them. -/
theorem numbersIn_arguments {ts : List Text} {nss : List (List Text)}
    (h : List.Forall₂ HasNumbers ts nss) (r : Text) :
    numbersIn (commaSeparated ts ++ ')' :: r) = nss.flatten ++ numbersIn (nextOperand r) := by
  have hclose : nextOperand (')' :: r) = nextOperand r :=
    nextOperand_append (l := [')']) rfl r
  induction h with
  | nil =>
      have hword : Numberless [')'] := ⟨⟨')', [], rfl, rfl, rfl⟩, rfl⟩
      exact hword.numbersIn_append r
  | @cons t ls ts nss ht hts ih =>
      cases hts with
      | nil =>
          have hboundary : AtBoundary (')' :: r) := (stops_cons _ _ _).2 (by decide)
          simp [commaSeparated, ht _ hboundary, hclose]
      | @cons u ms us mss hu hus =>
          have hboundary : AtBoundary (',' :: (commaSeparated (u :: us) ++ ')' :: r)) :=
            (stops_cons _ _ _).2 (by decide)
          rw [commaSeparated_cons_cons, List.append_assoc, List.cons_append, ht _ hboundary,
            nextOperand_cons (by decide), ih, ← List.append_assoc]
          rfl

theorem hasNumbers_callText {n : Text} (hn : IsName n) {ts : List Text} {nss : List (List Text)}
    (h : List.Forall₂ HasNumbers ts nss) : HasNumbers (callText n ts) nss.flatten := by
  intro r _
  rw [callText, List.append_assoc, List.cons_append, hn.numbersIn_parenthesis,
    List.append_assoc, List.singleton_append, numbersIn_arguments h]

theorem HasNumbers.parenthesized {t : Text} {ls : List Text} (h : HasNumbers t ls) :
    HasNumbers ('(' :: (t ++ [')'])) ls := by
  intro r _
  have hargument := numbersIn_arguments (.cons h .nil) r
  rw [List.cons_append, numbersIn_opener (by decide) (.inr (by decide)), List.append_assoc]
  simpa [commaSeparated] using hargument

end QuizFormula

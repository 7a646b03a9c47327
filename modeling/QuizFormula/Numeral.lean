import QuizFormula.Decimal

/-!
# Numerals

A numeral is a number as it is written: an optional sign, digits, optionally a
point with more digits, optionally an exponent. `scan` splits off the longest
numeral at the start of a text, and `text` writes a numeral down again; the two
parts of a scan always make up the text (`text_scan`). Formulas ask for a digit
before the point (`number?`), the reader of floating-point numbers for a digit on
either side of it and nothing after the numeral (`ofText?`).
-/

namespace QuizFormula

inductive Sign where
  | plus
  | minus
deriving DecidableEq, Repr

def signText : Option Sign → Text
  | none => []
  | some .plus => ['+']
  | some .minus => ['-']

/-- The sign at the start of a text, if there is one, and the rest. -/
def scanSign : Text → Option Sign × Text
  | '+' :: s => (some .plus, s)
  | '-' :: s => (some .minus, s)
  | s => (none, s)

def leadingDigits (s : Text) : Text := s.takeWhile Char.isDigit

def afterDigits (s : Text) : Text := s.dropWhile Char.isDigit

/-- An exponent as it is written: its mark `e` or `E`, a sign and the digits. -/
structure Exponent where
  mark : Char
  sign : Option Sign
  digits : Text
deriving DecidableEq, Repr

namespace Exponent

def text (e : Exponent) : Text := e.mark :: (signText e.sign ++ e.digits)

/-- The exponent at the start of a text, if there is a whole one, and the rest. A
mark without a digit after it is no exponent. -/
def scan : Text → Option Exponent × Text
  | [] => (none, [])
  | c :: s =>
    let (sign, t) := scanSign s
    if (c = 'e' ∨ c = 'E') ∧ leadingDigits t ≠ [] then
      (some ⟨c, sign, leadingDigits t⟩, afterDigits t)
    else (none, c :: s)

def signed (e : Exponent) (magnitude : Nat) : Int :=
  if e.sign = some .minus then -magnitude else magnitude

def value (e : Exponent) : Int := e.signed (Nat.ofDigitChars 10 e.digits 0)

/-- From here on further digits of an exponent no longer count when a
floating-point number is read. -/
def ceiling : Nat := 65536

/-- The exponent as the reader of floating-point numbers takes it: digits count
only until the magnitude reaches the ceiling, which lies far beyond the range of
these numbers. -/
def saturated (e : Exponent) : Int :=
  e.signed (e.digits.foldl
    (fun n c => if n < ceiling then 10 * n + (c.toNat - '0'.toNat) else n) 0)

end Exponent

def exponentText : Option Exponent → Text
  | none => []
  | some e => e.text

def fractionText : Option Text → Text
  | none => []
  | some f => '.' :: f

/-- A number as it is written. -/
structure Numeral where
  sign : Option Sign
  /-- The digits before the point. -/
  whole : Text
  /-- The digits after the point, if a point is written. -/
  fraction : Option Text
  exponent : Option Exponent
deriving DecidableEq, Repr

/-- The digits after a point at the start of a text, if it starts with a point, and
the rest. There may be no digit after the point. -/
def scanFraction : Text → Option Text × Text
  | '.' :: s => (some (leadingDigits s), afterDigits s)
  | s => (none, s)

/-! ### The number that digits denote

A numeral may have very many digits. They are collected in groups, so that most steps
are about a group and few about the whole number. -/

/-- The scale up to which digits are collected in one group. -/
def groupScale : Nat := Nat.pow 10 256

/-- What has been collected of some digits: the number `front * scale + group`, where
`scale` is ten to the number of digits in the group. -/
structure Collected where
  front : Nat
  group : Nat
  scale : Nat

namespace Collected

def value (x : Collected) : Nat := x.front * x.scale + x.group

def addDigit (x : Collected) (digit : Nat) : Collected :=
  if x.scale < groupScale then ⟨x.front, 10 * x.group + digit, 10 * x.scale⟩
  else ⟨x.value, digit, 10⟩

theorem value_addDigit (x : Collected) (digit : Nat) :
    (x.addDigit digit).value = 10 * x.value + digit := by
  unfold addDigit
  split
  · simp only [value, Nat.mul_add, Nat.add_assoc, Nat.mul_left_comm]
  · simp only [value, Nat.mul_comm]

end Collected

/-- The number that digits denote. -/
def digitsValue (s : Text) : Nat :=
  (s.foldl (fun x c => x.addDigit (c.toNat - '0'.toNat)) (⟨0, 0, 1⟩ : Collected)).value

theorem digitsValue_eq (s : Text) : digitsValue s = Nat.ofDigitChars 10 s 0 := by
  have hfrom : ∀ x : Collected,
      (s.foldl (fun x c => x.addDigit (c.toNat - '0'.toNat)) x).value =
        Nat.ofDigitChars 10 s x.value := by
    induction s with
    | nil => exact fun x => rfl
    | cons c s ih =>
      intro x
      rw [List.foldl_cons, ih, Collected.value_addDigit, Nat.ofDigitChars_cons]
  exact hfrom ⟨0, 0, 1⟩

namespace Numeral

/-- The longest numeral at the start of a text, and the rest. It may lack digits. -/
def scan (s : Text) : Numeral × Text :=
  let (sign, t) := scanSign s
  let (fraction, u) := scanFraction (afterDigits t)
  let (exponent, r) := Exponent.scan u
  (⟨sign, leadingDigits t, fraction, exponent⟩, r)

def text (n : Numeral) : Text :=
  signText n.sign ++ n.whole ++ fractionText n.fraction ++ exponentText n.exponent

/-- All digits of the numeral but those of the exponent. -/
def digits (n : Numeral) : Text := n.whole ++ n.fraction.getD []

/-- The number that is written, given the value of its exponent. -/
def toDecimal (n : Numeral) (exponent : Int) : Decimal :=
  ⟨n.sign = some .minus, digitsValue n.digits, exponent - (n.fraction.getD []).length⟩

/-- The numeral that makes up the whole text and has a digit before or after its
point. -/
def ofText? (s : Text) : Option Numeral :=
  match scan s with
  | (n, []) => if n.digits = [] then none else some n
  | _ => none

end Numeral

/-- The numeral at the start of a text as a formula has it, with a digit before the
point: what is written, and the rest. -/
def number? (s : Text) : Option (Text × Text) :=
  let (n, r) := Numeral.scan s
  if n.whole = [] then none else some (n.text, r)

/-! ### Nothing is lost by a scan -/

theorem signText_append_scanSign (s : Text) : signText (scanSign s).1 ++ (scanSign s).2 = s := by
  unfold scanSign
  split <;> rfl

theorem leadingDigits_append_afterDigits (s : Text) : leadingDigits s ++ afterDigits s = s :=
  List.takeWhile_append_dropWhile

theorem exponentText_append_scan (s : Text) :
    exponentText (Exponent.scan s).1 ++ (Exponent.scan s).2 = s := by
  cases s with
  | nil => rfl
  | cons c t =>
    simp only [Exponent.scan]
    split
    · simp only [exponentText, Exponent.text, List.cons_append, List.append_assoc,
        leadingDigits_append_afterDigits, signText_append_scanSign]
    · rfl

theorem fractionText_append_scanFraction (s : Text) :
    fractionText (scanFraction s).1 ++ (scanFraction s).2 = s := by
  unfold scanFraction
  split
  · simp only [fractionText, List.cons_append, leadingDigits_append_afterDigits]
  · rfl

/-- A numeral as it is written and the rest of its scan make up the text. -/
theorem Numeral.text_scan (s : Text) : (scan s).1.text ++ (scan s).2 = s := by
  simp only [scan, text, List.append_assoc, exponentText_append_scan,
    fractionText_append_scanFraction, leadingDigits_append_afterDigits,
    signText_append_scanSign]

theorem Numeral.text_of_ofText? {s : Text} {n : Numeral} (h : ofText? s = some n) :
    n.text = s := by
  have hs := text_scan s
  unfold ofText? at h
  split at h
  · rename_i m hm
    split at h
    · simp at h
    · cases h
      simpa [hm] using hs
  · simp at h

theorem append_eq_of_number? {s l r : Text} (h : number? s = some (l, r)) : l ++ r = s := by
  simp only [number?] at h
  split at h
  · simp at h
  · simp only [Option.some.injEq, Prod.mk.injEq] at h
    rw [← h.1, ← h.2]
    exact Numeral.text_scan s

theorem ne_nil_of_number? {s l r : Text} (h : number? s = some (l, r)) : l ≠ [] := by
  simp only [number?] at h
  split at h
  · simp at h
  · rename_i hw
    simp only [Option.some.injEq, Prod.mk.injEq] at h
    rw [← h.1]
    simp [Numeral.text, hw]

theorem length_lt_of_number? {s l r : Text} (h : number? s = some (l, r)) :
    r.length < s.length := by
  have hs := append_eq_of_number? h
  have hl := List.length_pos_iff.2 (ne_nil_of_number? h)
  rw [← hs, List.length_append]
  omega

end QuizFormula

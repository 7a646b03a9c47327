import Mathlib.Analysis.SpecialFunctions.Pow.Real
import Mathlib.Analysis.SpecialFunctions.Trigonometric.Arctan
import Mathlib.Analysis.SpecialFunctions.Trigonometric.Inverse
import QuizFormula.Function
import QuizFormula.Proofs.Meaning.Literal
import QuizFormula.Proofs.Meaning.Value

/-!
# Formulas over the real numbers

The functions of both dialects over the real numbers. A function that is called with
another number of arguments than it has, or that the dialect does not have, is zero.
-/

namespace QuizFormula

/-- The functions that both dialects have. -/
noncomputable def SharedFunction.real : SharedFunction → List ℝ → ℝ
  | sin, [x] => Real.sin x
  | cos, [x] => Real.cos x
  | tan, [x] => Real.tan x
  | arcsin, [x] => Real.arcsin x
  | arccos, [x] => Real.arccos x
  | arctan, [x] => Real.arctan x
  | abs, [x] => |x|
  | exp, [x] => Real.exp x
  | ln, [x] => Real.log x
  | min, x :: xs => xs.foldl (fun a b => Min.min a b) x
  | max, x :: xs => xs.foldl (fun a b => Max.max a b) x
  | _, _ => 0

/-- The functions that need more than a new name when they are translated. -/
noncomputable def Dialect.realOwn : Dialect → Text → List ℝ → ℝ
  | moodle, n, [] => if n = "pi".toList then Real.pi else 0
  | moodle, n, [x] => if n = "sqrt".toList then Real.sqrt x else 0
  | moodle, n, [x, y] => if n = "pow".toList then x ^ y else 0
  | fp, n, [] => if n = "pi".toList then Real.pi else 0
  | fp, n, [x] => if n = "neg".toList then -x else if n = "clip".toList then x else 0
  | fp, n, [x, y] =>
    if n = "pow".toList then y ^ x else if n = "root".toList then y ^ (1 / x) else 0
  | _, _, _ => 0

noncomputable def Dialect.realCall (d : Dialect) (n : Text) (xs : List ℝ) : ℝ :=
  match SharedFunction.ofName? d n with
  | some f => f.real xs
  | none => d.realOwn n xs

noncomputable def Operator.real : Operator → ℝ → ℝ → ℝ
  | add, x, y => x + y
  | sub, x, y => x - y
  | mul, x, y => x * y
  | div, x, y => x / y

/-- The real number that a literal denotes. -/
noncomputable def Literal.real (l : Text) : ℝ := ((Literal.value? l).getD 0 : ℚ)

/-- The formulas of a dialect over the real numbers, from the values of literals and of
wildcards. -/
@[simps]
noncomputable def Interpretation.real (d : Dialect) (number wildcard : Text → ℝ) :
    Interpretation ℝ where
  number := number
  wildcard := wildcard
  minus x := -x
  operate := Operator.real
  call := d.realCall

theorem Literal.real_of_value? {l : Text} {q : ℚ} (h : value? l = some q) : real l = q := by
  rw [real, h, Option.getD_some]

theorem Literal.real_toDigits (n : Nat) : real (Nat.toDigits 10 n) = n := by
  rw [real_of_value? (value?_toDigits n), Rat.cast_natCast]

namespace Dialect

theorem realCall_name (d : Dialect) (f : SharedFunction) (xs : List ℝ) :
    d.realCall (f.name d) xs = f.real xs := by
  rw [realCall, SharedFunction.ofName?_name]

theorem realCall_of_ofName?_eq_none {d : Dialect} {n : Text}
    (h : SharedFunction.ofName? d n = none) (xs : List ℝ) :
    d.realCall n xs = d.realOwn n xs := by
  rw [realCall, h]

theorem realCall_pi (d : Dialect) : d.realCall "pi".toList [] = Real.pi := by
  cases d with
  | moodle => rw [realCall_of_ofName?_eq_none (by decide), realOwn, if_pos rfl]
  | fp => rw [realCall_of_ofName?_eq_none (by decide), realOwn, if_pos rfl]

theorem moodle_realCall_sqrt (x : ℝ) : moodle.realCall "sqrt".toList [x] = Real.sqrt x := by
  rw [realCall_of_ofName?_eq_none (by decide), realOwn, if_pos rfl]

theorem moodle_realCall_pow (x y : ℝ) : moodle.realCall "pow".toList [x, y] = x ^ y := by
  rw [realCall_of_ofName?_eq_none (by decide), realOwn, if_pos rfl]

theorem fp_realCall_pow (x y : ℝ) : fp.realCall "pow".toList [y, x] = x ^ y := by
  rw [realCall_of_ofName?_eq_none (by decide), realOwn, if_pos rfl]

theorem fp_realCall_root (n x : ℝ) : fp.realCall "root".toList [n, x] = x ^ (1 / n) := by
  rw [realCall_of_ofName?_eq_none (by decide), realOwn, if_neg (by decide), if_pos rfl]

theorem fp_realCall_neg (x : ℝ) : fp.realCall "neg".toList [x] = -x := by
  rw [realCall_of_ofName?_eq_none (by decide), realOwn, if_pos rfl]

theorem fp_realCall_clip (x : ℝ) : fp.realCall "clip".toList [x] = x := by
  rw [realCall_of_ofName?_eq_none (by decide), realOwn, if_neg (by decide), if_pos rfl]

theorem fp_realCall_root_two (x : ℝ) :
    fp.realCall "root".toList [2, x] = moodle.realCall "sqrt".toList [x] := by
  rw [fp_realCall_root, moodle_realCall_sqrt, Real.sqrt_eq_rpow]

end Dialect

end QuizFormula

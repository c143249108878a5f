import Mathlib
import Fluxion.BinOp

/-!
# Fluxion.Proofs.Number.Real

The real numbers as an instance of `Arith`.

Over the reals nothing is rounded and nothing overflows, so an operation has no value only where
it is undefined.  Every operation is a total function (`BinOp.real`, `Fn.real`) together with its
domain (`BinOp.DefinedAt`, `Fn.DefinedAt`):

* a quotient needs a divisor other than zero;
* a power needs a positive base, or the base zero and an exponent that is not negative (so that
  `0 ^ 0 = 1`), or a negative base and a whole exponent;
* roots, logarithms and the inverse functions of sine and cosine have their usual domains;
* the tangent has poles, and the cotangent is the inverse of the tangent.

The tolerance of the rules of simplification is the same as for machine numbers, one millionth.
-/

namespace Fluxion

/-! ## total operations and their domains -/

/-- Powers of real numbers. -/
def PowDefinedAt (a b : ℝ) : Prop :=
  0 < a ∨ (a = 0 ∧ 0 ≤ b) ∨ (a < 0 ∧ ∃ n : ℤ, b = n)

/-- Where a binary operation has a value. -/
def BinOp.DefinedAt : BinOp → ℝ → ℝ → Prop
  | .add, _, _ | .sub, _, _ | .mul, _, _ => True
  | .div, _, b => b ≠ 0
  | .pow, a, b => PowDefinedAt a b

/-- The value of a binary operation. -/
noncomputable def BinOp.real : BinOp → ℝ → ℝ → ℝ
  | .add, a, b => a + b
  | .sub, a, b => a - b
  | .mul, a, b => a * b
  | .div, a, b => a / b
  | .pow, a, b => a ^ b

/-- Where a function has a value. -/
def Fn.DefinedAt : Fn → ℝ → Prop
  | .sin, _ | .cos, _ | .arctan, _ | .arccot, _ => True
  | .tan, v => Real.cos v ≠ 0
  | .cot, v => Real.cos v ≠ 0 ∧ Real.tan v ≠ 0
  | .arcsin, v | .arccos, v => -1 ≤ v ∧ v ≤ 1
  | .sqrt, v => 0 ≤ v
  | .ln, v => 0 < v

/-- The value of a function.  The inverse cotangent is measured from the right angle. -/
noncomputable def Fn.real : Fn → ℝ → ℝ
  | .sin, v => Real.sin v
  | .cos, v => Real.cos v
  | .tan, v => Real.tan v
  | .cot, v => 1 / Real.tan v
  | .arcsin, v => Real.arcsin v
  | .arccos, v => Real.arccos v
  | .arctan, v => Real.arctan v
  | .arccot, v => Real.pi / 2 - Real.arctan v
  | .sqrt, v => √v
  | .ln, v => Real.log v

/-! ## the instance -/

open Classical in
/-- A value where there is one, and a fault elsewhere. -/
noncomputable def definedOr (fault : MathFault) (p : Prop) (v : ℝ) : Except MathFault ℝ :=
  if p then .ok v else .error fault

/-- The fault of a function outside its domain. -/
noncomputable def Fn.fault (f : Fn) (v : ℝ) : MathFault :=
  if f = .cot ∧ Real.cos v ≠ 0 then .divisionByZero else .domain

/-- The parity of a whole number. -/
def Parity.ofInt (n : ℤ) : Parity := if Even n then .even else .odd

open Classical in
noncomputable instance : Arith ℝ where
  beq a b := decide (a = b)
  zero := 0
  one := 1
  two := 2
  ofDecimal mantissa exponent := mantissa * 10 ^ exponent
  ofNat n := .ok n
  add a b := a + b
  sub a b := a - b
  mul a b := a * b
  neg a := -a
  div a b := definedOr .divisionByZero (BinOp.div.DefinedAt a b) (BinOp.div.real a b)
  pow a b := definedOr .domain (BinOp.pow.DefinedAt a b) (BinOp.pow.real a b)
  apply f v := definedOr (f.fault v) (f.DefinedAt v) (f.real v)
  lt a b := decide (a < b)
  le a b := decide (a ≤ b)
  tolerance := 1 / 1000000
  closer d a b := decide (|a - b| < d)
  finite _ := true
  parity d v := .ok (if |v - round v| < d then some (.ofInt (round v)) else none)

/-! ## what the instance says -/

@[simp] theorem real_zero : (Arith.zero : ℝ) = 0 := rfl

@[simp] theorem real_one : (Arith.one : ℝ) = 1 := rfl

@[simp] theorem real_two : (Arith.two : ℝ) = 2 := rfl

@[simp] theorem real_add (a b : ℝ) : Arith.add a b = a + b := rfl

@[simp] theorem real_neg (a : ℝ) : Arith.neg a = -a := rfl

@[simp] theorem real_finite (a : ℝ) : Arith.finite a = true := rfl

@[simp] theorem real_nonneg (a : ℝ) : Arith.nonneg a = true ↔ 0 ≤ a := decide_eq_true_iff

@[simp] theorem real_negative (a : ℝ) : Arith.negative a = true ↔ a < 0 := decide_eq_true_iff

@[simp] theorem real_isZero (a : ℝ) : Arith.isZero a = true ↔ a = 0 := decide_eq_true_iff

/-- Real numbers are near each other if their distance is below the tolerance. -/
theorem real_near (a b : ℝ) : Arith.near a b = true ↔ |a - b| < Arith.tolerance :=
  decide_eq_true_iff

/-- Every real number is near itself. -/
theorem real_near_self (a : ℝ) : Arith.near a a = true := by
  rw [real_near, sub_self, abs_zero]
  norm_num [Arith.tolerance]

/-- One and zero are not near each other. -/
theorem real_not_near_one_zero : Arith.near (1 : ℝ) 0 = false := by
  rw [Bool.eq_false_iff, ne_eq, real_near]
  norm_num [Arith.tolerance]

/-- A number close to a whole one has the parity of that one. -/
theorem real_parity_of_lt {d v : ℝ} (h : |v - round v| < d) :
    Arith.parity d v = .ok (some (.ofInt (round v))) := congrArg Except.ok (if_pos h)

/-- A number that is not near a whole one has no parity. -/
theorem real_parity_of_not_lt {d v : ℝ} (h : ¬|v - round v| < d) :
    Arith.parity d v = .ok none := congrArg Except.ok (if_neg h)

/-- Real numbers are compared exactly. -/
theorem real_beq (a b : ℝ) : (Arith.toBEq.beq a b) = true ↔ a = b := decide_eq_true_iff

/-- What is defined under a condition has its value exactly there. -/
theorem definedOr_eq_ok {fault : MathFault} {p : Prop} {v r : ℝ} :
    definedOr fault p v = .ok r ↔ p ∧ v = r := by
  unfold definedOr
  by_cases hp : p
  · simp [hp]
  · simp [hp]

/-- A binary operation has a value exactly where it is defined. -/
theorem compute_eq_ok {op : BinOp} {a b r : ℝ} :
    op.compute a b = .ok r ↔ op.DefinedAt a b ∧ op.real a b = r := by
  cases op with
  | add | sub | mul =>
      simp [BinOp.compute, BinOp.DefinedAt, BinOp.real, Arith.add, Arith.sub, Arith.mul]
  | div | pow => exact definedOr_eq_ok

/-- A function has a value exactly where it is defined. -/
theorem apply_eq_ok {f : Fn} {v r : ℝ} :
    Arith.apply f v = .ok r ↔ f.DefinedAt v ∧ f.real v = r := definedOr_eq_ok

end Fluxion

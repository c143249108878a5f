import Fluxion.Proofs.Number.Units

/-!
# Fluxion.Proofs.Number.Extended

Double precision numbers with exact arithmetic.

Every real number is a finite one here, and nothing is rounded; beside them there are the two
infinities, and what is not a number.  Sums, differences, products, quotients and comparisons are
those of double precision numbers but for the rounding.  Powers and functions are those of the real
numbers, and have no value elsewhere.

* `Extended.ofFloat`: the number that a double precision number stands for;
* `Extended.le_ofFloat`: comparisons are the same.
-/

namespace Fluxion

open Float.Model Float.Model.UnpackedFloat

/-- The extended real numbers, and what is none. -/
inductive Extended where
  | number (x : EReal)
  | notANumber

namespace Extended

/-- A real number. -/
def real (x : ℝ) : Extended := .number x

open Classical in
/-- Infinities of opposite signs have no sum. -/
noncomputable def add : Extended → Extended → Extended
  | .number x, .number y =>
    if (x = ⊤ ∧ y = ⊥) ∨ (x = ⊥ ∧ y = ⊤) then .notANumber else .number (x + y)
  | _, _ => .notANumber

noncomputable def neg : Extended → Extended
  | .number x => .number (-x)
  | .notANumber => .notANumber

/-- An infinite number. -/
def IsInfinite (x : EReal) : Prop := x = ⊤ ∨ x = ⊥

open Classical in
/-- Zero and an infinity have no product. -/
noncomputable def mul : Extended → Extended → Extended
  | .number x, .number y =>
    if (x = 0 ∧ IsInfinite y) ∨ (IsInfinite x ∧ y = 0) then .notANumber else .number (x * y)
  | _, _ => .notANumber

open Classical in
/-- There is no division by zero, and infinities have no quotient. -/
noncomputable def div : Extended → Extended → Except MathFault Extended
  | .number x, .number y =>
    if y = 0 then .error .divisionByZero
    else if IsInfinite x ∧ IsInfinite y then .ok .notANumber else .ok (.number (x / y))
  | _, .number y => if y = 0 then .error .divisionByZero else .ok .notANumber
  | _, .notANumber => .ok .notANumber

open Classical in
/-- The real number, if it is one. -/
noncomputable def real? : Extended → Except MathFault ℝ
  | .number x => if IsInfinite x then .error .domain else .ok x.toReal
  | .notANumber => .error .domain

open Classical in
noncomputable def lt : Extended → Extended → Bool
  | .number x, .number y => decide (x < y)
  | _, _ => false

open Classical in
noncomputable def le : Extended → Extended → Bool
  | .number x, .number y => decide (x ≤ y)
  | _, _ => false

open Classical in
/-- The parity of the whole number that differs by less than `d`. -/
noncomputable def parity (d : Extended) : Extended → Except MathFault (Option Parity)
  | .number x =>
    if IsInfinite x then .error .infiniteInteger
    else if lt (real |x.toReal - round x.toReal|) d then .ok (some (.ofInt (round x.toReal)))
    else .ok none
  | .notANumber => .error .undefinedInteger

/-- The difference, whichever of the two is greater. -/
noncomputable def distance (a b : Extended) : Extended :=
  let d := add a (neg b)
  if lt d (real 0) then neg d else d

open Classical in
noncomputable instance : Arith Extended where
  beq a b := decide (a = b ∧ a ≠ .notANumber)
  zero := real 0
  one := real 1
  two := real Arith.two
  ofDecimal mantissa exponent := real (Arith.ofDecimal mantissa exponent)
  ofNat n := .ok (real n)
  add := add
  sub a b := add a (neg b)
  mul := mul
  neg := neg
  div := div
  pow a b := do return real (← Arith.pow (← a.real?) (← b.real?))
  apply f a := do return real (← Arith.apply f (← a.real?))
  lt := lt
  le := le
  tolerance := real Arith.tolerance
  closer d a b := lt (distance a b) d
  finite
    | .number x => decide ¬IsInfinite x
    | .notANumber => false
  parity := parity

/-! ## what the instance says -/

section

variable {a b c : Extended} {x y : ℝ}

/-- The order of numbers is that of the extended reals. -/
theorem lt_number {x y : EReal} : Arith.lt (number x) (number y) = true ↔ x < y :=
  decide_eq_true_iff

/-- The weak order of numbers is that of the extended reals. -/
theorem le_number {x y : EReal} : Arith.le (number x) (number y) = true ↔ x ≤ y :=
  decide_eq_true_iff

/-- Real numbers are ordered as they are. -/
@[simp] theorem lt_real : Arith.lt (real x) (real y) = true ↔ x < y :=
  lt_number.trans EReal.coe_lt_coe_iff

@[simp] theorem le_real : Arith.le (real x) (real y) = true ↔ x ≤ y :=
  le_number.trans EReal.coe_le_coe_iff

/-- Finite numbers are those that are not infinite. -/
theorem finite_number {x : EReal} : Arith.finite (number x) = true ↔ ¬IsInfinite x := by
  classical
  exact decide_eq_true_iff

@[simp] theorem finite_real (x : ℝ) : Arith.finite (real x) = true :=
  finite_number.mpr (by simp [IsInfinite])

/-- With a finite first number sums are those of the extended reals. -/
theorem add_number {x y : EReal} (hx : ¬IsInfinite x) :
    Arith.add (number x) (number y) = number (x + y) := by
  rw [IsInfinite, not_or] at hx
  exact if_neg (by simp [hx])

/-- With a finite first number differences are those of the extended reals. -/
theorem sub_number {x y : EReal} (hx : ¬IsInfinite x) :
    Arith.sub (number x) (number y) = number (x - y) := add_number hx

theorem add_real (x y : ℝ) : Arith.add (real x) (real y) = real (x + y) :=
  add_number (by simp [IsInfinite])

theorem sub_real (x y : ℝ) : Arith.sub (real x) (real y) = real (x - y) :=
  sub_number (by simp [IsInfinite])

/-- Products with a finite number that is not zero are those of the extended reals. -/
theorem mul_number {x y : EReal} (hx : ¬IsInfinite x) (hzero : x ≠ 0) :
    Arith.mul (number x) (number y) = number (x * y) :=
  if_neg (by simp [hx, hzero])

/-- A weak and a strict comparison one after the other. -/
theorem lt_of_le_of_lt (h : Arith.le a b = true) (h' : Arith.lt b c = true) :
    Arith.lt a c = true := by
  cases a with
  | notANumber => cases h
  | number x =>
      cases b with
      | notANumber => cases h
      | number y =>
          cases c with
          | notANumber => cases h'
          | number z => exact lt_number.mpr ((le_number.mp h).trans_lt (lt_number.mp h'))

/-- A strict and a weak comparison one after the other. -/
theorem lt_of_lt_of_le (h : Arith.lt a b = true) (h' : Arith.le b c = true) :
    Arith.lt a c = true := by
  cases a with
  | notANumber => cases h
  | number x =>
      cases b with
      | notANumber => cases h
      | number y =>
          cases c with
          | notANumber => cases h'
          | number z => exact lt_number.mpr ((lt_number.mp h).trans_le (le_number.mp h'))

end

/-! ## double precision numbers -/

open Binary64

/-- The number that a double precision number stands for. -/
noncomputable def ofFloat (v : Float) : Extended :=
  match parts v with
  | .notANumber => .notANumber
  | .infinity .positive => .number ⊤
  | .infinity .negative => .number ⊥
  | .zero _ | .finite _ _ _ _ => real (value v)

/-- A finite number stands for its value. -/
theorem ofFloat_of_finite {v : Float} (hv : Arith.finite v = true) :
    ofFloat v = real (value v) := by
  rw [finite_eq] at hv
  rw [ofFloat]
  cases h : parts v with
  | notANumber | infinity => rw [h] at hv; cases hv
  | zero | finite => rfl

/-- A number is finite exactly if what it stands for is. -/
theorem finite_ofFloat (v : Float) : Arith.finite (ofFloat v) = Arith.finite v := by
  by_cases hv : Arith.finite v = true
  · rw [ofFloat_of_finite hv, finite_real, hv]
  · rw [Bool.not_eq_true] at hv
    rw [hv]
    rw [finite_eq] at hv
    rw [ofFloat]
    cases h : parts v with
    | notANumber => rfl
    | infinity s => cases s <;> simp [Arith.finite, IsInfinite]
    | zero | finite => rw [h] at hv; cases hv

/-- Numbers that are compared are finite, infinite or none. -/
theorem le_ofFloat (v w : Float) : Arith.le (ofFloat v) (ofFloat w) = Arith.le v w := by
  have hle : Arith.le v w = (parts v).le (parts w) :=
    Bool.decide_eq_true.trans Bool.decide_eq_true
  by_cases h : Arith.finite v = true ∧ Arith.finite w = true
  · rw [Bool.eq_iff_iff, ofFloat_of_finite h.1, ofFloat_of_finite h.2, le_real, hle,
      parts_le_iff h.1 h.2]
  · rw [finite_eq, finite_eq] at h
    rw [hle, ofFloat, ofFloat]
    revert h
    cases parts v with
    | notANumber => intro _; rfl
    | infinity s =>
        cases parts w with
        | notANumber => intro _; cases s <;> rfl
        | infinity t => intro _; cases s <;> cases t <;> simp [Arith.le, le] <;> rfl
        | zero | finite => intro _; cases s <;> simp [Arith.le, le, real] <;> rfl
    | zero | finite => 
        cases parts w with
        | notANumber => intro _; rfl
        | infinity t => intro _; cases t <;> simp [Arith.le, le, real] <;> rfl
        | zero | finite => intro h; exact absurd ⟨rfl, rfl⟩ h

/-- A number is not below zero exactly if what it stands for is not. -/
theorem nonneg_ofFloat (v : Float) : Arith.nonneg (ofFloat v) = Arith.nonneg v := by
  have hzero : (Arith.zero : Extended) = ofFloat Arith.zero := by
    change real 0 = ofFloat 0
    rw [ofFloat_of_finite finite_zero, value_zero]
  rw [Arith.nonneg, hzero, le_ofFloat, Arith.nonneg]

end Extended

end Fluxion

import Fluxion.Number.Arith

/-!
# Fluxion.Number.Binary64

Double precision numbers as an instance of `Arith`.

Arithmetic follows the binary64 format; where a result is undefined (`0/0`,
a root of a negative number) or a finite computation overflows to infinity, the
operations that can be partial answer a fault instead.  Infinite and undefined
operands are carried through quietly where the operation is defined on them.
-/

namespace Fluxion

namespace Binary64

/-- Half the circumference of the unit circle. -/
def pi : Float := 3.141592653589793

/-- Numbers that differ by less than this are not told apart by the rules of simplification. -/
def tolerance : Float := 1e-6

/-- The least magnitude from which on every number is whole. -/
def wholeFrom : Float := 4503599627370496.0

/-- The nearest whole number, the even one of two.  Adding and taking away `wholeFrom` leaves no
room for a fractional part, and the addition rounds as required. -/
def round (v : Float) : Float :=
  if wholeFrom ≤ v.abs then v
  else if v < 0 then (v - wholeFrom) + wholeFrom
  else (v + wholeFrom) - wholeFrom

/-- A whole number is even when its half is whole. -/
def wholeParity (v : Float) : Parity :=
  if round (v / 2) == v / 2 then .even else .odd

/-- Numbers that differ by less than `d`. -/
def closer (d a b : Float) : Bool := (a - b).abs < d

/-- The parity of the whole number within a tolerance, if any. -/
def parity (d v : Float) : Except MathFault (Option Parity) :=
  if v.isNaN then .error .undefinedInteger
  else if v.isInf then .error .infiniteInteger
  else if closer d v (round v) then .ok (some (wholeParity (round v)))
  else .ok none

/-- Division; there is none by zero. -/
def div (a b : Float) : Except MathFault Float :=
  if b == 0 then .error .divisionByZero else .ok (a / b)

/-- Powers.  Finite operands have an undefined power when the base is negative and the exponent no
whole number, or when zero is raised to a negative exponent; an overflow is out of range. -/
def pow (a b : Float) : Except MathFault Float :=
  let r := a.pow b
  if a.isFinite && b.isFinite then
    if r.isNaN then .error .domain
    else if r.isInf then .error (if a == 0 then .domain else .range)
    else .ok r
  else .ok r

/-- A function value, which must be defined wherever the argument is. -/
def inDomain (v r : Float) : Except MathFault Float :=
  if r.isNaN && !v.isNaN then .error .domain else .ok r

/-- The elementary functions.  The cotangent is the inverse of the tangent, and the inverse
cotangent is measured from the right angle, so its values lie between `0` and `pi`. -/
def apply (f : Fn) (v : Float) : Except MathFault Float :=
  match f with
  | .sin => inDomain v v.sin
  | .cos => inDomain v v.cos
  | .tan => inDomain v v.tan
  | .cot => do div 1 (← inDomain v v.tan)
  | .arcsin => inDomain v v.asin
  | .arccos => inDomain v v.acos
  | .arctan => .ok v.atan
  | .arccot => .ok (pi / 2 - v.atan)
  | .sqrt => inDomain v v.sqrt
  | .ln => if v ≤ 0 then .error .domain else .ok v.log

/-- The nearest number to `mantissa · 10 ^ exponent`.  Numbers of more than 400 digits before the
point are infinite, and those that begin more than 400 digits after it are zero, so neither is
written out. -/
def ofDecimal (mantissa : Nat) (exponent : Int) : Float :=
  let digits : Int := (Nat.toDigits 10 mantissa).length
  if mantissa = 0 ∨ digits + exponent < -400 then 0
  else if 400 < digits + exponent then 1.0 / 0.0
  else match exponent with
    | .ofNat e => .ofScientific mantissa false e
    | .negSucc e => .ofScientific mantissa true (e + 1)

/-- The nearest number to a whole one. -/
def ofNat (n : Nat) : Except MathFault Float :=
  let v := ofDecimal n 0
  if v.isFinite then .ok v else .error .integerTooLarge

end Binary64

instance : Arith Float where
  zero := 0
  one := 1
  two := 2
  ofDecimal := Binary64.ofDecimal
  ofNat := Binary64.ofNat
  add := (· + ·)
  sub := (· - ·)
  mul := (· * ·)
  neg := (-·)
  div := Binary64.div
  pow := Binary64.pow
  apply := Binary64.apply
  lt a b := a < b
  le a b := a ≤ b
  tolerance := Binary64.tolerance
  closer := Binary64.closer
  finite := Float.isFinite
  parity := Binary64.parity

end Fluxion

/-!
# Fluxion.Number.Arith

What the library asks of a type of numbers.  Every operation on formulas
(evaluation, simplification, derivatives, Taylor series, plot limits) is
written over the class `Arith`, so the same definitions compute on machine
numbers (`Fluxion.Number.Binary64`) and can be read over exact ones.

Operations that have no value everywhere (division, powers, the elementary
functions, conversions of whole numbers) answer `Except MathFault`; sums,
differences and products always have a value.
-/

namespace Fluxion

/-- Why an operation on numbers has no value. -/
inductive MathFault where
  /-- a divisor is zero -/
  | divisionByZero
  /-- the argument lies outside the domain of the function -/
  | domain
  /-- the result of finite arguments is too large -/
  | range
  /-- an infinite number is rounded to a whole one -/
  | infiniteInteger
  /-- a number that is not a number is rounded to a whole one -/
  | undefinedInteger
  /-- a whole number is too large to be represented -/
  | integerTooLarge
  deriving DecidableEq

/-- The text by which a fault is reported. -/
def MathFault.message : MathFault → String
  | .divisionByZero => "float division by zero"
  | .domain => "math domain error"
  | .range => "math range error"
  | .infiniteInteger => "cannot convert float infinity to integer"
  | .undefinedInteger => "cannot convert float NaN to integer"
  | .integerTooLarge => "int too large to convert to float"

/-- The elementary functions. -/
inductive Fn where
  | sin | cos | tan | cot
  | arcsin | arccos | arctan | arccot
  | sqrt | ln
  deriving DecidableEq

namespace Fn

/-- The name by which a function is written. -/
def name : Fn → String
  | sin => "sin" | cos => "cos" | tan => "tan" | cot => "cot"
  | arcsin => "arcsin" | arccos => "arccos" | arctan => "arctan" | arccot => "arccot"
  | sqrt => "sqrt" | ln => "ln"

/-- All elementary functions. -/
def all : List Fn :=
  [sin, cos, tan, cot, arcsin, arccos, arctan, arccot, sqrt, ln]

/-- The function of that name. -/
def ofName? (s : String) : Option Fn := all.find? (·.name == s)

end Fn

/-- Whether a whole number is divisible by two. -/
inductive Parity where
  | even | odd
  deriving DecidableEq

/-- Numbers that formulas can be computed with. -/
class Arith (α : Type) extends BEq α where
  zero : α
  one : α
  two : α
  /-- The number `mantissa · 10 ^ exponent`. -/
  ofDecimal (mantissa : Nat) (exponent : Int) : α
  /-- A whole number, which may be too large. -/
  ofNat (n : Nat) : Except MathFault α
  add : α → α → α
  sub : α → α → α
  mul : α → α → α
  neg : α → α
  div : α → α → Except MathFault α
  pow : α → α → Except MathFault α
  apply : Fn → α → Except MathFault α
  /-- `lt a b` says that `a` is less than `b`. -/
  lt : α → α → Bool
  /-- `le a b` says that `a` is at most `b`. -/
  le : α → α → Bool
  /-- The tolerance of the rules of simplification. -/
  tolerance : α
  /-- `closer d a b` says that `a` and `b` differ by less than `d`. -/
  closer : α → α → α → Bool
  /-- Neither infinite nor undefined. -/
  finite : α → Bool
  /-- The parity of the whole number that lies within a tolerance of a number, if there is one. -/
  parity : α → α → Except MathFault (Option Parity)

namespace Arith

variable {α : Type} [Arith α]

/-- Below zero. -/
def negative (v : α) : Bool := lt v zero

/-- Zero or above. -/
def nonneg (v : α) : Bool := le zero v

/-- Two numbers that the rules of simplification do not tell apart. -/
def near (a b : α) : Bool := closer tolerance a b

/-- Equal to zero, without any tolerance. -/
def isZero (v : α) : Bool := v == zero

end Arith

end Fluxion

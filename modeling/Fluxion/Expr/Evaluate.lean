import Fluxion.Expr.Basic
import Fluxion.Text.Quoted

/-!
# Fluxion.Expr.Evaluate

The value of an expression under an assignment of its variables.

Operands are evaluated from left to right before the operation itself, so the first operand without
a value decides which error is reported.
-/

namespace Fluxion

/-- Why an expression has no value. -/
inductive EvalError where
  | unbound (name : String)
  | fault (f : MathFault)
  deriving DecidableEq

/-- The text by which an error is reported. -/
def EvalError.message : EvalError → String
  | unbound x => "no value for variable " ++ Text.quoted x
  | fault f => f.message

/-- An assignment of values to names. -/
abbrev Assignment (α : Type) := String → Option α

namespace Assignment

variable {α : Type}

/-- The assignment of one variable. -/
def single (x : String) (v : α) : Assignment α := fun y => if y = x then some v else none

/-- The assignment of a list of values; of several for one name the last counts. -/
def ofList (values : List (String × α)) : Assignment α :=
  fun x => (values.reverse.find? (·.1 == x)).map (·.2)

/-- The assignment with a value changed. -/
def update (env : Assignment α) (x : String) (v : α) : Assignment α :=
  fun y => if y = x then some v else env y

end Assignment

/-- The value of an expression. -/
def Expr.evaluate {α : Type} [Arith α] (env : Assignment α) : Expr α → Except EvalError α
  | num v => .ok v
  | var x =>
    match env x with
    | some v => .ok v
    | none => .error (.unbound x)
  | bin op a b => do
    let v ← a.evaluate env
    let w ← b.evaluate env
    (op.compute v w).mapError .fault
  | neg a => do
    let v ← a.evaluate env
    return Arith.neg v
  | app f a => do
    let v ← a.evaluate env
    (Arith.apply f v).mapError .fault

end Fluxion

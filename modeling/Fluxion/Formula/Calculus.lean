import Fluxion.Expr.Derivative
import Fluxion.Expr.Evaluate
import Fluxion.Formula.Simplify

/-!
# Fluxion.Formula.Calculus

Derivatives, values put for variables, Taylor series and tangents of formulas.

Every operation is by a variable of the formula's table.  Series and tangents are simplified on the
way and at the end, and what simplification notes is noted in that order.

* `Formula.differentiate`, `Formula.substitute`, `Formula.evaluate`;
* `Formula.series`: the Taylor polynomial, from the derivatives at the center;
* `Formula.tangent`: the tangent line.
-/

namespace Fluxion

/-- Why an operation of calculus has no result. -/
inductive CalculusError (α : Type) where
  | unknownVariable (x : String) (vars : Names)
  | negativeOrder (order : Int)
  | simplify (e : SimplifyError α (Expr α))
  /-- a coefficient of a series cannot be represented -/
  | fault (f : MathFault)

/-- The text by which an error is reported. -/
def CalculusError.message {α : Type} [Numeral α] : CalculusError α → String
  | unknownVariable x vars =>
    "unknown variable " ++ Text.quoted x ++ ", expression has "
      ++ (if vars.isEmpty then "no variables" else Text.quotedList vars)
  | negativeOrder n => "series order must not be negative, got " ++ toString n
  | simplify e => e.message Expr.display
  | fault f => f.message

/-- The product of the numbers from one on. -/
def factorial : Nat → Nat
  | 0 => 1
  | n + 1 => (n + 1) * factorial n

namespace Formula

variable {α : Type} [Arith α]

/-- The variable has to be in the table. -/
def requireVar (f : Formula α) (x : String) : Except (CalculusError α) Unit :=
  if f.vars.contains x then .ok () else .error (.unknownVariable x f.vars)

/-- The derivative, as the rules give it. -/
def differentiate (f : Formula α) (x : String) : Except (CalculusError α) (Formula α) := do
  f.requireVar x
  return f.withRoot (f.root.derivative x)

/-- A number put for a variable. -/
def atPoint (f : Formula α) (x : String) (v : α) : Formula α :=
  f.withRoot (Expr.subst x (Term.literal v) f.root)

/-- A number put for a variable of the table. -/
def substitute (f : Formula α) (x : String) (v : α) : Except (CalculusError α) (Formula α) := do
  f.requireVar x
  return f.atPoint x v

/-- The value under an assignment. -/
def evaluate (f : Formula α) (env : Assignment α) : Except EvalError α := f.root.evaluate env

/-- The distance of a variable from a point; from zero it is the variable itself. -/
def distance (x : String) (center : α) : Expr α :=
  if Arith.isZero center then .var x else .bin .sub (.var x) (Term.literal center)

/-- The term of a Taylor series: a coefficient times a power, over the factorial. -/
def seriesTerm (x : String) (center : α) (power : Nat) (coefficient : Expr α) :
    Except MathFault (Expr α) :=
  if power = 0 then .ok coefficient
  else do
    let n ← Arith.ofNat power
    let d ← Arith.ofNat (factorial power)
    return .bin .div (.bin .mul coefficient (.bin .pow (distance x center) (.num n))) (.num d)

/-- A sum with one more term. -/
def addTerm (terms : Option (Expr α)) (term : Expr α) : Expr α :=
  match terms with
  | some e => .bin .add e term
  | none => term

variable [Numeral α]

/-- Simplification as a part of an operation of calculus. -/
def simplified (s : Strictness) (f : Formula α) : Working α (CalculusError α) (Formula α) :=
  (f.simplify s).mapError .simplify

/-- The terms of a series from a power on, `more` after it, added to those before.  Coefficients
near zero give no term. -/
def seriesFrom (s : Strictness) (x : String) (center : α) (power more : Nat)
    (derivative : Formula α) (terms : Option (Expr α)) :
    Working α (CalculusError α) (Option (Expr α)) := do
  let value ← (derivative.atPoint x center).simplified s
  .note (.coefficient power value.root)
  let terms ←
    if Term.nearZero value.root then pure terms
    else do
      let term ← .lift ((seriesTerm x center power value.root).mapError .fault)
      pure (some (addTerm terms term))
  match more with
  | 0 => return terms
  | more + 1 => do
    let next ← (derivative.withRoot (derivative.root.derivative x)).simplified s
    seriesFrom s x center (power + 1) more next terms

/-- The Taylor polynomial of an order. -/
def series (s : Strictness) (f : Formula α) (x : String) (center : α) (order : Int) :
    Working α (CalculusError α) (Formula α) := do
  .lift (f.requireVar x)
  match order with
  | .negSucc n => .fail (.negativeOrder (.negSucc n))
  | .ofNat n => do
    let terms ← seriesFrom s x center 0 n f none
    (f.withRoot (terms.getD (.num Arith.zero))).simplified s

/-- The tangent line at a point. -/
def tangent (s : Strictness) (f : Formula α) (x : String) (point : α) :
    Working α (CalculusError α) (Formula α) := do
  .lift (f.requireVar x)
  let value ← (f.atPoint x point).simplified s
  let slope ← ((f.withRoot (f.root.derivative x)).atPoint x point).simplified s
  (f.withRoot (.bin .add value.root (.bin .mul slope.root (distance x point)))).simplified s

end Formula

end Fluxion

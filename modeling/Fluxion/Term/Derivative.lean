import Fluxion.Term.Basic

/-!
# Fluxion.Term.Derivative

The rules of differentiation: the derivative of a node, from its operands and their derivatives.
Nothing is simplified.
-/

namespace Fluxion.Term

variable {α β : Type} [Arith α] [Term α β]

/-- The number one. -/
def unit : β := num Arith.one

/-- The square of a term. -/
def square (u : β) : β := bin .pow u (num Arith.two)

/-- One divided by a term. -/
def inverse (u : β) : β := bin .div unit u

/-- The derivative of a function, at an operand. -/
def outerDerivative (f : Fn) (u : β) : β :=
  match f with
  | .sin => app .cos u
  | .cos => neg (app .sin u)
  | .tan => inverse (square (app .cos u))
  | .cot => neg (inverse (square (app .sin u)))
  | .arcsin => inverse (app .sqrt (bin .sub unit (square u)))
  | .arccos => neg (inverse (app .sqrt (bin .sub unit (square u))))
  | .arctan => inverse (bin .add unit (square u))
  | .arccot => neg (inverse (bin .add unit (square u)))
  | .sqrt => inverse (bin .mul (num Arith.two) (app .sqrt u))
  | .ln => inverse u

/-- The derivative of a function of `u`, by the chain rule. -/
def chain (f : Fn) (u du : β) : β := bin .mul (outerDerivative f u) du

/-- The derivative of a product. -/
def productRule (a b da db : β) : β := bin .add (bin .mul da b) (bin .mul a db)

/-- The derivative of a quotient. -/
def quotientRule (a b da db : β) : β :=
  bin .div (bin .sub (bin .mul da b) (bin .mul a db)) (square b)

/-- The derivative of a power with a constant base, which brings the logarithm of the base. -/
def constantBase (a b db : β) : β := bin .mul (bin .mul (app .ln a) (bin .pow a b)) db

/-- The derivative of a power with a constant exponent, which comes down. -/
def constantExponent (a b da : β) : β :=
  bin .mul (bin .mul b (bin .pow a (bin .sub b unit))) da

/-- The derivative of a power both of whose operands vary, by its logarithm. -/
def variablePower (a b da db : β) : β :=
  bin .mul (bin .pow a b) (bin .add (bin .mul db (app .ln a)) (bin .div (bin .mul b da) a))

end Fluxion.Term

import Fluxion.Expr.Basic
import Fluxion.Term.Derivative

/-!
# Fluxion.Expr.Derivative

Symbolic derivatives, and values put for variables.

An operand that does not depend on the variable has derivative zero as a whole; a power follows one
of three rules, according to which of its operands depend on the variable.  Nothing is simplified.
-/

namespace Fluxion.Expr

variable {α : Type}

section

variable [Arith α]

/-- The derivative of a power, by the rule for its operands. -/
def powerDerivative (x : String) (a b da db : Expr α) : Expr α :=
  if a.isConst x then Term.constantBase a b db
  else if b.isConst x then Term.constantExponent a b da
  else Term.variablePower a b da db

/-- The derivative of a binary node that depends on the variable, from those of its operands. -/
def binDerivative (x : String) (op : BinOp) (a b da db : Expr α) : Expr α :=
  match op with
  | .add => bin .add da db
  | .sub => bin .sub da db
  | .mul => Term.productRule a b da db
  | .div => Term.quotientRule a b da db
  | .pow => powerDerivative x a b da db

/-- The derivative of an expression by a variable. -/
def derivative (x : String) : Expr α → Expr α
  | num _ => num Arith.zero
  | var y => if y = x then Term.unit else num Arith.zero
  | bin op a b =>
    if (bin op a b).isConst x then num Arith.zero
    else binDerivative x op a b (a.derivative x) (b.derivative x)
  | neg a => if a.isConst x then num Arith.zero else neg (a.derivative x)
  | app f a => if a.isConst x then num Arith.zero else Term.chain f a (a.derivative x)

end

/-- An expression put for a variable. -/
def subst (x : String) (value : Expr α) : Expr α → Expr α
  | num v => num v
  | var y => if y = x then value else var y
  | bin op a b => bin op (subst x value a) (subst x value b)
  | neg a => neg (subst x value a)
  | app f a => app f (subst x value a)

end Fluxion.Expr

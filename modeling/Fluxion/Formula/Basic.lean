import Fluxion.Expr.Display
import Fluxion.Names

/-!
# Fluxion.Formula.Basic

A formula is an expression with the table of its variables.  The table may hold names
that no longer occur: operations on formulas keep it as it is, so a formula remembers
what it was a formula in.
-/

namespace Fluxion

/-- An expression and its variables. -/
structure Formula (α : Type) where
  root : Expr α
  vars : Names

namespace Formula

variable {α : Type}

/-- Another expression in the same variables. -/
def withRoot (f : Formula α) (root : Expr α) : Formula α := { f with root }

/-- The same expression with a name in the table. -/
def addVar (f : Formula α) (x : String) : Except NamesFull (Formula α) := do
  return { f with vars := ← f.vars.add x }

/-- Equality of the expressions. -/
def same [BEq α] (f g : Formula α) : Bool := f.root.same g.root

/-- A list of names as it is shown. -/
def displayNames (names : Names) : String := "[" ++ Text.quotedList names ++ "]"

/-- A formula as it is shown: its expression as nested tuples, and its variables. -/
def display [Numeral α] (f : Formula α) : String :=
  "Tree (" ++ f.root.display ++ ", " ++ displayNames f.vars ++ ")"

end Formula

end Fluxion

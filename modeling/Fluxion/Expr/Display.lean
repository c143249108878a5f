import Fluxion.Expr.Basic
import Fluxion.Number.Numeral
import Fluxion.Text.Quoted

/-!
# Fluxion.Expr.Display

Expressions shown as nested tuples, the form that shows every node as it is:
`('+', ('@', 'x'), ('#', 1.0))`.
-/

namespace Fluxion.Expr

open Text

/-- A tuple of a node's quoted sign or name and its other components. -/
def tuple (head : String) (rest : List String) : String :=
  "(" ++ ", ".intercalate (quoted head :: rest) ++ ")"

/-- An expression as nested tuples. -/
def display {α : Type} [Numeral α] : Expr α → String
  | num v => tuple "#" [Numeral.exact v]
  | var x => tuple "@" [quoted x]
  | bin op a b => tuple op.symbol [a.display, b.display]
  | neg a => tuple negName [a.display]
  | app f a => tuple f.name [a.display]

end Fluxion.Expr

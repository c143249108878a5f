import Fluxion.Expr.Tex

/-!
# Fluxion.Expr.Infix

Expressions as plain infix text for plotting tools.

Every operation stands in round brackets, so no rule of precedence matters.  The functions that
such tools lack are written by others: the cotangent as the inverse of the tangent, and the inverse
cosine and cotangent by their complements to a right angle.
-/

namespace Fluxion

/-- A variable's name without the backslashes in front. -/
def plainName (x : String) : String := String.ofList (x.toList.dropWhile (· == '\\'))

namespace Expr

variable {α : Type}

/-- The sign of an operation in infix text. -/
def infixSign : BinOp → String
  | .pow => "**"
  | op => op.symbol

/-- A text in round brackets. -/
def bracketed (s : String) : String := "(" ++ s ++ ")"

/-- A function of an operand's text. -/
def infixCall (f : Fn) (arg : String) : String :=
  match f with
  | .sin => "sin" ++ bracketed arg
  | .cos => "cos" ++ bracketed arg
  | .tan => "tan" ++ bracketed arg
  | .cot => bracketed ("1/tan" ++ bracketed arg)
  | .arcsin => "asin" ++ bracketed arg
  | .arccos => bracketed ("pi/2 - asin" ++ bracketed arg)
  | .arctan => "atan" ++ bracketed arg
  | .arccot => bracketed ("pi/2 - atan" ++ bracketed arg)
  | .sqrt => "sqrt" ++ bracketed arg
  | .ln => "log" ++ bracketed arg

/-- The infix text of an expression. -/
def infixText [Arith α] [Numeral α] : Expr α → String
  | num v => if Arith.nonneg v then Numeral.plain v else bracketed (Numeral.plain v)
  | var x => plainName x
  | bin op a b => bracketed (a.infixText ++ " " ++ infixSign op ++ " " ++ b.infixText)
  | neg a => bracketed ("-" ++ a.infixText)
  | app f a => infixCall f a.infixText

end Expr

end Fluxion

import Fluxion.Expr.Basic
import Fluxion.Number.Numeral

/-!
# Fluxion.Expr.Tex

Expressions as LaTeX text that reads back.

Round brackets are written where the operand would otherwise be torn apart: around sums on the
right of a minus sign and in products, around everything but a variable under an exponent, and
around sums and products after a sign or a function.  Single numbers and variables never need them,
negative numbers do.
-/

namespace Fluxion

/-- The text of a number in a formula; zero is written without a sign. -/
def Numeral.plain {α : Type} [Numeral α] (v : α) : String :=
  let s := twelve v
  if s == "-0" then "0" else s

namespace Expr

variable {α : Type}

/-- A sum or a difference. -/
def isAdditive : Expr α → Bool
  | bin op _ _ => op.isAdditive
  | _ => false

/-- A sum, a difference or a product. -/
def isLoose : Expr α → Bool
  | bin op _ _ => op.isLoose
  | _ => false

/-- Written as a single unit. -/
def isAtomic [Arith α] : Expr α → Bool
  | num v => !Arith.negative v
  | var _ => true
  | _ => false

/-- A text in curly brackets. -/
def braced (s : String) : String := "\x7b" ++ s ++ "\x7d"

/-- The text of an operand, in round brackets if they are called for and it is no single unit. -/
def wrapped [Arith α] (e : Expr α) (brackets : Bool) (s : String) : String :=
  if brackets && !e.isAtomic then "\\left(" ++ s ++ " \\right)" else s

/-- The LaTeX text of an expression. -/
def tex [Arith α] [Numeral α] : Expr α → String
  | num v => Numeral.plain v
  | var x => x
  | bin .add a b => a.tex ++ " + " ++ b.tex
  | bin .sub a b => a.tex ++ " - " ++ b.wrapped b.isAdditive b.tex
  | bin .mul a b => a.wrapped a.isAdditive a.tex ++ " \\cdot " ++ b.wrapped b.isAdditive b.tex
  | bin .div a b => "\\frac" ++ braced a.tex ++ braced b.tex
  | bin .pow a b => a.wrapped (!a.isVar) a.tex ++ "^" ++ braced b.tex
  | neg a => "-" ++ a.wrapped a.isLoose a.tex
  | app .sqrt a => "\\sqrt" ++ braced a.tex
  | app f a => "\\" ++ f.name ++ " " ++ a.wrapped a.isLoose a.tex

end Expr

end Fluxion

import Fluxion.Expr.Basic
import Fluxion.Number.Arith

/-!
# Fluxion.Infix.Basic

Expressions in the infix notation of plotting tools.

There are fewer functions than elsewhere, and they have names of their own; beside the variables
there is a constant.  Decimals are kept as they are written.
-/

namespace Fluxion

/-- An expression in infix notation. -/
inductive Infix where
  /-- the decimal `mantissa · 10 ^ exponent` -/
  | number (mantissa : Nat) (exponent : Int)
  /-- half the circumference of the unit circle -/
  | pi
  | var (name : String)
  | bin (op : BinOp) (left right : Infix)
  | neg (arg : Infix)
  | call (fn : Fn) (arg : Infix)
  deriving DecidableEq

namespace Infix

/-- The names in an expression of infix notation. -/
def names : Infix → List String
  | number _ _ | pi => []
  | var x => [x]
  | bin _ a b => a.names ++ b.names
  | neg a | call _ a => a.names

/-- The functions of plotting tools, with their names. -/
def functions : List (String × Fn) :=
  [("sin", .sin), ("cos", .cos), ("tan", .tan), ("asin", .arcsin), ("atan", .arctan),
    ("sqrt", .sqrt), ("log", .ln)]

/-- The function of that name. -/
def function? (s : String) : Option Fn := functions.lookup s

/-- The name of the constant. -/
def piName : String := "pi"

/-- Names that do not stand for variables. -/
def reserved : List String := piName :: functions.map (·.1)

/-- The constant to sixteen digits. -/
def piValue {α : Type} [Arith α] : α := Arith.ofDecimal 3141592653589793 (-15)

/-- An expression of infix notation as an expression over numbers. -/
def toExpr {α : Type} [Arith α] : Infix → Expr α
  | number mantissa exponent => .num (Arith.ofDecimal mantissa exponent)
  | pi => .num piValue
  | var x => .var x
  | bin op a b => .bin op a.toExpr b.toExpr
  | neg a => .neg a.toExpr
  | call f a => .app f a.toExpr

end Infix

end Fluxion

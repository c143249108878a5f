import Fluxion.Number.Arith

/-!
# Fluxion.BinOp

The binary operations: how they are written, and what they compute.
-/

namespace Fluxion

/-- The binary operations. -/
inductive BinOp where
  | add | sub | mul | div | pow
  deriving DecidableEq

namespace BinOp

/-- The sign by which an operation is shown. -/
def symbol : BinOp → String
  | add => "+" | sub => "-" | mul => "*" | div => "/" | pow => "^"

/-- All binary operations. -/
def all : List BinOp := [add, sub, mul, div, pow]

/-- The operation of that sign. -/
def ofSymbol? (s : String) : Option BinOp := all.find? (·.symbol == s)

/-- Sums and differences. -/
def isAdditive : BinOp → Bool
  | add | sub => true
  | mul | div | pow => false

/-- Sums, differences and products. -/
def isLoose : BinOp → Bool
  | add | sub | mul => true
  | div | pow => false

/-- The result of a binary operation. -/
def compute {α : Type} [Arith α] : BinOp → α → α → Except MathFault α
  | add, a, b => .ok (Arith.add a b)
  | sub, a, b => .ok (Arith.sub a b)
  | mul, a, b => .ok (Arith.mul a b)
  | div, a, b => Arith.div a b
  | pow, a, b => Arith.pow a b

end BinOp

end Fluxion

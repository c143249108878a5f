import Fluxion.Expr.Basic
import Fluxion.Text.Quoted

/-!
# Fluxion.Expr.Build

Nodes made from the signs and names of operations.
-/

namespace Fluxion

/-- Why a sign or name makes no node. -/
inductive BuildError where
  | notUnary (op : String)
  | notBinary (op : String)
  deriving DecidableEq

/-- The text by which an error is reported. -/
def BuildError.message : BuildError → String
  | notUnary op => Text.quoted op ++ " is not a unary operator"
  | notBinary op => Text.quoted op ++ " is not a binary operator"

namespace Expr

variable {α : Type}

/-- The node of an operation on one operand. -/
def unary (op : String) (a : Expr α) : Except BuildError (Expr α) :=
  if op = negName then .ok (neg a)
  else
    match Fn.ofName? op with
    | some f => .ok (app f a)
    | none => .error (.notUnary op)

/-- The node of an operation on two operands. -/
def binary (op : String) (a b : Expr α) : Except BuildError (Expr α) :=
  match BinOp.ofSymbol? op with
  | some o => .ok (bin o a b)
  | none => .error (.notBinary op)

end Expr

end Fluxion

import Fluxion.Term.Basic

/-!
# Fluxion.Expr.Basic

Expressions: numbers, variables, five binary operations, negation and the elementary
functions.  They are terms, so the rules of simplification and of calculus apply to them.
-/

namespace Fluxion

/-- An expression over numbers `α`. -/
inductive Expr (α : Type) where
  | num (val : α)
  | var (name : String)
  | bin (op : BinOp) (left right : Expr α)
  | neg (arg : Expr α)
  | app (fn : Fn) (arg : Expr α)

namespace Expr

variable {α : Type}

/-- The name by which negation is shown. -/
def negName : String := "neg"

/-- Equality of shape, with numbers compared as numbers: a number that is undefined differs from
itself, and zero does not have a sign. -/
def same [BEq α] : Expr α → Expr α → Bool
  | num v, num w => v == w
  | var x, var y => x == y
  | bin o a b, bin p c d => o == p && a.same c && b.same d
  | neg a, neg b => a.same b
  | app f a, app g b => f == g && a.same b
  | _, _ => false

/-- The number of nodes. -/
def size : Expr α → Nat
  | num _ | var _ => 1
  | bin _ a b => 1 + a.size + b.size
  | neg a | app _ a => 1 + a.size

/-- Free of a variable. -/
def isConst (x : String) : Expr α → Bool
  | num _ => true
  | var y => y != x
  | bin _ a b => a.isConst x && b.isConst x
  | neg a | app _ a => a.isConst x

/-- A variable. -/
def isVar : Expr α → Bool
  | var _ => true
  | _ => false

/-- The nodes' signs and names in the order of writing: left operand, node, right operand, with
negations and functions before their operands. -/
def inOrder : Expr α → List String
  | num _ => ["#"]
  | var _ => ["@"]
  | bin op a b => a.inOrder ++ op.symbol :: b.inOrder
  | neg a => negName :: a.inOrder
  | app f a => f.name :: a.inOrder

/-- A number or a negation stands for itself; of all else a rule sees nothing. -/
def view : Expr α → View α (Expr α)
  | num v => .number v
  | neg a => .negation a
  | _ => .other

instance [BEq α] : Term α (Expr α) where
  num := num
  bin := bin
  neg := neg
  app := app
  view := view
  same := same

theorem size_pos (e : Expr α) : 0 < e.size := by
  cases e <;> simp only [size] <;> omega

end Expr

end Fluxion

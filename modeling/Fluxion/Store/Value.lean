import Fluxion.Expr.Evaluate
import Fluxion.Store.Sketch

/-!
# Fluxion.Store.Value

The value of what stands below a node.

Whether the operation is known is looked at first, then operands are evaluated from left to right.
The logarithm is the one function that has a use for an operand on its left: then its right operand
is the base.
-/

namespace Fluxion

namespace Sketch

variable {α : Type}

/-- Why a sketch has no value. -/
inductive ValueError where
  | node (e : NodeError)
  | eval (e : EvalError)
  /-- a variable without a name -/
  | nameless

/-- The text by which an error is reported. -/
def ValueError.message : ValueError → String
  | node e => e.message
  | eval e => e.message
  | nameless => "no value for variable " ++ nothing

variable [Arith α]

/-- The logarithm to a base. -/
def logarithm (v base : α) : Except MathFault α := do
  let num ← Arith.apply .ln v
  let den ← Arith.apply .ln base
  Arith.div num den

/-- The value of a function at an operand, or the operand negated if there is no function.  What was
evaluated on its left only counts for logarithms. -/
def applyTo (f : Option Fn) (left : Option α) (v : α) : Except MathFault α :=
  match f, left with
  | some .ln, some w => logarithm w v
  | some f, _ => Arith.apply f v
  | none, _ => .ok (Arith.neg v)

/-- The value of a sketch. -/
def evaluate (env : Assignment α) : Sketch α → Except ValueError α
  | missing => .error (.node (.missing "is_num"))
  | node op value l r =>
    match value with
    | some (.number v) => .ok v
    | some (.name x) => ((Expr.var x).evaluate env).mapError .eval
    | none =>
      if op = Cell.nameOp then .error .nameless
      else
        match BinOp.ofSymbol? op with
        | some o =>
          if l.isMissing then do
            discard (r.evaluate env)
            l.evaluate env
          else do
            let v ← l.evaluate env
            let w ← r.evaluate env
            (o.compute v w).mapError (.eval ∘ .fault)
        | none =>
          if Storing.isUnary op then do
            let left ← if l.isMissing then pure none else some <$> l.evaluate env
            let v ← r.evaluate env
            (applyTo (Fn.ofName? op) left v).mapError (.eval ∘ .fault)
          else .error (.node (.unknownOp op))

end Sketch

end Fluxion

import Fluxion.Store.Draft
import Fluxion.Term.Derivative

/-!
# Fluxion.Store.Derivative

The derivative of what stands below a node, and values put for names.

Both make new nodes and leave those that they look at alone.  The rules of differentiation are those
of expressions, applied to nodes that have yet to be made: a rule asks for copies of the operands and
for their derivatives, from left to right.  What does not depend on the variable is not looked into;
of all else the first part without a meaning is reported.

* `derivativeRule`: the rule for a node, from its operands and their derivatives;
* `Storing.derivative`, `Storing.substitute`: new nodes;
* `Sketch.derivative`: what they are to be.
-/

namespace Fluxion

variable {α : Type} [Arith α]

/-- The rule of differentiation for an operation that depends on the variable.  What a power needs to
know of its operands is whether they depend on the variable. -/
def derivativeRule {β : Type} {m : Type → Type} [Monad m] [MonadExcept NodeError m] [Term α (m β)]
    (op : String) (constantLeft constantRight : m Bool) (l r dl dr : m β) : m β :=
  match BinOp.ofSymbol? op with
  | some .add => Term.bin .add dl dr
  | some .sub => Term.bin .sub dl dr
  | some .mul => Term.productRule l r dl dr
  | some .div => Term.quotientRule l r dl dr
  | some .pow => do
    if ← constantLeft then Term.constantBase l r dr
    else if ← constantRight then Term.constantExponent l r dl
    else Term.variablePower l r dl dr
  | none =>
    if op = Expr.negName then Term.neg dr
    else
      match Fn.ofName? op with
      | some f => Term.chain f r dr
      | none => throw (.unknownOp op)

namespace Sketch

/-- An operand that is used as it is. -/
def present : Sketch α → Except NodeError (Sketch α)
  | missing => .error (.missing "copy")
  | e => .ok e

/-- Whether an operand depends on a variable, which has no answer if it is missing. -/
def isConst? (x : String) : Sketch α → Except NodeError Bool
  | missing => .error (.missing "is_const")
  | e => .ok (e.isConst x)

/-- The derivative of a sketch. -/
def derivative (x : String) : Sketch α → Except NodeError (Sketch α)
  | missing => .error (.missing "is_const")
  | node op value l r =>
    if (node op value l r).isConst x then Term.num Arith.zero
    else if op = Cell.nameOp then Term.unit
    else
      derivativeRule op (l.isConst? x) (r.isConst? x) l.present r.present (l.derivative x)
        (r.derivative x)

end Sketch

namespace Storing

/-- A copy of an operand. -/
def copy? : Option NodeId → Storing α NodeId
  | some n => copy n
  | none => throw (.missing "copy")

/-- Whether an operand depends on a variable. -/
def isConst? (x : String) : Option NodeId → Storing α Bool
  | some n => ask fun s => (s.sketch n).isConst x
  | none => throw (.missing "is_const")

/-- New nodes for the derivative of what stands below a node, to a depth. -/
def derivative (x : String) : Nat → Option NodeId → Storing α NodeId
  | _, none => throw (.missing "is_const")
  | 0, some _ => throw .noNode
  | depth + 1, some n => do
    if ← isConst? x (some n) then Term.num Arith.zero
    else
      let c ← cell n
      if c.op = Cell.nameOp then Term.unit
      else
        derivativeRule c.op (isConst? x c.left) (isConst? x c.right) (copy? c.left) (copy? c.right)
          (derivative x depth c.left) (derivative x depth c.right)

/-- A new node put into a place of another one, if there is a node to make it from. -/
def putFrom (m : NodeId) (slot : Slot) (c : Option NodeId) (make : NodeId → Storing α NodeId) :
    Storing α Unit := do
  match c with
  | some c => discard (setChild m slot (← make c))
  | none => pure ()

/-- New nodes for what stands below a node, to a depth, with copies of `value` in the place of a
name. -/
def substitute (x : String) (value : NodeId) : Nat → NodeId → Storing α NodeId
  | 0, _ => throw .noNode
  | depth + 1, n => do
    let c ← cell n
    if Sketch.isNamed x c.op c.value then copy value
    else
      let m ← alloc c.op c.value
      putFrom m .left c.left (substitute x value depth)
      putFrom m .right c.right (substitute x value depth)
      return m

end Storing

end Fluxion

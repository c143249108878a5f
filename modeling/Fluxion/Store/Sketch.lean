import Fluxion.Expr.Display
import Fluxion.Store.Basic

/-!
# Fluxion.Store.Sketch

What stands below a node of a store, with the links left out.

A sketch may have any operations, lack operands or have one too many, so it need not be an
expression.  Where a computation comes across a part without a meaning it fails, and the failure
names what was asked of the part (`NodeError.missing`, `NodeError.unknownOp`).  Sketches are terms:
the rules of simplification and of calculus see in them what they see in expressions, and leave an
operand too many where it is.

* `Store.sketch`, `Store.outlined`: what stands below a node;
* `Storing.plant`, `Storing.copy`: new nodes for a sketch.
-/

namespace Fluxion

/-- An operation with its value and operands, any of which may be missing. -/
inductive Sketch (α : Type) where
  | missing
  | node (op : String) (value : Option (Value α)) (left right : Sketch α)

namespace Sketch

variable {α : Type}

/-- No operand at all. -/
def isMissing : Sketch α → Bool
  | missing => true
  | node _ _ _ _ => false

/-- A leaf with a number. -/
def number (v : α) : Sketch α := node Cell.numberOp (some (.number v)) missing missing

/-- A leaf with a name. -/
def name (x : String) : Sketch α := node Cell.nameOp (some (.name x)) missing missing

/-- An operation on two operands. -/
def binary (op : BinOp) (l r : Sketch α) : Sketch α := node op.symbol none l r

/-- A negation. -/
def negation (r : Sketch α) : Sketch α := node Expr.negName none missing r

/-- A function of an operand. -/
def function (f : Fn) (r : Sketch α) : Sketch α := node f.name none missing r

/-- The number of nodes. -/
def size : Sketch α → Nat
  | missing => 0
  | node _ _ l r => 1 + l.size + r.size

/-- Equality of shape, with numbers compared as numbers. -/
def same [BEq α] : Sketch α → Sketch α → Bool
  | missing, missing => true
  | node o v a b, node p w c d =>
    let sameValue := match v, w with
      | some v, some w => v.same w
      | none, none => true
      | _, _ => false
    o == p && sameValue && a.same c && b.same d
  | _, _ => false

/-- Free of a variable. -/
def isConst (x : String) : Sketch α → Bool
  | missing => true
  | node op value l r =>
    if op = Cell.numberOp then true
    else if op = Cell.nameOp then
      match value with
      | some (.name y) => y != x
      | _ => true
    else l.isConst x && r.isConst x

/-- What a rule sees of an operation with a value and an operand on the right: a number, a negation
of the operand, or nothing. -/
def viewOf {β : Type} (op : String) (value : Option (Value α)) (right : β) : View α β :=
  if op = Cell.numberOp then
    match value with
    | some (.number v) => .number v
    | _ => .other
  else if op = Expr.negName then .negation right
  else .other

/-- What a rule sees. -/
def view : Sketch α → View α (Sketch α)
  | missing => .other
  | node op value _ r => viewOf op value r

instance [BEq α] : Term α (Sketch α) where
  num := number
  bin := binary
  neg := negation
  app := function
  view := view
  same := same

/-- A leaf with a name. -/
def isNamed (x : String) (op : String) (value : Option (Value α)) : Bool :=
  op == Cell.nameOp &&
    match value with
    | some (.name y) => y == x
    | _ => false

/-- A sketch put for a name. -/
def subst (x : String) (value : Sketch α) : Sketch α → Sketch α
  | missing => missing
  | node op v l r =>
    if isNamed x op v then value else node op v (subst x value l) (subst x value r)

/-- The word for what is missing. -/
def nothing : String := "None"

/-- A value as it is shown. -/
def displayValue [Numeral α] : Option (Value α) → String
  | some (.number v) => Numeral.exact v
  | some (.name x) => Text.quoted x
  | none => nothing

/-- A sketch as nested tuples. -/
def display [Numeral α] : Sketch α → String
  | missing => nothing
  | node op value l r =>
    if op = Cell.numberOp ∨ op = Cell.nameOp then Expr.tuple op [displayValue value]
    else if l.isMissing then Expr.tuple op [r.display]
    else Expr.tuple op [l.display, r.display]

/-- The sketch of an expression. -/
def ofExpr : Expr α → Sketch α
  | .num v => number v
  | .var x => name x
  | .bin op a b => binary op (ofExpr a) (ofExpr b)
  | .neg a => negation (ofExpr a)
  | .app f a => function f (ofExpr a)

end Sketch

/-! ## nodes and sketches -/

namespace Store

variable {α : Type}

/-- The sketch of what stands below a node, to a depth.  Nodes with a label are leaves of that
name. -/
def sketchTo (s : Store α) (label : NodeId → Option String) : Nat → Option NodeId → Sketch α
  | 0, _ | _, none => .missing
  | depth + 1, some n =>
    match label n, s[n]? with
    | some x, _ => .name x
    | none, some c =>
      .node c.op c.value (sketchTo s label depth c.left) (sketchTo s label depth c.right)
    | none, none => .missing

/-- The sketch of what stands below a node, with labels for some of the nodes below it. -/
def outlined (s : Store α) (label : NodeId → Option String) (n : NodeId) : Sketch α :=
  match s[n]? with
  | some c =>
    .node c.op c.value (s.sketchTo label s.length c.left) (s.sketchTo label s.length c.right)
  | none => .missing

/-- The sketch of what stands below a node. -/
def sketch (s : Store α) (n : NodeId) : Sketch α := s.outlined (fun _ => none) n

end Store

namespace Storing

variable {α : Type}

/-- New nodes for a sketch. -/
def plant? : Sketch α → Storing α (Option NodeId)
  | .missing => return none
  | .node op value l r => do
    let l ← plant? l
    let r ← plant? r
    return some (← node op value l r)

/-- New nodes for a sketch that is not missing. -/
def plant (e : Sketch α) : Storing α NodeId := do
  match ← plant? e with
  | some n => return n
  | none => throw .noNode

/-- New nodes for all below a node. -/
def copy (n : NodeId) : Storing α NodeId := do plant (← ask (·.sketch n))

end Storing

end Fluxion

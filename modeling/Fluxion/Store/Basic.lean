import Fluxion.Expr.Build
import Fluxion.Names

/-!
# Fluxion.Store.Basic

Expression nodes with an identity, linked to each other.

A store is a list of cells, and a node is the number of its cell.  A cell names its operation, holds
a value if it is a leaf, and links to two children and to its parent.  Links are changed in pairs,
so that a node is a child of its parent (`Store.attach`, `Store.detach`); only `Store.free` clears a
parent link alone.  Nothing keeps a node from being attached below itself.

Calls run in the monad `Storing`, whose state survives a failure: a node that could be made but not
be given all its children stays in the store.  A node that was taken apart stays as well, marked as
freed.
-/

namespace Fluxion

/-- A node of a store. -/
abbrev NodeId := Nat

/-- The value of a leaf. -/
inductive Value (α : Type) where
  | number (v : α)
  | name (x : String)

/-- Values are compared as numbers and as names. -/
def Value.same {α : Type} [BEq α] : Value α → Value α → Bool
  | number v, number w => v == w
  | name x, name y => x == y
  | _, _ => false

/-- The two places for children. -/
inductive Slot where
  | left | right
  deriving DecidableEq

namespace Slot

/-- The name of a place. -/
def name : Slot → String
  | left => "left" | right => "right"

/-- The place of that name. -/
def ofName? : String → Option Slot
  | "left" => some left
  | "right" => some right
  | _ => none

/-- The names of what else nodes have: fields, properties and methods. -/
def attributes : List String := [
  "op", "val", "parent", "operand", "children",
  "is_num", "is_var", "is_leaf", "is_binop", "is_unop", "is_neg", "is_func", "is_root",
  "is_val", "is_int", "is_const",
  "slot", "set_child", "detach", "replace", "destroy", "free", "copy", "size",
  "leftmost", "rightmost", "next", "prev"]

end Slot

/-- A name to look for a place by: that of a place, or one under which nodes have nothing.  The names
that begin with two underscores are those of the language. -/
structure SlotName where
  name : String
  unused : name ∉ Slot.attributes
  plain : name.toList.take 2 ≠ ['_', '_']

/-- A node's operation, value and links. -/
structure Cell (α : Type) where
  op : String
  value : Option (Value α)
  left : Option NodeId
  right : Option NodeId
  parent : Option NodeId
  /-- the node was given up and should not be used any more -/
  freed : Bool

namespace Cell

variable {α : Type}

/-- The operation of numbers. -/
def numberOp : String := "#"

/-- The operation of variables. -/
def nameOp : String := "@"

/-- A number or a variable, which cannot have children. -/
def isLeaf (c : Cell α) : Bool := c.op == numberOp || c.op == nameOp

/-- The child in a place. -/
def child (c : Cell α) : Slot → Option NodeId
  | .left => c.left
  | .right => c.right

/-- A cell with another child in a place. -/
def withChild (c : Cell α) (s : Slot) (n : Option NodeId) : Cell α :=
  match s with
  | .left => { c with left := n }
  | .right => { c with right := n }

/-- A cell with another parent. -/
def withParent (c : Cell α) (n : Option NodeId) : Cell α := { c with parent := n }

/-- A cell that was given up. -/
def givenUp (c : Cell α) : Cell α := { c with parent := none, freed := true }

/-- A number that differs from another one by less than `eps`. -/
def isNumberNear [Arith α] (c : Cell α) (v eps : α) : Bool :=
  match c.value with
  | some (.number w) => c.op == numberOp && Arith.closer eps w v
  | _ => false

/-- A number that differs from a whole one by less than `eps`. -/
def isInteger [Arith α] (c : Cell α) (eps : α) : Except MathFault Bool :=
  match c.value with
  | some (.number v) =>
    if c.op == numberOp then do return (← Arith.parity eps v).isSome else .ok false
  | _ => .ok false

/-- The children, from left to right. -/
def children (c : Cell α) : List NodeId := c.left.toList ++ c.right.toList

end Cell

/-- Linked nodes. -/
abbrev Store (α : Type) := List (Cell α)

/-- Why a call on nodes fails. -/
inductive NodeError where
  /-- there is no such node -/
  | noNode
  /-- the node is a child already -/
  | owned
  /-- a number or a variable cannot have children -/
  | leaf
  /-- the node still has children -/
  | hasChildren (op : String)
  /-- the node has a parent and cannot be a root -/
  | ownedRoot
  /-- nodes have no place of that name for a child -/
  | noSlot (name : String)
  | build (e : BuildError)
  /-- an operand is missing; the name is that of what was asked of it -/
  | missing (asked : String)
  /-- an operation without a meaning -/
  | unknownOp (op : String)

/-- The text by which an error is reported. -/
def NodeError.message : NodeError → String
  | noNode => "list index out of range"
  | owned => "node already has a parent, copy it first"
  | leaf => "leaf nodes can not have children"
  | hasChildren op => "can not free " ++ Text.quoted op ++ " node which still has children"
  | ownedRoot => "root node can not have a parent"
  | noSlot name => "'Node' object has no attribute " ++ Text.quoted name
  | build e => e.message
  | missing asked => "'NoneType' object has no attribute " ++ Text.quoted asked
  | unknownOp op => Text.quoted op

/-- A call on the nodes of a store. -/
abbrev Storing (α β : Type) := ExceptT NodeError (StateM (Store α)) β

namespace Store

variable {α : Type}

/-! ## links -/

/-- The parent of a node. -/
def parent? (s : Store α) (n : NodeId) : Option NodeId := (s[n]?).bind (·.parent)

/-- The child of a node in a place. -/
def child? (s : Store α) (n : NodeId) (slot : Slot) : Option NodeId := (s[n]?).bind (·.child slot)

/-- The store with the parent link of a node changed. -/
def setParent (s : Store α) (n : NodeId) (p : Option NodeId) : Store α :=
  s.modify n (·.withParent p)

/-- The store with a child link of a node changed. -/
def setChild (s : Store α) (n : NodeId) (slot : Slot) (c : Option NodeId) : Store α :=
  s.modify n (·.withChild slot c)

/-- The store with a node given up. -/
def giveUp (s : Store α) (n : NodeId) : Store α := s.modify n Cell.givenUp

/-- The place in which a node's parent holds it.  A parent that does not hold the node on the left
is taken to hold it on the right. -/
def slotIn (s : Store α) (p n : NodeId) : Slot :=
  if s.child? p .left = some n then .left else .right

/-- The place of a node below its parent, if it has one. -/
def slot? (s : Store α) (n : NodeId) : Option Slot := (s.parent? n).map (s.slotIn · n)

/-- The store with a node put into a place, and the child before it set free. -/
def attach (s : Store α) (n : NodeId) (slot : Slot) (c : NodeId) : Store α :=
  let s := match s.child? n slot with
    | some old => s.setParent old none
    | none => s
  (s.setChild n slot (some c)).setParent c (some n)

/-- The store with a node taken from its parent. -/
def detach (s : Store α) (n : NodeId) : Store α :=
  match s.parent? n with
  | some p => (s.setChild p (s.slotIn p n) none).setParent n none
  | none => s

/-! ## ways through the links

The number bounds the length of the way; as many steps as there are nodes are enough unless the
links go round in a circle. -/

/-- The end of the way through children on one side. -/
def outermost (s : Store α) (slot : Slot) : Nat → NodeId → NodeId
  | 0, n => n
  | steps + 1, n =>
    match s.child? n slot with
    | some c => outermost s slot steps c
    | none => n

/-- The first parent on the way up that is not reached from the given side. -/
def climb (s : Store α) (slot : Slot) : Nat → NodeId → Option NodeId
  | 0, _ => none
  | steps + 1, n =>
    match s.parent? n with
    | some p => if s.child? p slot = some n then climb s slot steps p else some p
    | none => none

/-- The leftmost node below a node. -/
def leftmost (s : Store α) (n : NodeId) : NodeId := s.outermost .left s.length n

/-- The rightmost node below a node. -/
def rightmost (s : Store α) (n : NodeId) : NodeId := s.outermost .right s.length n

/-- The node after a node in order. -/
def next? (s : Store α) (n : NodeId) : Option NodeId :=
  match s.child? n .right with
  | some c => some (s.leftmost c)
  | none => s.climb .right (s.length + 1) n

/-- The node before a node in order.  An operation on one operand comes before its operand, which is
always on the right. -/
def prev? (s : Store α) (n : NodeId) : Option NodeId :=
  match s.child? n .left with
  | some c => some (s.rightmost c)
  | none => s.climb .left (s.length + 1) n

/-- The nodes from a node on, in order. -/
def following (s : Store α) : Nat → Option NodeId → List NodeId
  | 0, _ | _, none => []
  | steps + 1, some n => n :: following s steps (s.next? n)

/-- A node and all below it: the node, what is below its right child, what is below its left. -/
def below (s : Store α) : Nat → NodeId → List NodeId
  | 0, n => [n]
  | depth + 1, n =>
    let part (slot : Slot) := ((s.child? n slot).map (below s depth)).getD []
    n :: (part .right ++ part .left)

end Store

/-! ## calls -/

namespace Storing

variable {α β : Type}

/-- Something about the store. -/
def ask (f : Store α → β) : Storing α β := do return f (← get)

/-- The cell of a node. -/
def cell (n : NodeId) : Storing α (Cell α) := do
  match (← get)[n]? with
  | some c => return c
  | none => throw .noNode

/-- A new cell without links. -/
def alloc (op : String) (value : Option (Value α)) : Storing α NodeId := do
  let s ← get
  set (s ++ [⟨op, value, none, none, none, false⟩])
  return s.length

/-- A node may become a child of another one. -/
def requireFree (parent child : NodeId) : Storing α Unit := do
  if (← cell child).parent.isSome then throw .owned
  if (← cell parent).isLeaf then throw .leaf

/-- Put a node into a place, and answer the child that was there before. -/
def setChild (n : NodeId) (slot : Slot) (c : NodeId) : Storing α (Option NodeId) := do
  requireFree n c
  let old ← ask (·.child? n slot)
  modify (·.attach n slot c)
  return old

/-- Put a node into a place that is given by its name. -/
def setChildNamed (n : NodeId) (slot : SlotName) (c : NodeId) : Storing α (Option NodeId) := do
  requireFree n c
  match Slot.ofName? slot.name with
  | some slot => setChild n slot c
  | none => throw (.noSlot slot.name)

/-- Put a node into a place if there is a node to put. -/
def setChild? (n : NodeId) (slot : Slot) (c : Option NodeId) : Storing α Unit := do
  match c with
  | some c => discard (setChild n slot c)
  | none => pure ()

/-- A new node with children.  One that cannot be given all of them stays in the store with those it
was given. -/
def node (op : String) (value : Option (Value α)) (left right : Option NodeId) :
    Storing α NodeId := do
  let n ← alloc op value
  setChild? n .left left
  setChild? n .right right
  return n

/-- A new number. -/
def number (v : α) : Storing α NodeId := node Cell.numberOp (some (.number v)) none none

/-- A new variable. -/
def name (x : String) : Storing α NodeId := node Cell.nameOp (some (.name x)) none none

/-- The names of operations on one operand. -/
def isUnary (op : String) : Bool := op == Expr.negName || (Fn.ofName? op).isSome

/-- The signs of operations on two operands. -/
def isBinary (op : String) : Bool := (BinOp.ofSymbol? op).isSome

/-- A new operation on one or two operands. -/
def operation (op : String) (a : NodeId) (b : Option NodeId) : Storing α NodeId := do
  match b with
  | none => if isUnary op then node op none none (some a) else throw (.build (.notUnary op))
  | some b => if isBinary op then node op none (some a) (some b) else throw (.build (.notBinary op))

/-- Take a node from its parent. -/
def detach (n : NodeId) : Storing α Unit := modify (·.detach n)

/-- Take the node in a place from its parent, and answer it. -/
def take (n : NodeId) (slot : Slot) : Storing α NodeId := do
  match ← ask (·.child? n slot) with
  | some c =>
    detach c
    return c
  | none => throw (.missing "detach")

/-- Put a node where another one is. -/
def replace (n m : NodeId) : Storing α Unit := do
  match ← ask (·.parent? n) with
  | some p => discard (setChild p (← ask (·.slotIn p n)) m)
  | none => pure ()

/-- Give up a node without children. -/
def free (n : NodeId) : Storing α Unit := do
  let c ← cell n
  if c.children.isEmpty then modify (·.giveUp n) else throw (.hasChildren c.op)

/-- Take a node and all below it apart, children before their parents. -/
def destroy (n : NodeId) : Storing α Unit := do
  detach n
  let nodes ← ask fun s => s.below s.length n
  nodes.reverse.forM fun m => do
    detach m
    free m

end Storing

end Fluxion

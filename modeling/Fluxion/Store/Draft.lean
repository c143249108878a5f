import Fluxion.Store.Sketch
import Fluxion.Term.Diagnostic

/-!
# Fluxion.Store.Draft

Terms that nodes are made from.

A rule of calculus puts operands into its result and does not look at them, so it also applies to
operands that have yet to be made: a call that makes a node is a term.  Wherever such a rule uses an
operand the call is made, so an operand that is used twice is made twice.

A rule of simplification looks at its operands and moves them.  For it a term is a draft: parts of
a store as they stand there, with new nodes around them.  When the draft is carried out every part
is taken from where it stood, so none can be used twice.

* `Draft.make`: a draft carried out.
-/

namespace Fluxion

variable {α : Type}

/-- Nodes to be made are terms.  There is nothing to see of them yet. -/
instance : Term α (Storing α NodeId) where
  num v := Storing.number v
  bin op a b := do
    let l ← a
    let r ← b
    Storing.operation op.symbol l (some r)
  neg a := do Storing.operation Expr.negName (← a) none
  app f a := do Storing.operation f.name (← a) none
  view _ := .other
  same _ _ := false

/-- A sketch that may lack a part is a term in the same way. -/
instance : Term α (Except NodeError (Sketch α)) where
  num v := return .number v
  bin op a b := do
    let l ← a
    let r ← b
    return .binary op l r
  neg a := do return .negation (← a)
  app f a := do return .function f (← a)
  view _ := .other
  same _ _ := false

/-- A place below a node, in a store as it is at the moment. -/
structure Site (α : Type) where
  store : Store α
  holder : NodeId
  slot : Slot

namespace Site

/-- What stands in a place. -/
def sketch (p : Site α) : Sketch α :=
  match p.store.child? p.holder p.slot with
  | some n => p.store.sketch n
  | none => .missing

end Site

/-- A term made of parts of a store. -/
inductive Draft (α : Type) where
  | part (p : Site α)
  | num (v : α)
  | bin (op : BinOp) (left right : Draft α)
  | neg (arg : Draft α)
  | app (fn : Fn) (arg : Draft α)

namespace Draft

/-- The sketch of a draft. -/
def sketch : Draft α → Sketch α
  | part p => p.sketch
  | num v => .number v
  | bin op a b => .binary op a.sketch b.sketch
  | neg a => .negation a.sketch
  | app f a => .function f a.sketch

/-- What a rule sees of a part; the operand of a negation is a part as well. -/
def viewPart (p : Site α) : View α (Draft α) :=
  match p.store.child? p.holder p.slot with
  | none => .other
  | some n =>
    match p.store[n]? with
    | none => .other
    | some c => Sketch.viewOf c.op c.value (part ⟨p.store, n, .right⟩)

/-- What a rule sees. -/
def view : Draft α → View α (Draft α)
  | part p => viewPart p
  | num v => .number v
  | neg a => .negation a
  | bin _ _ _ | app _ _ => .other

instance [BEq α] : Term α (Draft α) where
  num := num
  bin := bin
  neg := neg
  app := app
  view := view
  same a b := a.sketch.same b.sketch

/-- The nodes of a draft: its parts, taken from where they stand, and new ones around them. -/
def make : Draft α → Storing α NodeId
  | part p => Storing.take p.holder p.slot
  | num v => Term.num v
  | bin op a b => Term.bin op a.make b.make
  | neg a => Term.neg a.make
  | app f a => Term.app f a.make

end Draft

end Fluxion

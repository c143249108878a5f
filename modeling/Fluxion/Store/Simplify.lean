import Fluxion.Store.Draft
import Fluxion.Term.Rules

/-!
# Fluxion.Store.Simplify

Simplification of what stands below a node.

A pass goes from the leaves up.  It takes the children of a node from it, simplifies them and puts
the results into their places; then the first rule that applies says what becomes of the node.  The
rules are those of expressions, and what they say is carried out as a draft: operands are taken from
where they stand, new nodes are made around them, and what is left of the node is taken apart.

The rules look for the operand of a negation or a function on the right, so what stands on the left
of it goes when the node does.  An operation without a meaning has no rule, but needs an operand on
the right like the others.

* `Rewriting.pass`, `Rewriting.passes`: simplification of nodes;
* `Sketch.pass`: what becomes of a sketch.
-/

namespace Fluxion

/-- Why nodes are not simplified. -/
inductive RewriteError (α β : Type) where
  | node (e : NodeError)
  | simplify (e : SimplifyError α β)

/-- The same failure with terms in other words. -/
def RewriteError.map {α β γ : Type} (f : β → γ) : RewriteError α β → RewriteError α γ
  | node e => .node e
  | simplify e => .simplify (e.map f)

/-- What is asked of a missing operand before anything else. -/
def simplifyQuestion (op : String) : String :=
  if Storing.isBinary op then "is_num" else if op = Expr.negName then "is_neg" else "is_val"

section

variable {α β : Type} [Arith α] [Term α β]

/-- What becomes of an operation on operands that are simplified already, none if it stays.  It is a
parameter whether an operand is missing. -/
def reduce (s : Strictness) (op : String) (value : Option (Value α)) (absent : Bool) (l r : β) :
    Noted (Diagnostic α β) (RewriteError α β) (Option β) :=
  if op = Cell.numberOp then
    match value with
    | some (.number v) => return Term.reduceNum v
    | _ => return none
  else if op = Cell.nameOp then return none
  else if absent then .fail (.node (.missing (simplifyQuestion op)))
  else
    match BinOp.ofSymbol? op with
    | some o => (Term.reduceBin s o l r).mapError .simplify
    | none =>
      if op = Expr.negName then return Term.reduceNeg r
      else
        match Fn.ofName? op with
        | some f => (Term.reduceApp s f r).mapError .simplify
        | none => return none

end

/-! ## sketches -/

namespace Sketch

variable {α : Type} [Arith α]

/-- A step of the simplification of a sketch. -/
abbrev Sketching (α β : Type) := Noted (Diagnostic α (Sketch α)) (RewriteError α (Sketch α)) β

/-- An operand that an operation needs is missing. -/
def lacks (op : String) (l r : Sketch α) : Bool :=
  r.isMissing || (Storing.isBinary op && l.isMissing)

/-- One pass from the leaves up, and whether it changed anything. -/
def pass (s : Strictness) : Sketch α → Sketching α (Sketch α × Bool)
  | missing => return (missing, false)
  | node op value l r => do
    let (l, changedLeft) ← pass s l
    let (r, changedRight) ← pass s r
    match ← reduce s op value (lacks op l r) l r with
    | some e => return (e, true)
    | none => return (node op value l r, changedLeft || changedRight)

end Sketch

/-! ## nodes -/

/-- The nodes that a simplification works on, and what it has reported. -/
structure Workspace (α : Type) where
  store : Store α
  notes : List (Diagnostic α (Sketch α))

/-- A step of the simplification of nodes. -/
abbrev Rewriting (α β : Type) := ExceptT (RewriteError α (Sketch α)) (StateM (Workspace α)) β

namespace Rewriting

variable {α β : Type}

/-- A call on nodes as part of a simplification. -/
def onNodes (call : Storing α β) : Rewriting α β := do
  let w ← get
  let (r, s) := call.run.run w.store
  set { w with store := s }
  match r with
  | .ok b => return b
  | .error e => throw (.node e)

/-- A rule as part of a simplification.  What it reports is reported of sketches. -/
def applying (x : Noted (Diagnostic α (Draft α)) (RewriteError α (Draft α)) β) :
    Rewriting α β := do
  modify fun w => { w with notes := w.notes ++ x.notes.map (·.map Draft.sketch) }
  match x.result with
  | .ok b => return b
  | .error e => throw (e.map Draft.sketch)

/-- A draft made, and what is left of the node that it stands for taken apart. -/
def swap (n : NodeId) (d : Draft α) : Storing α NodeId := do
  let new ← d.make
  Storing.destroy n
  return new

/-- The child in a place of a node rewritten, and whether that changed anything. -/
def onChild (n : NodeId) (slot : Slot) (rewrite : NodeId → Rewriting α (NodeId × Bool)) :
    Rewriting α Bool := do
  match ← onNodes (Storing.ask (·.child? n slot)) with
  | some c =>
    onNodes (Storing.detach c)
    let (c, changed) ← rewrite c
    onNodes (discard (Storing.setChild n slot c))
    return changed
  | none => return false

variable [Arith α]

/-- What becomes of a node whose operands are simplified already, none if it stays. -/
def reduceAt (s : Strictness) (n : NodeId) : Rewriting α (Option (Draft α)) := do
  let c ← onNodes (Storing.cell n)
  let w ← get
  let place (slot : Slot) : Draft α := .part ⟨w.store, n, slot⟩
  let absent := c.right.isNone || (Storing.isBinary c.op && c.left.isNone)
  applying (reduce s c.op c.value absent (place .left) (place .right))

/-- One pass from the leaves up, to a depth, and whether it changed anything. -/
def pass (s : Strictness) : Nat → NodeId → Rewriting α (NodeId × Bool)
  | 0, n => return (n, false)
  | depth + 1, n => do
    let changedLeft ← onChild n .left (pass s depth)
    let changedRight ← onChild n .right (pass s depth)
    match ← reduceAt s n with
    | some d => return (← onNodes (swap n d), true)
    | none => return (n, changedLeft || changedRight)

/-- Passes until one changes nothing, but at most so many. -/
def passes (s : Strictness) : Nat → NodeId → Rewriting α NodeId
  | 0, n => return n
  | more + 1, n => do
    let (n, changed) ← pass s (← get).store.length n
    if changed then passes s more n else return n

end Rewriting

end Fluxion

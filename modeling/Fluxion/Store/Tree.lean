import Fluxion.Formula.Calculus
import Fluxion.Formula.Read
import Fluxion.Store.Derivative
import Fluxion.Store.Simplify

/-!
# Fluxion.Store.Tree

Trees of a store: a root node and the variables of its expression.

The derivative of a tree, its value for a variable and its simplified form are new trees.

* `Tree.differentiate`, `Tree.substitute`, `Tree.simplify`: new trees from the nodes of a tree.
-/

namespace Fluxion

/-- A root, if there is one, and a table of variables. -/
structure Tree where
  root : Option NodeId
  vars : Names

/-- Why a call on a tree fails. -/
inductive TreeError (α : Type) where
  | node (e : NodeError)
  | read (e : ReadError)
  | names (e : NamesFull)
  | calculus (e : CalculusError α)

/-- A call on trees, with the store that they live in. -/
abbrev Growing (α β : Type) := ExceptT (TreeError α) (StateM (Store α)) β

namespace Tree

variable {α : Type}

/-- A tree without nodes. -/
def empty : Tree := ⟨none, []⟩

/-- A call on nodes as part of a call on trees. -/
def onNodes {β : Type} (call : Storing α β) : Growing α β := ExceptT.adapt .node call

/-- A tree with a root, which cannot have a parent. -/
def setRoot (t : Tree) (n : NodeId) : Storing α Tree := do
  if (← Storing.cell n).parent.isSome then throw .ownedRoot
  return { t with root := some n }

/-- A tree with another root. -/
def withRoot (t : Tree) (n : NodeId) : Growing α Tree := onNodes (t.setRoot n)

/-- A tree with new nodes for a sketch. -/
def planted (vars : Names) (e : Sketch α) : Growing α Tree := do
  return ⟨some (← onNodes (Storing.plant e)), vars⟩

/-- The tree of the formula that a text stands for. -/
def read [Arith α] (text : String) : Growing α Tree := do
  match Formula.read (α := α) text with
  | .ok f => planted f.vars (.ofExpr f.root)
  | .error e => throw (.read e)

/-- A tree with copies of all nodes, or with another root and the same names. -/
def copy (t : Tree) (root : Option NodeId := none) : Growing α Tree := do
  match root, t.root with
  | some n, _ => t.withRoot n
  | none, some n => t.withRoot (← onNodes (Storing.copy n))
  | none, none => throw (.node (.missing "copy"))

/-- The sketch of a tree. -/
def sketch (s : Store α) (t : Tree) : Sketch α := (t.root.map s.sketch).getD .missing

/-- A name has to be in the table of a tree. -/
def requireVar (t : Tree) (x : String) : Growing α Unit := do
  if !t.vars.contains x then throw (.calculus (.unknownVariable x t.vars))

/-- The tree of the derivative. -/
def differentiate [Arith α] (t : Tree) (x : String) : Growing α Tree := do
  t.requireVar x
  let depth := (← get).length
  t.withRoot (← onNodes (Storing.derivative x depth t.root))

/-- The tree with a value put for a variable. -/
def substitute [Arith α] (t : Tree) (x : String) (v : α) : Growing α Tree := do
  t.requireVar x
  let depth := (← get).length
  let value ← onNodes (Term.literal v : Storing α NodeId)
  match t.root with
  | some n => t.withRoot (← onNodes (Storing.substitute x value depth n))
  | none => throw (.node (.missing "is_var"))

/-- The tree simplified, in so many passes at most. -/
def simplify [Arith α] (s : Strictness) (limit : Nat) (t : Tree) : Rewriting α Tree := do
  match t.root with
  | some n =>
    let n ← Rewriting.onNodes (Storing.copy n)
    let n ← Rewriting.passes s limit n
    Rewriting.onNodes (t.setRoot n)
  | none => throw (.node (.missing "copy"))

/-- A tree with a name in its table. -/
def addVar (t : Tree) (x : String) : Growing α Tree := do
  match t.vars.add x with
  | .ok vars => return { t with vars }
  | .error e => throw (.names e)

/-- A tree taken apart. -/
def destroy (t : Tree) : Growing α Tree := do
  match t.root with
  | some n => onNodes (Storing.destroy n)
  | none => pure ()
  return { t with root := none }

/-- The first node in order. -/
def first? (s : Store α) (t : Tree) : Option NodeId := t.root.map s.leftmost

/-- The last node in order. -/
def last? (s : Store α) (t : Tree) : Option NodeId := t.root.map s.rightmost

/-- All nodes in order. -/
def inOrder (s : Store α) (t : Tree) : List NodeId := s.following s.length (t.first? s)

/-- A tree as it is shown. -/
def display [Numeral α] (s : Store α) (t : Tree) : String :=
  "Tree (" ++ (t.sketch s).display ++ ", " ++ Formula.displayNames t.vars ++ ")"

end Tree

/-- A simplified copy of what stands below a node, and the diagnostics as they are reported. -/
def Storing.simplified {α : Type} [Arith α] [Numeral α] (s : Strictness) (n : NodeId) :
    ExceptT (RewriteError α (Sketch α)) (StateM (Store α))
      (NodeId × List (Diagnostic α (Sketch α))) := do
  let call : Rewriting α (Option NodeId) := do
    let t : Tree := ⟨some (← Rewriting.onNodes (Storing.copy n)), []⟩
    return (← t.simplify s maxPasses).root
  let (r, w) := call.run.run ⟨← get, []⟩
  set w.store
  match r with
  | .ok (some m) => return (m, Diagnostic.reported Sketch.display w.notes)
  | .ok none => throw (.node .noNode)
  | .error e => throw e

end Fluxion

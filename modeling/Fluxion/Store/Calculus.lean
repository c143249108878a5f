import Fluxion.Store.Tree

/-!
# Fluxion.Store.Calculus

Taylor series and tangents of trees.

The coefficients are roots of trees that are simplified on the way.  Nodes are made around them, and
the result is simplified again.  What is made and not used any more stays in the store.

* `Developing.series`, `Developing.tangent`: new trees from the nodes of a tree.
-/

namespace Fluxion

/-- Why a tree is not developed. -/
inductive DevelopError (α : Type) where
  | tree (e : TreeError α)
  | rewrite (e : RewriteError α (Sketch α))

/-- A call that develops a tree. -/
abbrev Developing (α β : Type) := ExceptT (DevelopError α) (StateM (Store α)) β

variable {α β : Type}

namespace Developing

/-- A call on trees as part of a development. -/
def onTrees (call : Growing α β) : Developing α β := ExceptT.adapt .tree call

/-- A call on nodes as part of a development. -/
def onNodes (call : Storing α β) : Developing α β := onTrees (Tree.onNodes call)

/-- The root of a tree. -/
def rootOf (t : Tree) : Developing α NodeId :=
  match t.root with
  | some n => return n
  | none => onNodes (throw (.missing "is_val"))

/-- A whole number, which has to be represented. -/
def whole [Arith α] (n : Nat) : Developing α α :=
  match Arith.ofNat n with
  | .ok v => return v
  | .error f => onTrees (throw (.calculus (.fault f)))

/-- A tree simplified.  The diagnostics are not kept. -/
def simplified [Arith α] (s : Strictness) (t : Tree) : Developing α Tree := do
  let (r, w) := (t.simplify s maxPasses).run.run ⟨← get, []⟩
  set w.store
  match r with
  | .ok t => return t
  | .error e => throw (.rewrite e)

variable [Arith α]

/-- New nodes for the distance of a variable from a point; from zero it is the variable itself. -/
def distance (x : String) (center : α) : Storing α NodeId :=
  if Arith.isZero center then Storing.name x
  else Term.bin .sub (Storing.name x) (Term.literal center)

/-- The root of a tree with a number put for a variable, simplified. -/
def atPoint (s : Strictness) (x : String) (v : α) (t : Tree) : Developing α NodeId := do
  let value ← onTrees (t.substitute x v)
  rootOf (← simplified s value)

/-- The nodes of a term of a Taylor series around those of its coefficient. -/
def seriesTerm (x : String) (center : α) (power : Nat) (coefficient : NodeId) :
    Developing α NodeId := do
  let dx ← onNodes (distance x center)
  if power = 0 then return coefficient
  else do
    let n ← whole power
    let product ← onNodes
      (Term.bin .mul (pure coefficient) (Term.bin .pow (pure dx) (Term.num n)))
    let d ← whole (factorial power)
    onNodes (Term.bin .div (pure product) (Term.num d))

/-- The nodes of a sum with one more term. -/
def addTerm (terms : Option NodeId) (term : NodeId) : Developing α NodeId :=
  match terms with
  | some sum => onNodes (Term.bin .add (pure sum) (pure term))
  | none => return term

/-- The nodes of the terms so far, and of the term of one more coefficient.  A coefficient near zero
gives no term. -/
def addCoefficient (x : String) (center : α) (power : Nat) (coefficient : NodeId)
    (terms : Option NodeId) : Developing α (Option NodeId) := do
  let c ← onNodes (Storing.cell coefficient)
  if c.isNumberNear Arith.zero Arith.tolerance then return terms
  else do
    let term ← seriesTerm x center power coefficient
    return some (← addTerm terms term)

/-- The nodes of the terms so far, and of the term that a derivative gives. -/
def addDerivative (s : Strictness) (x : String) (center : α) (power : Nat) (derivative : Tree)
    (terms : Option NodeId) : Developing α (Option NodeId) := do
  let coefficient ← atPoint s x center derivative
  addCoefficient x center power coefficient terms

/-- The nodes for the terms of a series from a power on, `more` after it, added to those before. -/
def seriesFrom (s : Strictness) (x : String) (center : α) (power more : Nat) (derivative : Tree)
    (terms : Option NodeId) : Developing α (Option NodeId) := do
  let terms ← addDerivative s x center power derivative terms
  match more with
  | 0 => return terms
  | more + 1 => do
    let next ← simplified s (← onTrees (derivative.differentiate x))
    seriesFrom s x center (power + 1) more next terms

/-- The root of the terms, or a new zero if there are none. -/
def sumOf (terms : Option NodeId) : Developing α NodeId :=
  match terms with
  | some n => return n
  | none => onNodes (Storing.number Arith.zero)

/-- The tree of the Taylor polynomial of an order. -/
def series (s : Strictness) (t : Tree) (x : String) (center : α) (order : Int) :
    Developing α Tree := do
  onTrees (t.requireVar x)
  match order with
  | .negSucc n => onTrees (throw (.calculus (.negativeOrder (.negSucc n))))
  | .ofNat n => do
    let terms ← seriesFrom s x center 0 n t none
    let root ← sumOf terms
    simplified s (← onTrees (t.withRoot root))

/-- The tree of the tangent line at a point. -/
def tangent (s : Strictness) (t : Tree) (x : String) (point : α) : Developing α Tree := do
  onTrees (t.requireVar x)
  let value ← atPoint s x point t
  let derivative ← onTrees (t.differentiate x)
  let slope ← atPoint s x point derivative
  let dx ← onNodes (distance x point)
  let line ← onNodes (Term.bin .add (pure value) (Term.bin .mul (pure slope) (pure dx)))
  simplified s (← onTrees (t.withRoot line))

end Developing

end Fluxion

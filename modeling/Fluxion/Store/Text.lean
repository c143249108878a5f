import Fluxion.Expr.Infix
import Fluxion.Expr.Outline
import Fluxion.Store.Sketch

/-!
# Fluxion.Store.Text

The LaTeX text and the infix text of what stands below a node.

A node is written as the expression that it stands for (`Sketch.written`), which fails at the first
part without a meaning, from left to right; an operand too many is looked past.

Large parts of a LaTeX text go by labels.  Labels belong to nodes: an operand too many is given one
if it is large, and a node with several parents is listed once for each, always under the last of
its labels.  All labels are given before anything is written.

* `Sketch.infixText`: the infix text;
* `Store.parts`: the nodes that are given labels, in the order of the labels;
* `Store.outline`, `Store.tex`: the LaTeX text.
-/

namespace Fluxion

namespace Sketch

variable {α : Type}

/-- The expression that is written for a sketch.  It is a parameter what a power is asked about its
base, should that be missing, and what stands for a variable that has no name. -/
def written (baseQuestion : String) (nameless : Except NodeError String) :
    Sketch α → Except NodeError (Expr α)
  | missing => .error (.missing "op")
  | node op value l r =>
    match value with
    | some (.number v) => .ok (.num v)
    | some (.name x) => .ok (.var x)
    | none =>
      if op = Cell.nameOp then nameless.map .var
      else
        match BinOp.ofSymbol? op with
        | some o => do
          if o = .pow && l.isMissing then throw (.missing baseQuestion)
          return .bin o (← l.written baseQuestion nameless) (← r.written baseQuestion nameless)
        | none =>
          if op = Expr.negName then return .neg (← r.written baseQuestion nameless)
          else
            match Fn.ofName? op with
            | some f => return .app f (← r.written baseQuestion nameless)
            | none => .error (.unknownOp op)

/-- The infix text of a sketch, in which every variable needs its name. -/
def infixText [Arith α] [Numeral α] (e : Sketch α) : Except NodeError String := do
  return (← e.written "op" (.error (.missing "lstrip"))).infixText

end Sketch

/-- Why what stands below a node has no LaTeX text. -/
inductive TexError where
  | node (e : NodeError)
  | labels (e : LabelsExhausted)

namespace Store

variable {α : Type}

/-- The size of what stands below a node, with large parts counted as one, and the nodes of these
parts.  A part comes after those below it. -/
def partsTo (s : Store α) : Nat → NodeId → Nat × List NodeId
  | 0, _ => (1, [])
  | depth + 1, n =>
    let sized := (((s[n]?).map Cell.children).getD []).map fun c =>
      match partsTo s depth c with
      | (size, parts) => if maxPart < size then (1, parts ++ [c]) else (size, parts)
    (1 + (sized.map (·.1)).sum, sized.flatMap (·.2))

/-- The nodes of the large parts below a node, in the order of their labels. -/
def parts (s : Store α) (n : NodeId) : List NodeId := (s.partsTo (s.length + 1) n).2

/-- The last of the labels that a node was given. -/
def label? (parts : List NodeId) (n : NodeId) : Option String := (parts.zip labels).reverse.lookup n

/-- What stands below a node, in parts. -/
def outline (s : Store α) (n : NodeId) : Except TexError (Outline α) := do
  let parts := s.parts n
  if labels.length < parts.length then throw (.labels ⟨⟩)
  let text (m : NodeId) : Except TexError (Expr α) :=
    ((s.outlined (label? parts) m).written "is_var" (.ok Sketch.nothing)).mapError .node
  let root ← text n
  let legend ← parts.mapM fun m => do return ((label? parts m).getD "", ← text m)
  return ⟨root, legend⟩

/-- A variable that has no name. -/
def isNameless (s : Store α) (n : NodeId) : Bool :=
  match s[n]? with
  | some c => c.op == Cell.nameOp && c.value.isNone
  | none => false

/-- The LaTeX text of what stands below a node.  A variable without a name that stands alone has
none, below others it goes by the word for what is missing. -/
def tex [Arith α] [Numeral α] (s : Store α) (n : NodeId) : Except TexError (Option String) :=
  if s.isNameless n then .ok none else (s.outline n).map (some ·.tex)

end Store

end Fluxion

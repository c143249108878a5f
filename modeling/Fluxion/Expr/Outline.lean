import Fluxion.Expr.Tex

/-!
# Fluxion.Expr.Outline

Large expressions in parts.

An operand with more than `maxPart` nodes is taken out, given the next label, and stands in its
place as a name; counting goes from the leaves up, so a part that has been taken out counts as one
node from then on.  The outline of an expression is what is left of it, and the legend lists what
was taken out, in the order of the labels.  A definition may use labels that come before its own.

* `Expr.outline`: the outline and the legend;
* `Outline.tex`: both as one LaTeX text.
-/

namespace Fluxion

/-- An expression needs more labels than there are. -/
structure LabelsExhausted where
  deriving DecidableEq

/-- Operands with more nodes than this are taken out. -/
def maxPart : Nat := 24

/-- The labels, in the order in which they are given. -/
def labels : List String :=
  ["A", "B", "C", "D", "E", "F", "G", "H", "I", "J", "K", "L", "M",
    "N", "O", "P", "Q", "R", "S", "T", "U", "V", "W", "X", "Y", "Z"]

/-- The text by which an expression with too many parts is reported. -/
def LabelsExhausted.message (_ : LabelsExhausted) : String :=
  "expression too big, needs more than " ++ toString labels.length ++ " labels"

/-- Labels with the parts that they stand for. -/
abbrev Legend (α : Type) := List (String × Expr α)

/-- Take a part out if it is too large. -/
def Legend.take {α : Type} (legend : Legend α) (part : Expr α) :
    Except LabelsExhausted (Expr α × Legend α) :=
  if maxPart < part.size then
    match labels[legend.length]? with
    | some label => .ok (.var label, legend ++ [(label, part)])
    | none => .error ⟨⟩
  else .ok (part, legend)

/-- An expression in parts. -/
structure Outline (α : Type) where
  root : Expr α
  legend : Legend α

namespace Expr

variable {α : Type}

/-- An expression with its large operands taken out, and the legend that they continue. -/
def outlineFrom (legend : Legend α) : Expr α → Except LabelsExhausted (Expr α × Legend α)
  | num v => .ok (num v, legend)
  | var x => .ok (var x, legend)
  | bin op a b => do
    let (a, legend) ← outlineFrom legend a
    let (a, legend) ← legend.take a
    let (b, legend) ← outlineFrom legend b
    let (b, legend) ← legend.take b
    return (bin op a b, legend)
  | neg a => do
    let (a, legend) ← outlineFrom legend a
    let (a, legend) ← legend.take a
    return (neg a, legend)
  | app f a => do
    let (a, legend) ← outlineFrom legend a
    let (a, legend) ← legend.take a
    return (app f a, legend)

/-- An expression in parts. -/
def outline (e : Expr α) : Except LabelsExhausted (Outline α) := do
  let (root, legend) ← outlineFrom [] e
  return ⟨root, legend⟩

end Expr

namespace Outline

variable {α : Type} [Arith α] [Numeral α]

/-- The definitions of the labels as LaTeX text. -/
def definitions (o : Outline α) : List (String × String) :=
  o.legend.map fun (label, part) => (label, part.tex)

/-- The text of the outline, followed by the definitions of the labels if there are any. -/
def tex (o : Outline α) : String :=
  if o.legend.isEmpty then o.root.tex
  else
    o.root.tex ++ " \\quad\\text\x7bwhere: \x7d"
      ++ ", ".intercalate (o.definitions.map fun (label, text) => label ++ " = " ++ text)

end Outline

/-- The LaTeX text of an expression, in parts if it is large. -/
def Expr.texInParts {α : Type} [Arith α] [Numeral α] (e : Expr α) :
    Except LabelsExhausted String := do
  return (← e.outline).tex

end Fluxion

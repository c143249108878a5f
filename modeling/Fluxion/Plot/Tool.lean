import Fluxion.Expr.Evaluate
import Fluxion.Infix.Read

/-!
# Fluxion.Plot.Tool

Plotting tools.

A plotting tool reads a text as a curve over one of its names.  How it does so is its own affair:
here it is any function that may refuse the text, and whose curves may have an error at a point.
An error of arithmetic only means that there is no value; any other error is passed on.

* `Expr.evaluateOpen`: the value of an expression in which names are left;
* `PlottingTool.literal`: the tool that takes each text as it stands.
-/

namespace Fluxion

/-- An error of a plotting tool that is none of arithmetic, by its kind and its text. -/
structure ToolError where
  kind : String
  message : String
  deriving DecidableEq

namespace ToolError

/-- A function was to be computed of something that is not a number. -/
def notANumber : ToolError := ⟨"TypeError", "Cannot convert expression to float"⟩

/-- A text that stands for nothing. -/
def unreadable (text : String) : ToolError :=
  ⟨"SympifyError", "could not parse " ++ Text.quoted text⟩

end ToolError

/-- Why a curve has no value at a point. -/
inductive CurveError where
  /-- an error of arithmetic -/
  | fault (f : MathFault)
  /-- any other error -/
  | other (e : ToolError)
  deriving DecidableEq

/-- A curve: its value at a point, if that is a number and not an expression in which names are
left. -/
abbrev PlottedCurve (α : Type) := α → Except CurveError (Option α)

/-- A plotting tool. -/
structure PlottingTool (α : Type) where
  /-- words that are never names -/
  keywords : List String
  /-- the curve that a text in some names stands for, over one of the names -/
  curve (names : List String) (text x : String) : Except ToolError (PlottedCurve α)

section

variable {α : Type} [Arith α]

/-- An operation on values of which some may be expressions with names; then so is its value. -/
def BinOp.computeOpen (op : BinOp) : Option α → Option α → Except CurveError (Option α)
  | some v, some w => ((op.compute v w).map some).mapError .fault
  | _, _ => .ok none

/-- A function of a value.  It is not computed of an expression with names. -/
def Fn.computeOpen (f : Fn) : Option α → Except CurveError (Option α)
  | some v => ((Arith.apply f v).map some).mapError .fault
  | none => .error (.other .notANumber)

/-- The value of an expression in which names may be left that have none. -/
def Expr.evaluateOpen (env : Assignment α) : Expr α → Except CurveError (Option α)
  | num v => .ok (some v)
  | var x => .ok (env x)
  | bin op a b => do
    let v ← a.evaluateOpen env
    let w ← b.evaluateOpen env
    op.computeOpen v w
  | neg a => do
    let v ← a.evaluateOpen env
    return v.map Arith.neg
  | app f a => do
    let v ← a.evaluateOpen env
    f.computeOpen v

end

namespace PlottingTool

variable {α : Type} [Arith α]

/-- Words that programming languages keep for themselves. -/
def reservedWords : List String :=
  ["False", "None", "True", "and", "as", "assert", "async", "await", "break", "class", "continue",
    "def", "del", "elif", "else", "except", "finally", "for", "from", "global", "if", "import",
    "in", "is", "lambda", "nonlocal", "not", "or", "pass", "raise", "return", "try", "while",
    "with", "yield"]

/-- The plotting tool that evaluates what it reads as it stands, from left to right. -/
def literal : PlottingTool α where
  keywords := reservedWords
  curve _ text x :=
    match Infix.read text with
    | some e =>
      if e.names.any reservedWords.contains then .error (.unreadable text)
      else .ok fun v => e.toExpr.evaluateOpen (.single x v)
    | none => .error (.unreadable text)

end PlottingTool

end Fluxion

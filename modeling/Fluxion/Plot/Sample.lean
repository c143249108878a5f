import Fluxion.Expr.Infix
import Fluxion.Formula.Basic
import Fluxion.Plot.Tool

/-!
# Fluxion.Plot.Sample

A formula tabulated over a range.

The formula is handed over to a plotting tool as infix text under plain names.  Where its curve has
an error of arithmetic, or names are left that have no value, the table has no value; but a text
that the tool refuses, and any other error of the curve at a point, end the tabulation.
-/

namespace Fluxion

/-- Points of a curve. -/
structure Samples (α : Type) where
  xs : List α
  /-- the value at each point, if there is one -/
  ys : List (Option α)

/-- Why a formula is not tabulated. -/
inductive SampleError where
  /-- the range cannot be divided -/
  | fault (f : MathFault)
  | tool (e : ToolError)

namespace Samples

variable {α : Type} [Arith α]

/-- The point after `i` of so many steps through a range.  Whole numbers up to one that is
represented are represented too. -/
def gridPoint (start stop steps : α) (i : Nat) : Except MathFault α := do
  let way := Arith.mul (Arith.sub stop start) (Arith.ofDecimal i 0)
  return Arith.add start (← Arith.div way steps)

/-- All points from one end of the range to the other.  A negative resolution has none. -/
def grid (start stop : α) : Int → Except MathFault (List α)
  | .ofNat resolution => do
    let steps ← Arith.ofNat resolution
    (List.range (resolution + 1)).mapM (gridPoint start stop steps)
  | .negSucc _ => .ok []

omit [Arith α] in
/-- What a table has of the value of a curve. -/
def entry : Except CurveError (Option α) → Except ToolError (Option α)
  | .ok y => .ok y
  | .error (.fault _) => .ok none
  | .error (.other e) => .error e

/-- The curve that a plotting tool makes of a formula. -/
def curveOf [Numeral α] (tool : PlottingTool α) (f : Formula α) (x : String) :
    Except ToolError (PlottedCurve α) :=
  tool.curve (f.vars.map plainName) f.root.infixText (plainName x)

/-- The values of a formula over a range. -/
def of [Numeral α] (tool : PlottingTool α) (f : Formula α) (x : String) (start stop : α)
    (resolution : Int) : Except SampleError (Samples α) := do
  let curve ← (curveOf tool f x).mapError .tool
  let xs ← (grid start stop resolution).mapError .fault
  let ys ← (xs.mapM fun v => entry (curve v)).mapError .tool
  return ⟨xs, ys⟩

end Samples

end Fluxion

import Fluxion.Number.Numeral
import Fluxion.Path
import Fluxion.Plot.Limits
import Fluxion.Plot.Sample
import Fluxion.Solution

/-!
# Fluxion.Plot.Chart

The charts of a solution, as calls to a plotting library.

Every call may fail, and so may the tabulation of a curve.  A chart in which something fails is
given up, but its figure is closed all the same, and the other charts are drawn; the gallery lists
the charts that were completed.

* `Canvas.call`: one call, which fails if it is the chosen one;
* `Canvas.chart`: the calls of one chart;
* `Solution.draw`: all charts.
-/

namespace Fluxion

/-- A call to the plotting library. -/
inductive PlotCall (α : Type) where
  /-- open a figure -/
  | figure
  | line (xs : List α) (ys : List (Option α)) (style label : String)
  | xlim (lo hi : α)
  | ylim (lo hi : α)
  | xlabel (text : String)
  | legend
  | save (path : String)
  /-- close the figure -/
  | close

/-- A plotting library that records its calls. -/
structure Canvas (α : Type) where
  /-- the number of the call that fails, counted from one -/
  failing : Option Nat
  /-- the calls so far, the last one first -/
  recorded : List (PlotCall α)

/-- The calls in order. -/
def Canvas.calls {α : Type} (c : Canvas α) : List (PlotCall α) := c.recorded.reverse

/-- A failure while a chart is drawn. -/
inductive ChartError where
  /-- the plotting library refused a call -/
  | refused
  /-- a curve could not be tabulated -/
  | sampling (e : SampleError)

/-- Work on a canvas. -/
abbrev Drawing (α β : Type) := ExceptT ChartError (StateM (Canvas α)) β

/-- A formula as a curve. -/
structure Curve (α : Type) where
  formula : Formula α
  style : String
  label : String

/-- A single marked point. -/
structure Mark (α : Type) where
  x : α
  y : α
  label : String

/-- A chart: curves over a range of a variable, marks, and the file that it goes to. -/
structure Chart (α : Type) where
  curves : List (Curve α)
  marks : List (Mark α)
  var : String
  start : α
  stop : α
  path : String

/-- The number of steps in which a range is tabulated. -/
def resolution : Nat := 400

namespace Canvas

variable {α : Type}

/-- Make a call. -/
def call (c : PlotCall α) : Drawing α Unit := do
  let canvas ← get
  let recorded := c :: canvas.recorded
  set { canvas with recorded }
  if canvas.failing = some recorded.length then throw .refused

variable [Arith α] [Numeral α]

/-- Draw curves.  The first of them that has a vertical range decides on it. -/
def curves (tool : PlottingTool α) (chart : Chart α) :
    Option (α × α) → List (Curve α) → Drawing α (Option (α × α))
  | range, [] => return range
  | range, c :: cs => do
    match Samples.of tool c.formula chart.var chart.start chart.stop resolution with
    | .error e => throw (.sampling e)
    | .ok s =>
      let range := range <|> limits (s.ys.filterMap id) Limits.usualMargin
      call (.line s.xs s.ys c.style c.label)
      curves tool chart range cs

/-- The calls between opening and closing a figure. -/
def body (tool : PlottingTool α) (chart : Chart α) : Drawing α Unit := do
  let range ← curves tool chart none chart.curves
  chart.marks.forM fun m => call (.line [m.x] [some m.y] "o" m.label)
  call (.xlim chart.start chart.stop)
  match range with
  | some (lo, hi) => call (.ylim lo hi)
  | none => pure ()
  call (.xlabel (plainName chart.var))
  call .legend
  call (.save chart.path)

/-- Draw a chart.  Once its figure is open it is closed, whatever happens in between. -/
def chart (tool : PlottingTool α) (c : Chart α) : Drawing α Unit := do
  call .figure
  let outcome ← ExceptT.lift (body tool c).run
  call .close
  MonadExcept.ofExcept outcome

/-- Draw a chart if possible, and say whether it was. -/
def attempt (tool : PlottingTool α) (c : Chart α) : StateM (Canvas α) Bool := do
  match ← (chart tool c).run with
  | .ok () => return true
  | .error _ => return false

end Canvas

namespace Solution

variable {α : Type} [Arith α] [Numeral α]

/-- The curve of the function itself. -/
def curve (s : Solution α) : Curve α := ⟨s.formula, "-", "f"⟩

/-- The name of a chart and of its file. -/
def chartFile (name : String) : String := name ++ ".png"

/-- The point where the tangent touches, if the function has a finite value there. -/
def tangentMarks (s : Solution α) : List (Mark α) :=
  match s.value with
  | some y => if Arith.finite y then [⟨s.problem.tangentAt, y, "tangent point"⟩] else []
  | none => []

/-- The curve of the Taylor series. -/
def seriesCurve (s : Solution α) : Curve α :=
  ⟨s.series, "--", "Taylor series at " ++ Numeral.brief s.problem.seriesAt ++ ", order "
    ++ toString s.problem.seriesOrder⟩

/-- A chart of the solution in a directory. -/
def chartOf (s : Solution α) (dir name : String) (curves : List (Curve α)) (marks : List (Mark α)) :
    String × Chart α :=
  (name, ⟨curves, marks, s.problem.var, s.problem.rangeStart, s.problem.rangeEnd,
    Path.join dir (chartFile name)⟩)

/-- The charts of a solution, with their names. -/
def charts (s : Solution α) (dir : String) : List (String × Chart α) :=
  [chartOf s dir "function" [s.curve] [],
    chartOf s dir "tangent" [s.curve, ⟨s.tangent, "--", "tangent"⟩] s.tangentMarks,
    chartOf s dir "series" [s.curve, s.seriesCurve] []]

/-- Draw all charts that can be drawn, and list them with their files. -/
def draw (tool : PlottingTool α) (s : Solution α) (dir : String) :
    StateM (Canvas α) (List (String × String)) := do
  let done ← (s.charts dir).filterMapM fun (name, chart) => do
    return if ← Canvas.attempt tool chart then some (name, chartFile name) else none
  return done

end Solution

end Fluxion

import Fluxion.Number.Arith

/-!
# Fluxion.Plot.Limits

The vertical range of a plot.

A pole would flatten everything else if the range held all values, so a twentieth of the values is
cut off at either end.  A range without height is widened, and a margin is left above and below.
-/

namespace Fluxion

variable {α : Type} [Arith α]

namespace Limits

/-- The finite values in ascending order. -/
def ascending (ys : List α) : List α := (ys.filter Arith.finite).mergeSort Arith.le

/-- The number of values to leave out at either end. -/
def cut (n : Nat) : Nat := n / 20

/-- The lowest and highest of the values that are not cut off. -/
def bulk? (sorted : List α) : Option (α × α) := do
  let n := sorted.length
  let lo ← sorted[cut n]?
  let hi ← sorted[n - 1 - cut n]?
  return (lo, hi)

/-- A range of less height than this is widened. -/
def leastHeight : α := Arith.ofDecimal 1 (-9)

/-- A range, widened by one on both sides if it has no height. -/
def widened (range : α × α) : α × α :=
  if Arith.lt (Arith.sub range.2 range.1) leastHeight then
    (Arith.sub range.1 Arith.one, Arith.add range.2 Arith.one)
  else range

/-- A range with a margin, given as a share of its height. -/
def withMargin (margin : α) (range : α × α) : α × α :=
  let d := Arith.mul (Arith.sub range.2 range.1) margin
  (Arith.sub range.1 d, Arith.add range.2 d)

/-- The usual margin. -/
def usualMargin : α := Arith.ofDecimal 1 (-1)

end Limits

open Limits in
/-- The vertical range for some values, if any of them is finite. -/
def limits (ys : List α) (margin : α) : Option (α × α) :=
  (bulk? (ascending ys)).map fun range => withMargin margin (widened range)

end Fluxion

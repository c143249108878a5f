import Fluxion.Note

/-!
# Fluxion.Formula.Simplify

Simplified formulas.  Within one simplification every diagnostic is noted once, however often
passes come across it.
-/

namespace Fluxion

/-- Work that takes notes and may end in an error of kind `ε`. -/
abbrev Working (α ε β : Type) := Noted (Note α) ε β

namespace Formula

variable {α : Type} [Arith α] [Numeral α]

/-- The notes of a simplification: each diagnostic once. -/
def diagnosticNotes (ds : List (Diagnostic α (Expr α))) : List (Note α) :=
  (Diagnostic.reported Expr.display ds).map .diagnostic

/-- The simplified formula. -/
def simplify (s : Strictness) (f : Formula α) :
    Working α (SimplifyError α (Expr α)) (Formula α) := do
  let (root, settled) ← (Expr.passes s maxPasses f.root).mapNotes diagnosticNotes
  if !settled then .note .unsettled
  return f.withRoot root

end Formula

end Fluxion

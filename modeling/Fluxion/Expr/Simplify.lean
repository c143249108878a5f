import Fluxion.Expr.Basic
import Fluxion.Term.Rules

/-!
# Fluxion.Expr.Simplify

Simplification by local rules.

A pass goes from the leaves up and applies at most one rule at each node.  Passes are repeated until
one changes nothing, at most `maxPasses` times.

* `Expr.pass`: one pass, with the information whether it changed anything;
* `Expr.passes`: passes until nothing changes.
-/

namespace Fluxion.Expr

variable {α : Type} [Arith α]

/-- A node after a rule was tried on it, and whether the rule or something below changed it. -/
def settled (below : Bool) (e : Expr α) : Option (Expr α) → Expr α × Bool
  | some e' => (e', true)
  | none => (e, below)

/-- One pass from the leaves up, and whether it changed anything. -/
def pass (s : Strictness) : Expr α → Simplifying α (Expr α) (Expr α × Bool)
  | num v => return settled false (num v) (Term.reduceNum v)
  | var x => return (var x, false)
  | bin op a b => do
    let (a, changedLeft) ← pass s a
    let (b, changedRight) ← pass s b
    let r ← Term.reduceBin s op a b
    return settled (changedLeft || changedRight) (bin op a b) r
  | neg a => do
    let (a, changed) ← pass s a
    return settled changed (neg a) (Term.reduceNeg a)
  | app f a => do
    let (a, changed) ← pass s a
    let r ← Term.reduceApp s f a
    return settled changed (app f a) r

/-- Passes until one changes nothing, and whether that happened. -/
def passes (s : Strictness) (n : Nat) (e : Expr α) : Simplifying α (Expr α) (Expr α × Bool) :=
  untilSettled (pass s) n e

end Fluxion.Expr

import Fluxion.Formula.Calculus
import Fluxion.Formula.Read
import Fluxion.Problem.Load

/-!
# Fluxion.Solution

The answers to a problem: the function, its derivative, its Taylor series and its tangent.
-/

namespace Fluxion

/-- Everything that an article about a problem needs. -/
structure Solution (α : Type) where
  problem : Problem α
  formula : Formula α
  /-- the derivative as the rules give it -/
  derivative : Formula α
  simplified : Formula α
  series : Formula α
  tangent : Formula α
  /-- the value of the function where its tangent is asked for, if there is one -/
  value : Option α

/-- Why a problem has no solution. -/
inductive SolveError (α : Type) where
  | read (e : ReadError)
  /-- the expression has variables, but not the one of the function -/
  | foreignVariable (x : String) (vars : Names)
  | names (e : NamesFull)
  | calculus (e : CalculusError α)

/-- The text by which an error is reported. -/
def SolveError.message {α : Type} [Numeral α] : SolveError α → String
  | read e => e.message
  | foreignVariable x vars =>
    "function variable " ++ Text.quoted x ++ " does not appear in expression, it has "
      ++ Text.quotedList vars
  | names e => e.message
  | calculus e => e.message

namespace Problem

variable {α : Type} [Arith α]

/-- The function of a problem as a formula.  A constant function is one in the problem's variable
all the same. -/
def formula (p : Problem α) : Working α (SolveError α) (Formula α) := do
  let tokens ← .lift ((tokenize p.function.toList).mapError (.read ∘ .lexical))
  .note (.tokens tokens.kinds)
  let f ← .lift ((Formula.ofTokens tokens).mapError .read)
  if !f.vars.isEmpty && !f.vars.contains p.var then .fail (.foreignVariable p.var f.vars)
  .lift ((f.addVar p.var).mapError .names)

/-- The solution of a problem. -/
def solve [Numeral α] (s : Strictness) (p : Problem α) :
    Working α (SolveError α) (Solution α) := do
  let f ← p.formula
  .note (.parsed f)
  let derivative ← .lift ((f.differentiate p.var).mapError .calculus)
  let simplified ← (derivative.simplified s).mapError .calculus
  let series ← (f.series s p.var p.seriesAt p.seriesOrder).mapError .calculus
  let tangent ← (f.tangent s p.var p.tangentAt).mapError .calculus
  return {
    problem := p
    formula := f
    derivative
    simplified
    series
    tangent
    value := (f.evaluate (.single p.var p.tangentAt)).toOption }

end Problem

end Fluxion

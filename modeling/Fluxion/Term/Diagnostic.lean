import Fluxion.Noted
import Fluxion.Number.Numeral
import Fluxion.BinOp

/-!
# Fluxion.Term.Diagnostic

Terms that cannot have a value, as simplification comes across them.

A node such as a division by zero is left as it is and reported by a `Diagnostic`.  Under
`Strictness.strict` the first diagnostic ends the simplification instead.
-/

namespace Fluxion

/-- A node that has no value. -/
inductive Diagnostic (α β : Type) where
  /-- zero to the power of a negative number -/
  | zeroPower (node : β)
  /-- a division of two numbers, the second of which is zero -/
  | zeroQuotient (a b : α)
  /-- an operation on two numbers that fails otherwise -/
  | noValue (op : BinOp) (a b : α) (fault : MathFault)
  /-- an operation on two numbers with an infinite or undefined result -/
  | notFinite (op : BinOp) (a b : α)
  /-- a division by a number within the tolerance of zero -/
  | zeroDivisor (node : β)
  /-- the logarithm of a number within the tolerance of zero -/
  | zeroLogarithm
  /-- the cotangent of a number within the tolerance of zero -/
  | zeroCotangent

/-- The text by which a diagnostic is reported, with nodes as they are shown. -/
def Diagnostic.message {α β : Type} [Numeral α] (display : β → String) :
    Diagnostic α β → String
  | zeroPower node => "zero raised to negative power in " ++ display node
  | zeroQuotient a b => "division by zero in " ++ Numeral.brief a ++ " / " ++ Numeral.brief b
  | noValue op a b f =>
    "can not evaluate " ++ Numeral.brief a ++ " " ++ op.symbol ++ " " ++ Numeral.brief b ++ ": "
      ++ f.message
  | notFinite op a b =>
    Numeral.brief a ++ " " ++ op.symbol ++ " " ++ Numeral.brief b ++ " is not finite"
  | zeroDivisor node => "division by zero in " ++ display node
  | zeroLogarithm => "logarithm of zero"
  | zeroCotangent => "cotangent of zero"

/-- The same diagnostic with nodes in other words. -/
def Diagnostic.map {α β γ : Type} (f : β → γ) : Diagnostic α β → Diagnostic α γ
  | zeroPower node => .zeroPower (f node)
  | zeroQuotient a b => .zeroQuotient a b
  | noValue op a b fault => .noValue op a b fault
  | notFinite op a b => .notFinite op a b
  | zeroDivisor node => .zeroDivisor (f node)
  | zeroLogarithm => .zeroLogarithm
  | zeroCotangent => .zeroCotangent

/-- The list without the elements whose key came before. -/
def distinctBy {β κ : Type} [BEq κ] (key : β → κ) (seen : List κ) : List β → List β
  | [] => []
  | b :: bs =>
    if seen.contains (key b) then distinctBy key seen bs
    else b :: distinctBy key (key b :: seen) bs

/-- The diagnostics of one simplification as they are reported: each text once. -/
def Diagnostic.reported {α β : Type} [Numeral α] (display : β → String)
    (ds : List (Diagnostic α β)) : List (Diagnostic α β) :=
  distinctBy (Diagnostic.message display) [] ds

/-- What becomes of a diagnostic. -/
inductive Strictness where
  /-- it is noted, and the node stays as it is -/
  | lenient
  /-- it ends the simplification -/
  | strict
  deriving DecidableEq

/-- Why there is no simplified term. -/
inductive SimplifyError (α β : Type) where
  | degenerate (d : Diagnostic α β)
  /-- the parity of an exponent that is not finite was asked for -/
  | fault (f : MathFault)

/-- The same failure with nodes in other words. -/
def SimplifyError.map {α β γ : Type} (f : β → γ) : SimplifyError α β → SimplifyError α γ
  | degenerate d => .degenerate (d.map f)
  | fault e => .fault e

/-- The text by which an error is reported. -/
def SimplifyError.message {α β : Type} [Numeral α] (display : β → String) :
    SimplifyError α β → String
  | degenerate d => d.message display
  | fault f => f.message

/-- A step in the simplification of terms `β`, which notes diagnostics. -/
abbrev Simplifying (α β γ : Type) := Noted (Diagnostic α β) (SimplifyError α β) γ

/-- Report a diagnostic as the strictness demands. -/
def Strictness.report {α β : Type} (s : Strictness) (d : Diagnostic α β) :
    Simplifying α β Unit :=
  match s with
  | .lenient => .note d
  | .strict => .fail (.degenerate d)

end Fluxion

import Fluxion.Expr.Simplify
import Fluxion.Formula.Basic

/-!
# Fluxion.Note

What the library notes while it works, and how the notes read in a log.

A log line names the part of the program that it comes from, its level and its text.  Lines below
the level of a warning are for tracing a run.
-/

namespace Fluxion

/-- How much a note matters. -/
inductive Level where
  | debug | info | warning | error
  deriving DecidableEq

namespace Level

/-- The name of a level in a log line. -/
def name : Level → String
  | debug => "DEBUG" | info => "INFO" | warning => "WARNING" | error => "ERROR"

/-- Levels that show without tracing. -/
def isUrgent : Level → Bool
  | warning | error => true
  | debug | info => false

end Level

/-- What can be noted. -/
inductive Note (α : Type) where
  /-- the kinds of the tokens of a formula -/
  | tokens (kinds : List String)
  /-- the formula that was read -/
  | parsed (f : Formula α)
  | diagnostic (d : Diagnostic α (Expr α))
  /-- simplification ended with a pass that changed something -/
  | unsettled
  /-- the coefficient of a power in a Taylor series, before it is divided by the factorial -/
  | coefficient (power : Nat) (value : Expr α)
  /-- plots cannot be drawn -/
  | noPlots
  /-- a plot was given up -/
  | plotFailed (name : String)
  /-- an article was written to a file -/
  | wrote (path : String)
  /-- the typesetting program cannot be run -/
  | noTypesetter (command : String)

namespace Note

variable {α : Type}

/-- The level of a note. -/
def level : Note α → Level
  | tokens _ | parsed _ | unsettled | coefficient _ _ => .debug
  | wrote _ => .info
  | diagnostic _ | noPlots => .warning
  | plotFailed _ | noTypesetter _ => .error

/-- The part of the program that a note comes from. -/
def origin : Note α → String
  | tokens _ => "difftex.parser"
  | parsed _ | noPlots | plotFailed _ => "difftex"
  | diagnostic _ | unsettled => "difftex.simplify"
  | coefficient _ _ => "difftex.math"
  | wrote _ | noTypesetter _ => "difftex.article"

/-- The text of a note. -/
def text [Numeral α] : Note α → String
  | tokens kinds => "tokens: " ++ " ".intercalate kinds
  | parsed f => "parsed: " ++ f.display
  | diagnostic d => d.message Expr.display
  | unsettled => "simplification did not settle after " ++ toString maxPasses ++ " passes"
  | coefficient n e => "series term " ++ toString n ++ " coefficient " ++ e.display
  | noPlots => "matplotlib not installed, skipping plots"
  | plotFailed name => "plotting " ++ name ++ " failed"
  | wrote path => "wrote " ++ path
  | noTypesetter command =>
    "could not run " ++ command ++ ": [Errno 2] No such file or directory: " ++ Text.quoted command

/-- The log line of a note. -/
def line [Numeral α] (n : Note α) : String :=
  n.origin ++ ": " ++ n.level.name ++ ": " ++ n.text

/-- The text of a diagnostic. -/
def diagnosticText? [Numeral α] : Note α → Option String
  | diagnostic d => some (d.message Expr.display)
  | _ => none

end Note

end Fluxion

import Fluxion.Number.Numeral
import Fluxion.Number.Arith
import Fluxion.Problem.Line
import Fluxion.Text.Integer

/-!
# Fluxion.Problem.Load

Problem files: a function of one variable and what is asked about it.

```
$f(x) = x^2 + \sin x$
Taylor series at 0 to $x^3$
Tangent at $x=1$
Plot in range [-2, 2]
```

Blank lines and white space at the ends of lines do not count.  The lines are checked from the first
to the last, and the first mistake is reported with the number of its line.

* `Problem.load`: the problem that a text describes.
-/

namespace Fluxion

open Text

/-- A function of a variable, a Taylor series, a tangent and a range. -/
structure Problem (α : Type) where
  var : String
  function : String
  seriesAt : α
  seriesOrder : Nat
  tangentAt : α
  rangeStart : α
  rangeEnd : α

/-- The lines of a problem file. -/
inductive ProblemLine where
  | function | series | tangent | range
  deriving DecidableEq

/-- The name of a line in messages. -/
def ProblemLine.name : ProblemLine → String
  | function => "function"
  | series => "Taylor series"
  | tangent => "tangent"
  | range => "plot range"

/-- What is wrong with a problem file. -/
inductive ProblemMistake where
  /-- the file ends before this line -/
  | missing (line : ProblemLine)
  /-- there is a line too many -/
  | extra (text : List Char)
  /-- the line does not have its form -/
  | invalid (line : ProblemLine) (text : List Char)
  /-- the function has no variable -/
  | noVariable
  /-- a line is about another variable than the function -/
  | otherVariable (line : ProblemLine) (var other : List Char)
  | negativeOrder (order : List Char)
  /-- the range does not end after its start -/
  | emptyRange (start stop : List Char)

/-- How much of a line is shown in a message. -/
def shownLineLength : Nat := 32

/-- The beginning of a line in quotes. -/
def shownLine (text : List Char) : String := quoted (String.ofList (text.take shownLineLength))

/-- The text by which a mistake is reported. -/
def ProblemMistake.message : ProblemMistake → String
  | missing l => "missing " ++ l.name ++ " line"
  | extra text => "unexpected extra input " ++ shownLine text
  | invalid l text => "invalid " ++ l.name ++ " line " ++ shownLine text
  | noVariable => "function variable missing"
  | otherVariable l x y =>
    "function variable " ++ quoted (String.ofList x) ++ " does not match " ++ l.name ++ " variable "
      ++ quoted (String.ofList y)
  | negativeOrder n => "Taylor series order must not be negative, got " ++ String.ofList n
  | emptyRange a b =>
    "plot range start " ++ String.ofList a ++ " must be less than end " ++ String.ofList b

/-- Why a text is no problem. -/
inductive ProblemError where
  /-- a mistake and the number of its line, counted from one -/
  | mistake (m : ProblemMistake) (line : Option Nat)
  /-- the order of the Taylor series cannot be read -/
  | order (e : IntegerError)

/-- The text by which an error in a named file is reported. -/
def ProblemError.message (file : Option String) : ProblemError → String
  | mistake m line =>
    let file := match file with
      | some "" | none => "<input>"
      | some name => name
    let line := match line with
      | some n => ":" ++ toString n
      | none => ""
    file ++ line ++ ": " ++ m.message
  | order e => e.message

namespace Problem

/-! ## the forms of the lines -/

/-- The variable and the expression of `$f(x) = …$`. -/
def functionLine : Pattern (List Char × List Char) := do
  .word "$"; .blanks; .word "f"; .blanks; .word "("
  let x ← .upTo [')']
  .word ")"; .blanks; .word "="; .blanks
  let e ← .upTo ['$']
  .word "$"
  return (x, e)

/-- The center, the variable and the order of `Taylor series at … to $x^…$`. -/
def seriesLine : Pattern (List Char × List Char × List Char) := do
  .word "Taylor"; .gap; .word "series"; .gap; .word "at"; .gap
  let center ← .number
  .gap; .word "to"; .gap; .word "$"
  let x ← .upTo ['^', '$']
  .word "^"; .blanks; .optional '\x7b'; .blanks
  let order ← .whole
  .blanks; .optional '\x7d'; .blanks; .word "$"
  return (center, x, order)

/-- The variable and the point of `Tangent at $x=…$`. -/
def tangentLine : Pattern (List Char × List Char) := do
  .word "Tangent"; .gap; .word "at"; .gap; .word "$"
  let x ← .upTo ['=', '$']
  .word "="; .blanks
  let point ← .number
  .blanks; .word "$"
  return (x, point)

/-- The ends of `Plot in range […, …]`. -/
def rangeLine : Pattern (List Char × List Char) := do
  .word "Plot"; .gap; .word "in"; .gap; .word "range"; .blanks; .word "["; .blanks
  let start ← .number
  .blanks; .word ","; .blanks
  let stop ← .number
  .blanks; .word "]"
  return (start, stop)

/-! ## reading -/

/-- The number that a text with an optional sign stands for. -/
def readSigned {α : Type} [Arith α] (cs : List Char) : α :=
  let (mantissa, exponent) := readNumber (cs.drop (signLength cs))
  let v := Arith.ofDecimal mantissa exponent
  if cs.head? = some '-' then Arith.neg v else v

/-- The lines of a text with their numbers. -/
def numberedFrom (n : Nat) (line : List Char) : List Char → List (Nat × List Char)
  | [] => [(n, line.reverse)]
  | c :: cs =>
    if c = '\n' then (n, line.reverse) :: numberedFrom (n + 1) [] cs
    else numberedFrom n (c :: line) cs

/-- The lines that are not blank, without white space at their ends. -/
def contentLines (cs : List Char) : List (Nat × List Char) :=
  ((numberedFrom 1 [] cs).map fun (n, line) => (n, trim line)).filter (!·.2.isEmpty)

/-- The mistake on a line. -/
def wrong {β : Type} (n : Nat) (m : ProblemMistake) : Except ProblemError β :=
  .error (.mistake m (some n))

/-- What a pattern answers for a numbered line. -/
def matchLine {β : Type} (name : ProblemLine) (p : Pattern β) (line : Nat × List Char) :
    Except ProblemError β :=
  match p.matchAll line.2 with
  | some b => .ok b
  | none => wrong line.1 (.invalid name line.2)

/-- A line has to be about the variable of the function. -/
def requireVar (name : ProblemLine) (n : Nat) (x other : List Char) : Except ProblemError Unit :=
  if trim other = x then .ok () else wrong n (.otherVariable name x (trim other))

variable {α : Type} [Arith α]

/-- The variable and the expression of the first line. -/
def readFunction (line : Nat × List Char) : Except ProblemError (List Char × List Char) := do
  let (x, e) ← matchLine .function functionLine line
  if (trim x).isEmpty then wrong line.1 .noVariable
  return (trim x, trim e)

/-- The center and the order of the second line, which has to be about a variable. -/
def readSeries (x : List Char) (line : Nat × List Char) : Except ProblemError (α × Nat) := do
  let (center, y, order) ← matchLine .series seriesLine line
  requireVar .series line.1 x y
  let n ← (integer (String.ofList order)).mapError .order
  if n < 0 then wrong line.1 (.negativeOrder order)
  return (readSigned center, n.toNat)

/-- The point of the third line, which has to be about a variable. -/
def readTangent (x : List Char) (line : Nat × List Char) : Except ProblemError α := do
  let (y, point) ← matchLine .tangent tangentLine line
  requireVar .tangent line.1 x y
  return readSigned point

/-- The ends of the range of the fourth line. -/
def readRange (line : Nat × List Char) : Except ProblemError (α × α) := do
  let (start, stop) ← matchLine .range rangeLine line
  if Arith.le (readSigned stop : α) (readSigned start) then wrong line.1 (.emptyRange start stop)
  return (readSigned start, readSigned stop)

/-- The problem that four lines describe. -/
def ofLines (function series tangent range : Nat × List Char) :
    Except ProblemError (Problem α) := do
  let (x, expression) ← readFunction function
  let (center, order) ← readSeries x series
  let point ← readTangent x tangent
  let (start, stop) ← readRange range
  return {
    var := String.ofList x
    function := String.ofList expression
    seriesAt := center
    seriesOrder := order
    tangentAt := point
    rangeStart := start
    rangeEnd := stop }

/-- The problem that a text describes. -/
def load (text : String) : Except ProblemError (Problem α) :=
  match contentLines text.toList with
  | [] => .error (.mistake (.missing .function) none)
  | [_] => .error (.mistake (.missing .series) none)
  | [_, _] => .error (.mistake (.missing .tangent) none)
  | [_, _, _] => .error (.mistake (.missing .range) none)
  | [function, series, tangent, range] => ofLines function series tangent range
  | _ :: _ :: _ :: _ :: extra :: _ => wrong extra.1 (.extra extra.2)

/-- A problem as it is shown. -/
def display {α : Type} [Numeral α] (p : Problem α) : String :=
  let fields := [
    ("var", quoted p.var),
    ("function", quoted p.function),
    ("taylor_at", Numeral.exact p.seriesAt),
    ("taylor_order", toString p.seriesOrder),
    ("tangent_at", Numeral.exact p.tangentAt),
    ("range_start", Numeral.exact p.rangeStart),
    ("range_end", Numeral.exact p.rangeEnd)]
  "Problem (" ++ ", ".intercalate (fields.map fun (name, value) => name ++ " = " ++ value) ++ ")"

end Problem

end Fluxion

import Fluxion.Article.Basic
import Fluxion.Command.Disk
import Fluxion.Solution
import Fluxion.Store.Calculus
import Fluxion.Store.Simplify
import Fluxion.Store.Text
import Fluxion.Store.Tree
import Fluxion.Store.Value

/-!
# Fluxion.Failure

Failures as they are reported to a user: the name of their kind and a text.

Failures of kinds that stand for a mistake in the input are reported and end the program in good
order.  A number that cannot be represented, or a division by zero outside any simplification,
is no such mistake (`Failure.isFatal`).
-/

namespace Fluxion

/-- The kinds of failures. -/
inductive FailureKind where
  | lexical | grouping | trailingInput | unexpectedToken | tooManyVariables
  | structural | unknownVariable | foreignVariable | degenerate | rendering | problem | article
  | value | zeroDivision | overflow
  | missingPart | unknownOperation | unknownNode
  | notFound | alreadyThere | notDirectory | isDirectory | system | sameFile
  deriving DecidableEq

namespace FailureKind

/-- The name under which failures of a kind are reported. -/
def name : FailureKind → String
  | lexical => "LexError"
  | grouping => "GroupingError"
  | trailingInput => "TrailingInputError"
  | unexpectedToken => "UnexpectedTokenError"
  | tooManyVariables => "TooManyVariablesError"
  | structural => "TreeError"
  | unknownVariable => "UnknownVariableError"
  | foreignVariable => "DiffError"
  | degenerate => "SimplifyError"
  | rendering => "RenderError"
  | problem => "InputError"
  | article => "ArticleError"
  | value => "ValueError"
  | zeroDivision => "ZeroDivisionError"
  | overflow => "OverflowError"
  | missingPart => "AttributeError"
  | unknownOperation => "KeyError"
  | unknownNode => "IndexError"
  | notFound => "FileNotFoundError"
  | alreadyThere => "FileExistsError"
  | notDirectory => "NotADirectoryError"
  | isDirectory => "IsADirectoryError"
  | system => "OSError"
  | sameFile => "SameFileError"

/-- No input file is to blame for failures of this kind. -/
def isFatal : FailureKind → Bool
  | zeroDivision | overflow => true
  | _ => false

end FailureKind

/-- A failure, by its kind and its text. -/
structure Failure where
  kind : FailureKind
  message : String

namespace Failure

/-- One line about a failure. -/
def line (f : Failure) : String := f.kind.name ++ ": " ++ f.message

/-- A failure that is not reported in good order. -/
def isFatal (f : Failure) : Bool := f.kind.isFatal

/-- The failure of an operation on numbers. -/
def ofMath (f : MathFault) : Failure :=
  let kind : FailureKind := match f with
    | .divisionByZero => .zeroDivision
    | .domain | .undefinedInteger => .value
    | .range | .infiniteInteger | .integerTooLarge => .overflow
  ⟨kind, f.message⟩

/-- The failure of an evaluation. -/
def ofEval (e : EvalError) : Failure :=
  match e with
  | .unbound _ => ⟨.value, e.message⟩
  | .fault f => ofMath f

/-- The failure to build an expression. -/
def ofBuild (e : BuildError) : Failure := ⟨.structural, e.message⟩

/-- The failure to take up a name. -/
def ofNames (e : NamesFull) : Failure := ⟨.structural, e.message⟩

/-- The failure to read a formula. -/
def ofRead (e : ReadError) : Failure :=
  let kind : FailureKind := match e with
    | .lexical _ => .lexical
    | .namesFull _ _ _ => .tooManyVariables
    | .grammar g => match g with
      | .unmatched _ | .unclosed _ _ _ => .grouping
      | .trailing _ => .trailingInput
      | .noBracket _ _ | .noOperand _ => .unexpectedToken
      | .noFunction _ => .structural
  ⟨kind, e.message⟩

/-- The failure to divide an expression into parts. -/
def ofLabels (e : LabelsExhausted) : Failure := ⟨.rendering, e.message⟩

/-- The failure of a call on nodes. -/
def ofNode (e : NodeError) : Failure :=
  let kind : FailureKind := match e with
    | .noNode => .unknownNode
    | .owned | .leaf | .hasChildren _ | .ownedRoot | .build _ => .structural
    | .noSlot _ | .missing _ => .missingPart
    | .unknownOp _ => .unknownOperation
  ⟨kind, e.message⟩

/-- The failure to evaluate what stands below a node. -/
def ofValue (e : Sketch.ValueError) : Failure :=
  match e with
  | .node e => ofNode e
  | .eval e => ofEval e
  | .nameless => ⟨.value, e.message⟩

/-- The failure to write what stands below a node. -/
def ofTex (e : TexError) : Failure :=
  match e with
  | .node e => ofNode e
  | .labels e => ofLabels e

/-- The failure of a step in an article. -/
def ofArticle (e : ArticleError) : Failure :=
  match e with
  | .wrongStage _ => ⟨.article, e.message⟩
  | .labels e => ofLabels e

/-- The failure to read a whole number. -/
def ofInteger (e : Text.IntegerError) : Failure := ⟨.value, e.message⟩

/-- The failure to load a problem from a file. -/
def ofProblem (file : Option String) (e : ProblemError) : Failure :=
  match e with
  | .mistake _ _ => ⟨.problem, e.message file⟩
  | .order e => ofInteger e

/-- The failure of an operation on a disk. -/
def ofDisk (e : DiskError) : Failure :=
  let kind : FailureKind := match e with
    | .embeddedNull => .value
    | .notFound _ => .notFound
    | .alreadyThere _ => .alreadyThere
    | .notDirectory _ => .notDirectory
    | .isDirectory _ => .isDirectory
    | .nameTooLong _ => .system
    | .sameFile _ _ => .sameFile
  ⟨kind, e.message⟩

section

variable {α : Type} [Numeral α]

/-- The failure of a simplification. -/
def ofSimplify {β : Type} (display : β → String) (e : SimplifyError α β) : Failure :=
  match e with
  | .degenerate d => ⟨.degenerate, d.message display⟩
  | .fault f => ofMath f

/-- The failure of an operation of calculus. -/
def ofCalculus (e : CalculusError α) : Failure :=
  match e with
  | .unknownVariable _ _ => ⟨.unknownVariable, e.message⟩
  | .negativeOrder _ => ⟨.value, e.message⟩
  | .simplify e => ofSimplify Expr.display e
  | .fault f => ofMath f

/-- The failure to simplify what stands below a node. -/
def ofSketch (e : RewriteError α (Sketch α)) : Failure :=
  match e with
  | .node e => ofNode e
  | .simplify e => ofSimplify Sketch.display e

/-- The failure of a call on trees. -/
def ofTree (e : TreeError α) : Failure :=
  match e with
  | .node e => ofNode e
  | .read e => ofRead e
  | .names e => ofNames e
  | .calculus e => ofCalculus e

/-- The failure to develop a tree. -/
def ofDevelop (e : DevelopError α) : Failure :=
  match e with
  | .tree e => ofTree e
  | .rewrite e => ofSketch e

/-- The failure to solve a problem. -/
def ofSolve (e : SolveError α) : Failure :=
  match e with
  | .read e => ofRead e
  | .foreignVariable _ _ => ⟨.foreignVariable, e.message⟩
  | .names e => ofNames e
  | .calculus e => ofCalculus e

end

end Failure

end Fluxion

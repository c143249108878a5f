import Fluxion.Main
import Fluxion.Plot.Chart
import Fluxion.Proofs.Expr.Value
import Fluxion.Store.Tree
import Fluxion.Proofs.Term.Rules
import Fluxion.Proofs.Expr.Simplify
import Fluxion.Proofs.Expr.Derivative
import Fluxion.Proofs.Formula.Grammar
import Fluxion.Proofs.Formula.Phrase
import Fluxion.Proofs.Formula.Read
import Fluxion.Proofs.Token.Lexer
import Fluxion.Proofs.Expr.Regroup
import Fluxion.Proofs.Expr.Symbols
import Fluxion.Proofs.Expr.Tex
import Fluxion.Proofs.Expr.Outline
import Fluxion.Proofs.Formula.RoundTrip
import Fluxion.Proofs.Formula.Strictness
import Fluxion.Proofs.Formula.Degenerate
import Fluxion.Proofs.Formula.Settling
import Fluxion.Proofs.Formula.Undefined
import Fluxion.Proofs.Formula.Factorial
import Fluxion.Proofs.Formula.Lenient
import Fluxion.Proofs.Solution
import Fluxion.Proofs.Command.Run
import Fluxion.Proofs.Expr.Polynomial
import Fluxion.Proofs.Formula.Polynomial
import Fluxion.Proofs.Formula.Taylor
import Fluxion.Proofs.Formula.Tangent
import Fluxion.Proofs.Store.Circle
import Fluxion.Proofs.Store.Iteration
import Fluxion.Proofs.Store.Expression
import Fluxion.Proofs.Store.Calculus
import Fluxion.Proofs.Store.Steps
import Fluxion.Proofs.Store.Refusal
import Fluxion.Proofs.Formula.FirstFault
import Fluxion.Proofs.Formula.Refusal
import Fluxion.Proofs.Formula.WellBuilt
import Fluxion.Proofs.Formula.Termination
import Fluxion.Proofs.Formula.NormalForm
import Fluxion.Proofs.Expr.Legend
import Fluxion.Proofs.Number.Decimal
import Fluxion.Proofs.Number.Layout
import Fluxion.Proofs.Number.Numeral
import Fluxion.Proofs.Formula.Labels
import Fluxion.Proofs.Article.Marks
import Fluxion.Proofs.Article.Calls
import Fluxion.Proofs.Article.Course
import Fluxion.Proofs.Article.Refusal
import Fluxion.Proofs.Text.Decimal
import Fluxion.Proofs.Problem.Line
import Fluxion.Proofs.Problem.Load
import Fluxion.Proofs.Problem.Rounded
import Fluxion.Proofs.Infix.Read
import Fluxion.Proofs.Infix.Transcript
import Fluxion.Proofs.Number.Literal
import Fluxion.Proofs.Plot.Sample
import Fluxion.Proofs.Plot.Chart
import Fluxion.Proofs.Plot.Limits
import Fluxion.Proofs.Command.Disk
import Fluxion.Proofs.Command.Effects
import Fluxion.Proofs.Store.Reading
import Fluxion.Proofs.Token.Tiling
import Fluxion.Proofs.Formula.Spacing
import Fluxion.Proofs.Formula.Folding
import Fluxion.Proofs.Formula.Substitution
import Fluxion.Proofs.Store.Outline

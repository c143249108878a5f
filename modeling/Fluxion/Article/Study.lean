import Fluxion.Article.Basic
import Fluxion.Solution

/-!
# Fluxion.Article.Study

The article about the solution of a problem.
-/

namespace Fluxion

/-- The picture files of an article. -/
structure Pictures where
  function : Option String
  series : Option String
  tangent : Option String

/-- No pictures. -/
def Pictures.none : Pictures := ⟨.none, .none, .none⟩

namespace Article

variable {α : Type} [Arith α] [Numeral α]

/-- A picture if there is a file for it. -/
def imageOf (file : Option String) (caption : String) : Writing Unit :=
  match file with
  | some name => image name caption
  | none => pure ()

/-- A name applied to a variable. -/
def applied (name x : String) : String := name ++ "\\left(" ++ x ++ " \\right)"

/-- The whole article: the function, its derivative, its Taylor series and its tangent, a section
each. -/
def study (solution : Solution α) (heading author : String) (pictures : Pictures) :
    Writing Unit := do
  let p := solution.problem
  let x := p.var
  let f := applied "f" x
  let f' := applied "f'" x
  let point (v : α) := "$" ++ x ++ " = " ++ Numeral.brief v ++ "$"
  title heading author
  start
  match solution.formula.root.texInParts with
  | .error e => throw (.labels e)
  | .ok tex =>
    abstract ("In this paper we study the function $" ++ f ++ " = " ++ tex
      ++ "$, its derivative, its Taylor series at " ++ point p.seriesAt ++ " and its tangent at "
      ++ point p.tangentAt ++ ".")
  newSection "The function"
  narratedFormula solution.formula.root f
  imageOf pictures.function ("Graph of $" ++ f ++ "$")
  newSection "The derivative"
  paragraph "Applying the rules of differentiation term by term we get"
  narratedFormula solution.derivative.root f'
  paragraph "Which after simplification becomes"
  narratedFormula solution.simplified.root f'
  newSection "Taylor series"
  paragraph ("Expanding the function around " ++ point p.seriesAt ++ " up to $" ++ x ++ "^"
    ++ braced (toString p.seriesOrder) ++ "$")
  narratedFormula solution.series.root f
  imageOf pictures.series "Function and its Taylor series"
  newSection "Tangent"
  paragraph ("The tangent line at " ++ point p.tangentAt ++ " is")
  narratedFormula solution.tangent.root "y"
  imageOf pictures.tangent "Function and its tangent"
  finish

end Article

end Fluxion

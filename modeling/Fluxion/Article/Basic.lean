import Fluxion.Expr.Outline

/-!
# Fluxion.Article.Basic

Articles in LaTeX, written front to back.

An article is titled, started, filled and ended, in this order; a title may be left out.  Every call
checks the stage first, so a call at the wrong time changes nothing.  Calls run in the monad
`Writing`, whose state survives a failure: what a composite call wrote before one of its parts
failed stays written.

Formulas are narrated with phrases chosen from lists.  The choice is made by a `Chooser`, which is
told how many choices came before.
-/

namespace Fluxion

/-- How far an article has come. -/
inductive Stage where
  | new | titled | started | ended
  deriving DecidableEq

namespace Stage

/-- The stages in order. -/
def number : Stage → Nat
  | new => 0 | titled => 1 | started => 2 | ended => 3

end Stage

/-- Why a call on an article fails. -/
inductive ArticleError where
  /-- the article is at this stage, and the call belongs to another -/
  | wrongStage (s : Stage)
  | labels (e : LabelsExhausted)
  deriving DecidableEq

/-- The text by which an error is reported. -/
def ArticleError.message : ArticleError → String
  | wrongStage .new | wrongStage .titled => "article is not started yet"
  | wrongStage .started => "article is already started"
  | wrongStage .ended => "article is already finished"
  | labels e => e.message

/-- Phrases around formulas. -/
structure Phrases where
  /-- before a formula -/
  starters : List String
  /-- after a formula -/
  transitions : List String
  /-- after a transition -/
  placeholders : List String

/-- The starter in use when there are none to choose from. -/
def defaultStarter : String := "Now look at this:"

/-- The transition in use when there are none to choose from. -/
def defaultTransition : String := "As you can see,"

/-- The placeholder in use when there are none to choose from. -/
def defaultPlaceholder : String := "is easy to see."

/-- A choice among phrases, given how many choices came before. -/
abbrev Chooser := Nat → List String → String

namespace Chooser

/-- The first phrase every time. -/
def first : Chooser := fun _ lines => lines.headD ""

/-- The phrases at scripted positions; the script starts over at its end, and positions are counted
around the list of phrases. -/
def scripted (picks : List Int) : Chooser := fun n lines =>
  let pick := (picks[n % picks.length]?).getD 0
  (lines[(pick.emod lines.length).toNat]?).getD ""

end Chooser

/-- An article under way. -/
structure Article where
  phrases : Phrases
  chooser : Chooser
  /-- the number of choices made -/
  chosen : Nat
  stage : Stage
  /-- the text so far -/
  text : String

/-- A call on an article. -/
abbrev Writing (β : Type) := ExceptT ArticleError (StateM Article) β

namespace Article

/-- A text in curly brackets. -/
def braced (s : String) : String := Expr.braced s

/-- The beginning of an environment. -/
def beginning (environment : String) : String := "\\begin" ++ braced environment

/-- The end of an environment. -/
def ending (environment : String) : String := "\\end" ++ braced environment

/-- An article without a line of its own, in a preamble of its own if there is one. -/
def empty (phrases : Phrases) (chooser : Chooser) (preamble : Bool) : Article where
  phrases
  chooser
  chosen := 0
  stage := .new
  text := "\\documentclass" ++ braced "article" ++ "\n"
    ++ "\\usepackage" ++ braced "graphicx" ++ "\n"
    ++ (if preamble then "\\usepackage" ++ braced "preamble" ++ "\n" else "")

/-- The article has to be at one of these stages. -/
def require (stages : List Stage) : Writing Unit := do
  let a ← get
  if !stages.contains a.stage then throw (.wrongStage a.stage)

/-- Add to the text. -/
def append (s : String) : Writing Unit := modify fun a => { a with text := a.text ++ s }

/-- Move on to a stage. -/
def enter (s : Stage) : Writing Unit := modify fun a => { a with stage := s }

/-- One of these phrases, or the default if there are none. -/
def choose (lines : List String) (default : String) : Writing String := do
  if lines.isEmpty then return default
  let a ← get
  set { a with chosen := a.chosen + 1 }
  return a.chooser a.chosen lines

/-! ## the frame -/

/-- The title and the author, before the article starts. -/
def title (title author : String) : Writing Unit := do
  require [.new]
  append ("\\title" ++ braced title ++ "\n\\author" ++ braced author ++ "\n")
  enter .titled

/-- The start of the article, which may have no title. -/
def start : Writing Unit := do
  require [.new, .titled]
  append (beginning "document" ++ "\n\\maketitle\n")
  enter .started

/-- The end of the article. -/
def finish : Writing Unit := do
  require [.started]
  append (ending "document" ++ "\n")
  enter .ended

/-! ## contents -/

/-- An abstract. -/
def abstract (text : String) : Writing Unit := do
  require [.started]
  append (beginning "abstract" ++ "\n" ++ text ++ "\n" ++ ending "abstract" ++ "\n")

/-- The heading of a section, which starts on a new page. -/
def newSection (title : String) : Writing Unit := do
  require [.started]
  append ("\\newpage\n\\section" ++ braced title ++ "\n")

/-- A line of text. -/
def paragraph (text : String) : Writing Unit := do
  require [.started]
  append (text ++ "\n")

/-- A phrase that leads to a formula. -/
def starter : Writing Unit := do
  require [.started]
  append ("\n" ++ (← choose (← get).phrases.starters defaultStarter) ++ "\n")

/-- A phrase that follows a formula. -/
def transition : Writing Unit := do
  require [.started]
  append ((← choose (← get).phrases.transitions defaultTransition) ++ " ")

/-- A phrase that ends the sentence of a transition. -/
def placeholder : Writing Unit := do
  require [.started]
  append ((← choose (← get).phrases.placeholders defaultPlaceholder) ++ "\n\n")

section Formulas

variable {α : Type} [Arith α] [Numeral α]

/-- A displayed equation. -/
def equation (lhs rhs : String) : String :=
  beginning "equation" ++ "\n" ++ (if lhs.isEmpty then "" else lhs ++ " = ") ++ rhs ++ "\n"
    ++ ending "equation" ++ "\n"

/-- The definitions of the labels of a formula, if it has any. -/
def whereList (definitions : List (String × String)) : String :=
  if definitions.isEmpty then ""
  else
    "Where:\n" ++ beginning "itemize" ++ "\n"
      ++ String.join (definitions.map fun (label, tex) =>
        "\\item $" ++ label ++ " = " ++ tex ++ "$\n")
      ++ ending "itemize" ++ "\n"

/-- A displayed equation of an expression, in parts if it is large. -/
def formula (e : Expr α) (lhs : String) : Writing Unit := do
  require [.started]
  match e.outline with
  | .ok o => append (equation lhs o.root.tex ++ whereList o.definitions)
  | .error err => throw (.labels err)

/-- A displayed equation with phrases around it. -/
def narratedFormula (e : Expr α) (lhs : String) : Writing Unit := do
  starter
  formula e lhs
  transition
  placeholder

end Formulas

/-- A picture, with a caption unless that is empty. -/
def image (file caption : String) : Writing Unit := do
  require [.started]
  append (beginning "figure" ++ "[h]\n\\centering\n\\includegraphics[width=0.8\\textwidth]"
    ++ braced file ++ "\n"
    ++ (if caption.isEmpty then "" else "\\caption" ++ braced caption ++ "\n")
    ++ ending "figure" ++ "\n")

/-- The text of an article that is complete. -/
def finished : Writing String := do
  require [.ended]
  return (← get).text

end Article

end Fluxion

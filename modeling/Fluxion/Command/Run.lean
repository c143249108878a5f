import Fluxion.Article.Study
import Fluxion.Command.Options
import Fluxion.Failure
import Fluxion.Path

/-!
# Fluxion.Command.Run

A run of the program: from a problem file to an article.

A run reads and changes a disk and writes to two streams, results to one and messages to the other.
The problem is loaded and solved before anything is written; then the output directory is made, the
phrases are read, the article is composed, and at last it is written.  No plotting library and no
typesetting program is at hand, so plots are left out and no pdf is made, with a message each.

* `Command.run`: the exit status, the streams and the disk after a run;
* `Command.paths`: the part of a disk that a run depends on.
-/

namespace Fluxion

/-- A disk and two streams. -/
structure Session where
  disk : Disk
  out : String
  err : String

namespace Command

/-- The version of the program. -/
def version : String := "1.0"

/-- The help text. -/
def help : String := "\n".intercalate [
  "usage: difftex [options] inputfile",
  "",
  "  -h, --help               - Show help information",
  "  -v, --version            - Show version string",
  "  -o, --outdir=DIR         - Output directory for article, plots and pdf (default \"output\")",
  "  -s, --seed=N             - Seed for narrative phrase selection (default random)",
  "  -t, --title=TEXT         - Article title",
  "  -a, --author=TEXT        - Article author",
  "  -p, --preamble=FILE      - LaTeX style file used as article preamble",
  "  --starters=FILE          - Phrases introducing formulas, one per line",
  "  --transitions=FILE       - Phrases following formulas, one per line",
  "  --placeholders=FILE      - Phrases finishing transitions, one per line",
  "  --strict                 - Treat simplification diagnostics like division by zero as errors",
  "  -d, --debug              - Dump debug info to stderr",
  "  --noplot                 - Don't plot graphs",
  "  --nopdf                  - Don't run pdflatex on the article",
  ""]

/-- The program that typesets an article. -/
def typesetter : String := "pdflatex"

/-- The file of the article in its directory. -/
def articleFile : String := "article.tex"

/-- The file of the preamble beside the article. -/
def preambleFile : String := "preamble.sty"

/-- Work in a session. -/
abbrev Running (β : Type) := ExceptT Failure (StateM Session) β

/-- Write a line of results. -/
def say (line : String) : StateM Session Unit :=
  modify fun s => { s with out := s.out ++ line ++ "\n" }

/-- Write a line of messages. -/
def complain (line : String) : StateM Session Unit :=
  modify fun s => { s with err := s.err ++ line ++ "\n" }

/-- Write notes to the log: all of them when tracing, the urgent ones otherwise. -/
def log (debug : Bool) (notes : List (Note Float)) : StateM Session Unit :=
  notes.forM fun n => if debug || n.level.isUrgent then complain n.line else pure ()

/-- A result, or the failure of a kind of errors. -/
def orFail {ε β : Type} (failure : ε → Failure) (r : Except ε β) : Running β :=
  match r with
  | .ok b => return b
  | .error e => throw (failure e)

/-- Something read from the disk. -/
def fromDisk {β : Type} (f : Disk → Except DiskError β) : Running β := do
  orFail .ofDisk (f (← get).disk)

/-- A change of the disk. -/
def changeDisk (f : Disk → Except DiskError Disk) : Running Unit := do
  let disk ← fromDisk f
  modify fun s => { s with disk }

/-- Make a directory with all above it. -/
def makePath (path : String) : Running Unit := do
  let (disk, error) := (← get).disk.makePath path
  modify fun s => { s with disk }
  match error with
  | some e => throw (.ofDisk e)
  | none => return ()

/-- Work that takes notes, which go to the log. -/
def logged {ε β : Type} (debug : Bool) (failure : ε → Failure) (w : Working Float ε β) :
    Running β := do
  ExceptT.lift (log debug w.notes)
  orFail failure w.result

/-- The lines of a file that are not blank, without white space at their ends. -/
def phraseLines (text : String) : List String :=
  (Problem.contentLines text.toList).map fun (_, line) => String.ofList line

/-- The phrases of a file, if one is given. -/
def phrases (file : Option String) : Running (List String) := do
  match file with
  | some path => return phraseLines (← fromDisk (·.read path))
  | none => return []

/-- The style file of an article, if one with a name is given. -/
def preamble? (s : Settings) : Option String := s.preamble.filter (!·.isEmpty)

/-- The solution of the problem in a file. -/
def solve (s : Settings) (input : String) : Running (Solution Float) := do
  let text ← fromDisk (·.read input)
  let problem ← orFail (.ofProblem (some input)) (Problem.load text)
  logged s.debug .ofSolve (problem.solve (if s.strict then .strict else .lenient))

/-- A seed has to be a number. -/
def checkSeed (s : Settings) : Running Unit :=
  match s.seed with
  | some text => discard (orFail .ofInteger (Text.integer text))
  | none => pure ()

/-- The phrases of an article. -/
def allPhrases (s : Settings) : Running Phrases := do
  let starters ← phrases s.starters
  let transitions ← phrases s.transitions
  let placeholders ← phrases s.placeholders
  return ⟨starters, transitions, placeholders⟩

/-- An article with nothing written yet.  What the seed decides among different phrases is up to the
chooser. -/
def newArticle (s : Settings) (chooser : Chooser := .first) : Running Article := do
  checkSeed s
  return .empty (← allPhrases s) chooser (preamble? s).isSome

/-- The text of the article about a solution. -/
def compose (s : Settings) (solution : Solution Float) (article : Article) : Running String := do
  let work := do
    Article.study solution s.title s.author .none
    Article.finished
  orFail .ofArticle (work.run article).1

/-- The preamble is copied to a file beside the article. -/
def copyPreamble (s : Settings) : Running Unit :=
  match preamble? s with
  | some file => changeDisk (·.copy file (Path.join s.outdir preambleFile))
  | none => pure ()

/-- Write the article and its preamble, and answer the path of the article. -/
def writeArticle (s : Settings) (text : String) : Running String := do
  makePath s.outdir
  copyPreamble s
  changeDisk (·.write (Path.join s.outdir articleFile) text)
  return Path.join s.outdir articleFile

/-- There are no plots, with a message if they are asked for. -/
def skipPlots (s : Settings) : Running Unit :=
  if s.noPlots then pure () else ExceptT.lift (log s.debug [.noPlots])

/-- From the solution of the problem to the path of the article. -/
def publish (s : Settings) (solution : Solution Float) (chooser : Chooser := .first) :
    Running String := do
  makePath s.outdir
  skipPlots s
  let article ← newArticle s chooser
  let text ← compose s solution article
  let path ← writeArticle s text
  ExceptT.lift (log s.debug [.wrote path])
  return path

/-- From the input file to the path of the article. -/
def produce (s : Settings) (input : String) (chooser : Chooser := .first) : Running String := do
  let solution ← solve s input
  publish s solution chooser

/-- The exit status of a run on an input file, or a failure that is not reported in good order. -/
def work (s : Settings) (input : String) (chooser : Chooser := .first) :
    StateM Session (Except Failure Nat) := do
  match ← (produce s input chooser).run with
  | .error f =>
    if f.isFatal then return .error f
    complain f.line
    return .ok 1
  | .ok path =>
    say path
    if s.noPdf then return .ok 0
    log s.debug [.noTypesetter typesetter]
    return .ok 1

/-- The paths of files and directories that a run may look at. -/
def paths (s : Settings) : List String :=
  s.inputs ++ [s.starters, s.transitions, s.placeholders, s.preamble].filterMap id
    ++ [s.outdir, Path.join s.outdir preambleFile, Path.join s.outdir articleFile]

/-- A run with given arguments. -/
def dispatch (arguments : List String) (chooser : Chooser := .first) :
    StateM Session (Except Failure Nat) := do
  match Settings.parse arguments with
  | .error e =>
    complain (e.message ++ "\n\n" ++ help)
    return .ok 2
  | .ok s =>
    if s.help then
      say help
      return .ok 0
    if s.version then
      say version
      return .ok 0
    match s.inputs with
    | [input] => work s input chooser
    | _ =>
      complain help
      return .ok 2

/-- A run with given arguments on a disk.  Of several phrases the first is chosen unless another
chooser is given. -/
def run (arguments : List String) (disk : Disk) (chooser : Chooser := .first) :
    Except Failure Nat × Session :=
  (dispatch arguments chooser).run ⟨disk, "", ""⟩

end Command

end Fluxion

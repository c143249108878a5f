import Fluxion.Text.Blank
import Fluxion.Text.Quoted

/-!
# Fluxion.Command.Disk

Files and directories as a run of the program sees them.

A disk is a list of entries under their places, which are lists of names from the root.  Paths are
looked up from the working directory, name by name: a dot stays, two dots go up, and every name but
the last has to be that of a directory.
-/

namespace Fluxion

/-- The names from the root to a file or directory. -/
abbrev Location := List String

/-- What can be found on a disk. -/
inductive Entry where
  | dir
  | file (text : String)
  deriving DecidableEq

/-- Files and directories, and the working directory. -/
structure Disk where
  home : Location
  entries : List (Location × Entry)

/-- Why an operation on a disk fails. -/
inductive DiskError where
  | notFound (path : String)
  | alreadyThere (path : String)
  | notDirectory (path : String)
  | isDirectory (path : String)
  | nameTooLong (path : String)
  /-- the path holds the character that ends a path for the system -/
  | embeddedNull
  | sameFile (source target : String)

namespace DiskError

/-- The text of a system error with its number. -/
def system (number : Nat) (text path : String) : String :=
  "[Errno " ++ toString number ++ "] " ++ text ++ ": " ++ Text.quoted path

/-- The text by which an error is reported. -/
def message : DiskError → String
  | notFound p => system 2 "No such file or directory" p
  | alreadyThere p => system 17 "File exists" p
  | notDirectory p => system 20 "Not a directory" p
  | isDirectory p => system 21 "Is a directory" p
  | nameTooLong p => system 36 "File name too long" p
  | embeddedNull => "embedded null byte"
  | sameFile a b => Text.quoted a ++ " and " ++ Text.quoted b ++ " are the same file"

end DiskError

namespace Disk

/-- The longest name of a file, in bytes. -/
def maxNameBytes : Nat := 255

/-- The longest path, in bytes. -/
def maxPathBytes : Nat := 4095

/-- The entry at a place.  The working directory and all above it are directories. -/
def entry? (d : Disk) (l : Location) : Option Entry :=
  if l.isPrefixOf d.home then some .dir else (d.entries.find? (·.1 == l)).map (·.2)

/-- A disk with nothing but a working directory. -/
def empty : Disk := ⟨["home"], []⟩

/-- The names of a path, with empty ones where slashes meet. -/
def names (path : String) : List String := (path.toList.splitOn '/').map String.ofList

/-- Follow names from a place.  What is passed through has to be a directory; the place that the
last name leads to may be empty. -/
def follow (d : Disk) (path : String) : Location → List String → Except DiskError Location
  | here, [] => .ok here
  | here, name :: rest =>
    match d.entry? here with
    | none => .error (.notFound path)
    | some (.file _) => .error (.notDirectory path)
    | some .dir =>
      if name = "" ∨ name = "." then follow d path here rest
      else if name = ".." then follow d path here.dropLast rest
      else if maxNameBytes < name.utf8ByteSize then .error (.nameTooLong path)
      else follow d path (here ++ [name]) rest

/-- The place that a path leads to, and whether the path says that it is a directory.  The system
refuses some paths before it follows them. -/
def locate (d : Disk) (path : String) : Except DiskError (Location × Bool) := do
  if path.isEmpty then .error (.notFound path)
  else if path.toList.contains '\x00' then .error .embeddedNull
  else if maxPathBytes < path.utf8ByteSize then .error (.nameTooLong path)
  else
    let ns := names path
    let start := if path.toList.head? = some '/' then [] else d.home
    let trailing := ns.getLast? = some ""
    let core := if trailing then ns.dropLast else ns
    return (← d.follow path start core, trailing)

/-- The entry that a path leads to. -/
def find (d : Disk) (path : String) : Except DiskError Entry := do
  let (l, trailing) ← d.locate path
  match d.entry? l with
  | some (.file text) => if trailing then .error (.notDirectory path) else .ok (.file text)
  | some .dir => .ok .dir
  | none => .error (.notFound path)

/-- Something is there. -/
def has (d : Disk) (path : String) : Bool := (d.find path).toOption.isSome

/-- A directory is there. -/
def isDir (d : Disk) (path : String) : Bool :=
  match d.find path with
  | .ok .dir => true
  | _ => false

/-- An entry put in a place. -/
def put (d : Disk) (l : Location) (e : Entry) : Disk :=
  { d with entries := d.entries.filter (·.1 != l) ++ [(l, e)] }

/-- The text of a file as it is stored. -/
def readRaw (d : Disk) (path : String) : Except DiskError String := do
  match ← d.find path with
  | .file text => return text
  | .dir => .error (.isDirectory path)

/-- Line ends of all kinds as line feeds. -/
def normalLineEnds : List Char → List Char
  | '\r' :: '\n' :: cs => '\n' :: normalLineEnds cs
  | '\r' :: cs => '\n' :: normalLineEnds cs
  | c :: cs => c :: normalLineEnds cs
  | [] => []

/-- The text of a file, with line feeds as line ends. -/
def read (d : Disk) (path : String) : Except DiskError String := do
  return String.ofList (normalLineEnds (← d.readRaw path).toList)

/-- The disk with a file written. -/
def write (d : Disk) (path text : String) : Except DiskError Disk := do
  let (l, trailing) ← d.locate path
  match d.entry? l with
  | some .dir => .error (.isDirectory path)
  | some (.file _) => if trailing then .error (.notDirectory path) else return d.put l (.file text)
  | none =>
    if trailing then .error (.isDirectory path)
    else
      match d.entry? l.dropLast with
      | some .dir => return d.put l (.file text)
      | some (.file _) => .error (.notDirectory path)
      | none => .error (.notFound path)

/-- The disk with a directory made. -/
def makeDir (d : Disk) (path : String) : Except DiskError Disk := do
  let (l, _) ← d.locate path
  match d.entry? l with
  | some _ => .error (.alreadyThere path)
  | none =>
    match d.entry? l.dropLast with
    | some .dir => return d.put l .dir
    | some (.file _) => .error (.notDirectory path)
    | none => .error (.notFound path)

/-- The disk with a copy of a file. -/
def copy (d : Disk) (source target : String) : Except DiskError Disk := do
  let same : Bool := match d.find source, d.find target with
    | .ok _, .ok _ => (d.locate source).toOption.map (·.1) == (d.locate target).toOption.map (·.1)
    | _, _ => false
  if same then .error (.sameFile source target)
  else d.write target (← d.readRaw source)

/-- The disk with a file at a path below the working directory, in directories made for it. -/
def withFile (d : Disk) (path text : String) : Disk :=
  let l := d.home ++ names path
  let above := (List.range l.length).map l.take
  let missing := above.filter fun a => (d.entry? a).isNone
  (missing.foldl (fun d a => d.put a .dir) d).put l (.file text)

/-- What is below the working directory, with paths from there. -/
def listing (d : Disk) : List (String × Entry) :=
  (d.entries.filter (d.home.isPrefixOf ·.1)).map fun (l, e) =>
    ("/".intercalate (l.drop d.home.length), e)

/-- The entries of a disk that another one lacks or has otherwise, in the order in which they came
to be: a directory before what is in it. -/
def changes (before after : Disk) : List (Location × Entry) :=
  after.entries.filter (!before.entries.contains ·)

/-- A path and the paths of all directories that it leads through, from the first on. -/
def leading (path : String) : List String :=
  let ns := names path
  ((List.range (ns.length + 1)).map fun n => "/".intercalate (ns.take n)).filter (!·.isEmpty)

/-- The path of a place from the root. -/
def absolute (l : Location) : String := "/" ++ "/".intercalate l

/-! ## directories with all above them -/

/-- The directory part of a path and the name after it. -/
def split (cs : List Char) : List Char × List Char :=
  let head := Text.dropEnd (· != '/') cs
  let tail := cs.drop head.length
  (if head.all (· == '/') then head else Text.dropEnd (· == '/') head, tail)

/-- Make a directory; one that is there already is as good. -/
def ensureDir (d : Disk) (path : String) : Disk × Option DiskError :=
  match d.makeDir path with
  | .ok d => (d, none)
  | .error e => (d, if d.isDir path then none else some e)

/-- Make a directory and those above it that are missing.  Directories made before a failure stay.
The number bounds the depth of the path. -/
def makeDirs : Nat → Disk → List Char → Disk × Option DiskError
  | 0, d, path => d.ensureDir (String.ofList path)
  | n + 1, d, path =>
    let parts := split path
    let (head, tail) := if parts.2.isEmpty then split parts.1 else parts
    if head.isEmpty || tail.isEmpty || d.has (String.ofList head) then
      d.ensureDir (String.ofList path)
    else
      match makeDirs n d head with
      | (d, some (.alreadyThere _)) | (d, none) =>
        if tail = ['.'] then (d, none) else d.ensureDir (String.ofList path)
      | (d, some e) => (d, some e)

/-- The disk with a directory and all above it, and what went wrong. -/
def makePath (d : Disk) (path : String) : Disk × Option DiskError :=
  makeDirs path.length d path.toList

end Disk

end Fluxion

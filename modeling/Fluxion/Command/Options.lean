/-!
# Fluxion.Command.Options

The options of the command line.

Options come before all other arguments; two dashes on their own end them.  Short options can be
clustered behind one dash, and the last of a cluster takes the rest of it, or the next argument, as
its value.  Long options can be cut short as long as one option alone starts that way, and take
their value after an equals sign or from the next argument.  The last of several values counts.
-/

namespace Fluxion

/-- What is wrong with the options. -/
inductive OptionError where
  | unknown (option : String)
  | ambiguous (option : String)
  | missingValue (option : String)
  | unwantedValue (option : String)

/-- The text by which an error is reported. -/
def OptionError.message : OptionError → String
  | unknown o => "option " ++ o ++ " not recognized"
  | ambiguous o => "option " ++ o ++ " not a unique prefix"
  | missingValue o => "option " ++ o ++ " requires argument"
  | unwantedValue o => "option " ++ o ++ " must not have an argument"

/-- A short option, and whether it takes a value. -/
def shortOptions : List (Char × Bool) :=
  [('h', false), ('v', false), ('o', true), ('s', true), ('t', true), ('a', true), ('p', true),
    ('d', false)]

/-- A long option, and whether it takes a value. -/
def longOptions : List (String × Bool) :=
  [("help", false), ("version", false), ("outdir", true), ("seed", true), ("title", true),
    ("author", true), ("preamble", true), ("starters", true), ("transitions", true),
    ("placeholders", true), ("strict", false), ("debug", false), ("noplot", false),
    ("nopdf", false)]

/-- An option as it is named in messages and settings, with its value. -/
abbrev Setting := String × String

namespace Options

/-- The name of a short option. -/
def short (c : Char) : String := "-" ++ c.toString

/-- The name of a long option. -/
def long (name : String) : String := "--" ++ name

/-- The long option that a text stands for. -/
def resolve (text : String) : Except OptionError (String × Bool) :=
  match longOptions.filter fun (name, _) => text.toList.isPrefixOf name.toList with
  | [] => .error (.unknown (long text))
  | [option] => .ok option
  | several =>
    match several.find? (·.1 == text) with
    | some option => .ok option
    | none => .error (.ambiguous (long text))

/-- A cluster of short options: those without a value, and the one with a value that ends it. -/
def cluster : List Char → Except OptionError (List Setting × Option (Char × String))
  | [] => .ok ([], none)
  | c :: cs =>
    match shortOptions.find? (·.1 == c) with
    | none => .error (.unknown (short c))
    | some (_, true) => .ok ([], some (c, String.ofList cs))
    | some (_, false) => do
      let (settings, last) ← cluster cs
      return ((short c, "") :: settings, last)

/-- The name and the value of a long option. -/
def splitValue (cs : List Char) : String × Option String :=
  let name := cs.takeWhile (· != '=')
  match cs.dropWhile (· != '=') with
  | _ :: value => (String.ofList name, some (String.ofList value))
  | [] => (String.ofList name, none)

/-- Settings in front of those of further arguments. -/
def followedBy (settings : List Setting) (rest : Except OptionError (List Setting × List String)) :
    Except OptionError (List Setting × List String) := do
  let (more, arguments) ← rest
  return (settings ++ more, arguments)

/-- The settings and the other arguments of a command line. -/
def parse : List String → Except OptionError (List Setting × List String)
  | [] => .ok ([], [])
  | argument :: rest =>
    match argument.toList with
    | ['-', '-'] => .ok ([], rest)
    | '-' :: '-' :: cs => do
      let (text, value) := splitValue cs
      let (name, takesValue) ← resolve text
      match takesValue, value, rest with
      | true, some v, rest => followedBy [(long name, v)] (parse rest)
      | true, none, v :: rest => followedBy [(long name, v)] (parse rest)
      | true, none, [] => .error (.missingValue (long name))
      | false, none, rest => followedBy [(long name, "")] (parse rest)
      | false, some _, _ => .error (.unwantedValue (long name))
    | '-' :: c :: cs => do
      let (settings, last) ← cluster (c :: cs)
      match last, rest with
      | none, rest => followedBy settings (parse rest)
      | some (o, ""), v :: rest => followedBy (settings ++ [(short o, v)]) (parse rest)
      | some (o, ""), [] => .error (.missingValue (short o))
      | some (o, v), rest => followedBy (settings ++ [(short o, v)]) (parse rest)
    | _ => .ok ([], argument :: rest)

/-- The value of an option. -/
def value? (settings : List Setting) (option : String) : Option String :=
  (settings.reverse.find? (·.1 == option)).map (·.2)

/-- The value of an option with a long and a short name; the long one goes first. -/
def either? (settings : List Setting) (name : String) (c : Char) : Option String :=
  value? settings (long name) <|> value? settings (short c)

/-- An option is given. -/
def isSet (settings : List Setting) (option : String) : Bool := (value? settings option).isSome

end Options

/-- What a command line asks for. -/
structure Settings where
  help : Bool
  version : Bool
  debug : Bool
  strict : Bool
  noPlots : Bool
  noPdf : Bool
  outdir : String
  seed : Option String
  title : String
  author : String
  preamble : Option String
  starters : Option String
  transitions : Option String
  placeholders : Option String
  /-- the arguments that are no options -/
  inputs : List String

namespace Settings

/-- The directory for results if none is given. -/
def defaultOutdir : String := "output"

/-- The title of an article if none is given. -/
def defaultTitle : String := "On the Differentiation of a Certain Function"

/-- The author of an article if none is given. -/
def defaultAuthor : String := "difftex"

open Options in
/-- The settings that options and other arguments amount to. -/
def ofOptions (settings : List Setting) (inputs : List String) : Settings where
  help := (either? settings "help" 'h').isSome
  version := (either? settings "version" 'v').isSome
  debug := (either? settings "debug" 'd').isSome
  strict := isSet settings (long "strict")
  noPlots := isSet settings (long "noplot")
  noPdf := isSet settings (long "nopdf")
  outdir := (either? settings "outdir" 'o').getD defaultOutdir
  seed := either? settings "seed" 's'
  title := (either? settings "title" 't').getD defaultTitle
  author := (either? settings "author" 'a').getD defaultAuthor
  preamble := either? settings "preamble" 'p'
  starters := value? settings (long "starters")
  transitions := value? settings (long "transitions")
  placeholders := value? settings (long "placeholders")
  inputs

/-- The settings of a command line. -/
def parse (arguments : List String) : Except OptionError Settings := do
  let (settings, inputs) ← Options.parse arguments
  return ofOptions settings inputs

end Settings

end Fluxion

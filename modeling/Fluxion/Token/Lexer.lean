import Fluxion.Number.Arith
import Fluxion.Text.Blank
import Fluxion.Text.Decimal
import Fluxion.Token.Basic

/-!
# Fluxion.Token.Lexer

From text to tokens.

The kinds of lexemes form a list of alternatives, each a function that measures the lexeme of its
kind at the start of a text, zero if there is none; the first alternative that measures more than
zero wins (`lexeme?`).  White space is a lexeme that gives no token.  `tokenize` cuts the text into
lexemes from the front.

Command words are recognised in letters of either case, and so are the four letters outside ASCII
whose case forms are ASCII letters: the long s, the Kelvin sign, and the dotted and dotless i.
-/

namespace Fluxion

open Text

/-- Why a text has no tokens. -/
inductive LexError where
  /-- no lexeme begins with this character -/
  | invalidSymbol (c : Char) (pos : Nat)
  /-- a name is too long -/
  | longName (text : List Char) (pos : Nat)

/-- The longest name. -/
def maxNameLength : Nat := 32

/-- How much of a name that is too long is shown. -/
def shownNameLength : Nat := 16

namespace LexError

/-- The position of an error. -/
def pos : LexError → Nat
  | invalidSymbol _ p | longName _ p => p

/-- The text by which an error is reported. -/
def message : LexError → String
  | invalidSymbol c p => "invalid symbol " ++ quoted c.toString ++ " at position " ++ toString p
  | longName cs p =>
    "identifier " ++ quoted (String.ofList (cs.take shownNameLength)) ++ "... at position "
      ++ toString p ++ " is longer than " ++ toString maxNameLength ++ " characters"

end LexError

namespace Lexer

/-! ## letters -/

/-- Letters of names: those of ASCII and the four letters with a case form in ASCII. -/
def isLetter (c : Char) : Bool :=
  c.isAlpha || c == '\u0130' || c == '\u0131' || c == '\u017f' || c == '\u212a'

/-- A character is a case form of a small ASCII letter. -/
def isFormOf (letter c : Char) : Bool :=
  c.toLower == letter || (letter == 's' && c == '\u017f') || (letter == 'k' && c == '\u212a')
    || (letter == 'i' && (c == '\u0130' || c == '\u0131'))

/-- The small form of a character as function names are recorded: ASCII letters have one, the
dotted capital I is an i with a combining dot, all else stays as it is. -/
def lowered (c : Char) : List Char :=
  if c == '\u0130' then ['i', '\u0307'] else [c.toLower]

/-! ## measuring lexemes -/

/-- The text starts with a command word in some case. -/
def startsWith : List Char → List Char → Bool
  | [], _ => true
  | w :: word, c :: cs => isFormOf w c && startsWith word cs
  | _ :: _, [] => false

/-- The length of a command word if the text starts with it in some case. -/
def wordLength (word cs : List Char) : Nat := if startsWith word cs then word.length else 0

/-- The length of a single character. -/
def charLength (c : Char) : List Char → Nat
  | d :: _ => if d == c then 1 else 0
  | [] => 0

/-- The number of characters of white space at the start. -/
def blankLength (cs : List Char) : Nat := (cs.takeWhile isBlank).length

/-- The length of a bracket, which may follow a sizing word after white space. -/
def bracketLength (word : List Char) (bracket : Char) (cs : List Char) : Nat :=
  let w := wordLength word cs
  let b := blankLength (cs.drop w)
  if w != 0 && charLength bracket (cs.drop (w + b)) != 0 then w + b + 1 else charLength bracket cs

/-- The command words of the functions. -/
def functionWords : List (List Char) := Fn.all.map (fun f => '\\' :: f.name.toList)

/-- The length of a function's command word.  No such word begins with another, so their order does
not matter. -/
def functionLength (cs : List Char) : Nat :=
  (functionWords.map (wordLength · cs)).foldl max 0

/-- Characters that a name can go on with. -/
def continuesName (c : Char) : Bool := isLetter c || c == '_'

/-- The length of a name: letters and underscores, with a backslash allowed in front. -/
def nameLength : List Char → Nat
  | c :: cs => if continuesName c || c == '\\' then 1 + (cs.takeWhile continuesName).length else 0
  | [] => 0

/-! ## lexemes -/

/-- The kinds of lexemes. -/
inductive Kind where
  | number | openParen | closeParen | openCurly | closeCurly
  | plus | minus | caret | dot | fraction | function | name | blank
  deriving DecidableEq

/-- The alternatives in the order in which they are tried. -/
def alternatives : List (Kind × (List Char → Nat)) := [
  (.number, numberLength),
  (.openParen, bracketLength "\\left".toList '('),
  (.closeParen, bracketLength "\\right".toList ')'),
  (.openCurly, charLength '\x7b'),
  (.closeCurly, charLength '\x7d'),
  (.plus, charLength '+'),
  (.minus, charLength '-'),
  (.caret, charLength '^'),
  (.dot, wordLength "\\cdot".toList),
  (.fraction, wordLength "\\frac".toList),
  (.function, functionLength),
  (.name, nameLength),
  (.blank, blankLength)]

/-- The lexeme at the start of a text: its kind and its length, which is not zero. -/
def lexeme? (cs : List Char) : Option (Kind × Nat) :=
  alternatives.findSome? fun (kind, length) =>
    if length cs = 0 then none else some (kind, length cs)

/-- The symbol of a lexeme; white space has none. -/
def symbol? {α : Type} [Arith α] (text : List Char) : Kind → Option (Symbol α)
  | .number =>
    let (mantissa, exponent) := readNumber text
    some (.number (Arith.ofDecimal mantissa exponent))
  | .name => some (.name (String.ofList text))
  | .function => some (.function (String.ofList ((text.drop 1).flatMap lowered)))
  | .openParen => some .openParen
  | .closeParen => some .closeParen
  | .openCurly => some .openCurly
  | .closeCurly => some .closeCurly
  | .plus => some .plus
  | .minus => some .minus
  | .caret => some .caret
  | .dot => some .dot
  | .fraction => some .fraction
  | .blank => none

/-- The tokens of a text whose first character has a given position, and the position behind its
last character, where the cutting ends. -/
def scan {α : Type} [Arith α] (pos : Nat) : List Char → Except LexError (Tokens α)
  | [] => .ok ⟨[], pos⟩
  | c :: cs =>
    match lexeme? (c :: cs) with
    | none => .error (.invalidSymbol c pos)
    | some (kind, n) =>
      let text := (c :: cs).take n
      if kind = .name ∧ maxNameLength < n then .error (.longName text pos)
      else do
        let rest ← scan (pos + n) (cs.drop (n - 1))
        match symbol? text kind with
        | some symbol => .ok ⟨⟨symbol, String.ofList text, pos⟩ :: rest.tokens, rest.stop⟩
        | none => .ok rest
termination_by cs => cs.length
decreasing_by simp only [List.length_drop, List.length_cons]; omega

end Lexer

/-- The tokens of a text. -/
def tokenize {α : Type} [Arith α] (text : List Char) : Except LexError (Tokens α) :=
  Lexer.scan 0 text

end Fluxion

import Fluxion.Text.Printable

/-!
# Fluxion.Text.Quoted

Quoted texts, as messages and displayed trees show names and pieces of input.

A quoted text stands in single quotes, or in double quotes if it contains single ones
and no double ones.  Inside, the backslash, the enclosing quote and line ends are
written as escapes, and so is every character that does not show as itself.
-/

namespace Fluxion.Text

/-- A hexadecimal number of at least `width` digits. -/
def hex (width n : Nat) : List Char :=
  let ds := Nat.toDigits 16 n
  List.replicate (width - ds.length) '0' ++ ds

/-- The numbered escape of a character, as short as its code point allows. -/
def codeEscape (n : Nat) : List Char :=
  if n < 0x100 then '\\' :: 'x' :: hex 2 n
  else if n < 0x10000 then '\\' :: 'u' :: hex 4 n
  else '\\' :: 'U' :: hex 8 n

/-- A character inside quotes of the given kind. -/
def escaped (quote c : Char) : List Char :=
  if c == quote || c == '\\' then ['\\', c]
  else if c == '\n' then ['\\', 'n']
  else if c == '\r' then ['\\', 'r']
  else if c == '\t' then ['\\', 't']
  else if isPrintable c then [c]
  else codeEscape c.toNat

/-- The quote that encloses a text. -/
def quoteFor (cs : List Char) : Char :=
  if cs.contains '\x27' && !cs.contains '\x22' then '\x22' else '\x27'

/-- A text in quotes. -/
def quotedChars (cs : List Char) : List Char :=
  let quote := quoteFor cs
  quote :: (cs.flatMap (escaped quote) ++ [quote])

/-- A text in quotes. -/
def quoted (s : String) : String := String.ofList (quotedChars s.toList)

/-- Several quoted texts, with commas between them. -/
def quotedList (names : List String) : String := ", ".intercalate (names.map quoted)

end Fluxion.Text

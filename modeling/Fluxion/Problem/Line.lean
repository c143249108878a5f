import Fluxion.Text.Blank
import Fluxion.Text.Decimal

/-!
# Fluxion.Problem.Line

Patterns for the lines of a problem file.

A pattern takes what it matches from the front of a line and answers the rest, or nothing.  None
of the patterns needs to go back: each takes as much as it can.
-/

namespace Fluxion

open Text

/-- A pattern that answers a part of what it matches. -/
abbrev Pattern (β : Type) := StateT (List Char) Option β

namespace Pattern

/-- The rest of a text after its first characters, if it starts with them. -/
def after? (word cs : List Char) : Option (List Char) :=
  if word.isPrefixOf cs then some (cs.drop word.length) else none

/-- These characters. -/
def word (s : String) : Pattern Unit := fun cs => (after? s.toList cs).map ((), ·)

/-- White space, or none. -/
def blanks : Pattern Unit := fun cs => some ((), trimStart cs)

/-- White space. -/
def gap : Pattern Unit := fun cs =>
  match cs with
  | c :: r => if isBlank c then some ((), trimStart r) else none
  | [] => none

/-- Characters up to one of those given. -/
def upTo (stops : List Char) : Pattern (List Char) := fun cs =>
  some (cs.takeWhile (!stops.contains ·), cs.dropWhile (!stops.contains ·))

/-- A character that may be missing. -/
def optional (c : Char) : Pattern Unit := fun cs =>
  match cs with
  | d :: r => if d = c then some ((), r) else some ((), d :: r)
  | [] => some ((), [])

/-- An optional sign and what a measure finds after it, as text. -/
def signed (length : List Char → Nat) : Pattern (List Char) := fun cs =>
  let s := signLength cs
  let n := length (cs.drop s)
  if n = 0 then none else some (cs.take (s + n), cs.drop (s + n))

/-- A decimal number with an optional sign. -/
def number : Pattern (List Char) := signed numberLength

/-- A whole number with an optional sign. -/
def whole : Pattern (List Char) := signed digitsLength

/-- What a pattern answers for a line that it matches as a whole. -/
def matchAll {β : Type} (p : Pattern β) (line : List Char) : Option β :=
  match p line with
  | some (b, []) => some b
  | _ => none

end Pattern

end Fluxion

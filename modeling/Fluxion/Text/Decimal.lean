import Fluxion.Text.Digit

/-!
# Fluxion.Text.Decimal

Unsigned decimal numbers at the start of a text: digits with a point among or before
them, and an exponent.

A number is found by its length (`numberLength`, zero if there is none) and read as a
natural number times a power of ten (`readNumber`); nothing is rounded here.
-/

namespace Fluxion.Text

/-- The number of digits at the start. -/
def digitsLength (cs : List Char) : Nat := (cs.takeWhile isDigit).length

/-- The length of digits with an optional point, of which some digit is required. -/
def mantissaLength (cs : List Char) : Nat :=
  match digitsLength cs, cs.drop (digitsLength cs) with
  | 0, '.' :: r => if digitsLength r = 0 then 0 else digitsLength r + 1
  | 0, _ => 0
  | n + 1, '.' :: r => n + 1 + 1 + digitsLength r
  | n + 1, _ => n + 1

/-- The letter that introduces an exponent. -/
def isExponentMark (c : Char) : Bool := c == 'e' || c == 'E'

/-- A sign before digits. -/
def isSign (c : Char) : Bool := c == '+' || c == '-'

/-- The length of an optional sign. -/
def signLength : List Char → Nat
  | c :: _ => if isSign c then 1 else 0
  | [] => 0

/-- The length of an exponent, zero if it has no digits. -/
def exponentLength : List Char → Nat
  | c :: r =>
    let s := signLength r
    let n := digitsLength (r.drop s)
    if isExponentMark c && n != 0 then 1 + s + n else 0
  | [] => 0

/-- The length of an unsigned decimal number, zero if the text does not start with one. -/
def numberLength (cs : List Char) : Nat :=
  let n := mantissaLength cs
  if n = 0 then 0 else n + exponentLength (cs.drop n)

/-- A whole number with an optional sign. -/
def readInt (cs : List Char) : Int :=
  match cs with
  | '-' :: r => -(digitsValue r : Int)
  | '+' :: r => digitsValue r
  | r => digitsValue r

/-- The mantissa and the decimal exponent of the number that a text of that form stands for. -/
def readNumber (cs : List Char) : Nat × Int :=
  let mantissa := cs.takeWhile (fun c => !isExponentMark c)
  let fraction := (mantissa.dropWhile isDigit).drop 1
  let exponent := (cs.dropWhile (fun c => !isExponentMark c)).drop 1
  (digitsValue (mantissa.filter isDigit), readInt exponent - fraction.length)

example : readNumber "12.50e-3".toList = (1250, -5) := by decide

end Fluxion.Text

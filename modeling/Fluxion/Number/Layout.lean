import Fluxion.Number.Decimal

/-!
# Fluxion.Number.Layout

How the digits of a number are set out as text: how many digits, where
positional notation ends, and whether a whole number keeps a fraction.

All layouts share the rest: exponents below `-4` are written in scientific notation,
an exponent has a sign and at least two digits, zeros at the end are dropped, and a
negative sign also stands before zero.
-/

namespace Fluxion

/-- A layout of numbers. -/
structure Layout where
  /-- the number of significant digits; the fewest that read back if there is none -/
  digits : Option Nat
  /-- decimal exponents from here on are written in scientific notation -/
  positionalBelow : Int
  /-- a whole number in positional notation ends in `.0` -/
  keepFraction : Bool

namespace Layout

/-- All digits that matter: the text reads back as the same number. -/
def exact : Layout := ⟨none, 16, true⟩

/-- A given number of significant digits. -/
def general (digits : Nat) : Layout := ⟨some digits, digits, false⟩

/-- Digits with a point after the first one. -/
def pointed : List Char → List Char
  | [] => []
  | [d] => [d]
  | d :: ds => d :: '.' :: ds

/-- A sign and at least two digits. -/
def exponentText (e : Int) : List Char :=
  let ds := Nat.toDigits 10 e.natAbs
  (if e < 0 then '-' else '+') :: (if ds.length < 2 then '0' :: ds else ds)

/-- Digits with the point where the exponent puts it. -/
def positional (keepFraction : Bool) (ds : List Char) : Int → List Char
  | .ofNat e =>
    let whole := ds.take (e + 1) ++ List.replicate (e + 1 - ds.length) '0'
    let fraction := ds.drop (e + 1)
    if fraction.isEmpty then whole ++ (if keepFraction then ['.', '0'] else [])
    else whole ++ '.' :: fraction
  | .negSucc e => '0' :: '.' :: (List.replicate e '0' ++ ds)

/-- The text of a magnitude, given by its digits. -/
def unsigned (l : Layout) (d : Digits) : List Char :=
  if -4 ≤ d.exponent ∧ d.exponent < l.positionalBelow then
    positional l.keepFraction d.significant d.exponent
  else pointed d.significant ++ 'e' :: exponentText d.exponent

/-- The digits that a layout writes of a number of that magnitude. -/
def digitsOf (l : Layout) (v : Float) (m : Magnitude) : Digits :=
  match l.digits with
  | some n => .rounded n m
  | none => .shortest v m

/-- The sign bit, which zero has too. -/
def isSigned (v : Float) : Bool := decide (Nat.pow 2 63 ≤ v.toBits.toNat)

/-- The text of a number. -/
def write (l : Layout) (v : Float) : String :=
  if v.isNaN then "nan"
  else
    let sign := if isSigned v then "-" else ""
    match Magnitude.ofFloat? v with
    | none => sign ++ "inf"
    | some m => sign ++ String.ofList (l.unsigned (l.digitsOf v.abs m))

end Layout

end Fluxion

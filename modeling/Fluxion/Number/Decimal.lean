import Fluxion.Number.Binary64

/-!
# Fluxion.Number.Decimal

Decimal digits of a double precision number, in exact arithmetic on naturals.

* `Magnitude.ofFloat?`: the exact value of a finite number as a fraction;
* `Digits.rounded`: its first `n` significant digits, correctly rounded;
* `Digits.shortest`: the fewest digits that read back as the same number, and of
  those the ones nearest to it.
-/

namespace Fluxion

/-- The exact magnitude of a finite number: a numerator over a power of two. -/
structure Magnitude where
  num : Nat
  den : Nat

/-- The magnitude of a finite number; there is none of infinities and undefined numbers.
The fraction field holds 52 bits; an exponent field of zero marks the numbers without a leading
bit. -/
def Magnitude.ofFloat? (v : Float) : Option Magnitude :=
  if v.isFinite then
    let bits := v.toBits.toNat
    let fraction := bits % Nat.pow 2 52
    let exponent := bits / Nat.pow 2 52 % Nat.pow 2 11
    let m := if exponent = 0 then fraction else fraction + Nat.pow 2 52
    let q : Int := (max exponent 1 : Nat) - 1075
    match q with
    | .ofNat k => some ⟨m * Nat.pow 2 k, 1⟩
    | .negSucc k => some ⟨m, Nat.pow 2 (k + 1)⟩
  else none

/-- Decimal digits `d₁d₂…dₖ`, read as the number `d₁.d₂…dₖ · 10 ^ exponent`. -/
structure Digits where
  /-- the digits as one natural number -/
  value : Nat
  exponent : Int

/-- How many decimal digits a natural number has. -/
def decimalLength (n : Nat) : Nat := (Nat.toDigits 10 n).length

/-- A quotient rounded to the nearest natural number, the even one of two. -/
def roundDiv (num den : Nat) : Nat :=
  let q := num / den
  let r := num % den
  if 2 * r < den then q
  else if den < 2 * r then q + 1
  else q + q % 2

namespace Magnitude

/-- The exponent of the first significant digit of a magnitude above zero. -/
def exponent10 (v : Magnitude) : Int :=
  if v.den ≤ v.num then (decimalLength (v.num / v.den) : Int) - 1
  else -(decimalLength ((v.den + v.num - 1) / v.num - 1) : Int)

/-- The magnitude times a power of ten. -/
def scale (v : Magnitude) : Int → Magnitude
  | .ofNat k => ⟨v.num * Nat.pow 10 k, v.den⟩
  | .negSucc k => ⟨v.num, v.den * Nat.pow 10 (k + 1)⟩

end Magnitude

namespace Digits

/-- Digits of a given number `n` of places, after a step up from `99…9` to `100…0` has been
undone. -/
def normal (n : Nat) (value : Nat) (exponent : Int) : Digits :=
  if value = Nat.pow 10 n then ⟨Nat.pow 10 (n - 1), exponent + 1⟩ else ⟨value, exponent⟩

/-- The first `n` significant digits of a magnitude, rounded. -/
def rounded (n : Nat) (v : Magnitude) : Digits :=
  if v.num = 0 then ⟨0, 0⟩
  else
    let e := v.exponent10
    let s := v.scale ((n : Int) - 1 - e)
    normal n (roundDiv s.num s.den) e

/-- The double precision number nearest to `value · 10 ^ (exponent - (n - 1))`. -/
def read (n : Nat) (value : Nat) (exponent : Int) : Float :=
  Binary64.ofDecimal value (exponent - ((n : Int) - 1))

/-- The `n` digits nearest to a magnitude among the two neighbours on the grid that read back as
`target`, if any does.  The nearer neighbour alone would not do: beside a power of two the numbers
lie closer together on one side than on the other. -/
def readingBack? (target : Float) (v : Magnitude) (n : Nat) : Option Digits :=
  let e := v.exponent10
  let s := v.scale ((n : Int) - 1 - e)
  let nearer := roundDiv s.num s.den
  let below := s.num / s.den
  let farther := if nearer = below then below + 1 else below
  if read n nearer e == target then some (normal n nearer e)
  else if read n farther e == target then some (normal n farther e)
  else none

/-- Every finite number is told from its neighbours by this many digits. -/
def enough : Nat := 17

/-- The fewest digits that read back as `target`, the number of magnitude `v`. -/
def shortest (target : Float) (v : Magnitude) : Digits :=
  if v.num = 0 then ⟨0, 0⟩
  else
    match (List.range enough).findSome? (fun k => readingBack? target v (k + 1)) with
    | some d => d
    | none => rounded enough v

/-- The digits without zeros at the end, as characters; at least one digit is kept. -/
def significant (d : Digits) : List Char :=
  let cs := ((Nat.toDigits 10 d.value).reverse.dropWhile (· == '0')).reverse
  if cs.isEmpty then ['0'] else cs

end Digits

end Fluxion

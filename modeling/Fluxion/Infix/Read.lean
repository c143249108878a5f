import Fluxion.Infix.Basic
import Fluxion.Text.Blank
import Fluxion.Text.Decimal

/-!
# Fluxion.Infix.Read

Reading infix notation.

A text is cut into tokens, and these are read from left to right.  An operation whose second operand
is still to come waits on a stack, and so does a bracket that is open.  Once an operand is complete,
the operations in wait take it as far as they bind at least as tightly as the sign that follows.
From the loosest to the tightest these are sums and differences, products and quotients, negation,
and powers; powers group to the right, all else to the left.

* `Infix.tokens`: the tokens of a text;
* `Infix.assemble`: the expression of tokens;
* `Infix.read`: both in turn.
-/

namespace Fluxion

namespace Infix

open Text

/-! ## tokens -/

/-- A token of infix notation. -/
inductive Token where
  | number (mantissa : Nat) (exponent : Int)
  | name (text : String)
  | sign (op : BinOp)
  | openParen
  | closeParen
  deriving DecidableEq

/-- Characters that a name begins with. -/
def startsName (c : Char) : Bool := c.isAlpha || c == '_'

/-- Characters that a name goes on with. -/
def continuesName (c : Char) : Bool := c.isAlphanum || c == '_'

/-- The token and the length of a lexeme that is no number.  White space has no token. -/
def wordOrSign : List Char → Option (Option Token × Nat)
  | '*' :: '*' :: _ => some (some (.sign .pow), 2)
  | '*' :: _ => some (some (.sign .mul), 1)
  | '/' :: _ => some (some (.sign .div), 1)
  | '+' :: _ => some (some (.sign .add), 1)
  | '-' :: _ => some (some (.sign .sub), 1)
  | '(' :: _ => some (some .openParen, 1)
  | ')' :: _ => some (some .closeParen, 1)
  | c :: cs =>
    if startsName c then
      let rest := cs.takeWhile continuesName
      some (some (.name (String.ofList (c :: rest))), rest.length + 1)
    else if isBlank c then some (none, 1)
    else none
  | [] => none

/-- The token and the length of the lexeme at the start of a text. -/
def lexeme? (cs : List Char) : Option (Option Token × Nat) :=
  let n := numberLength cs
  if n = 0 then wordOrSign cs
  else
    let (mantissa, exponent) := readNumber (cs.take n)
    some (some (.number mantissa exponent), n)

/-- The tokens of a text after so many characters of it. -/
def tokensAfter : Nat → List Char → Option (List Token)
  | _, [] => some []
  | n + 1, _ :: cs => tokensAfter n cs
  | 0, c :: cs => do
    let (token, n) ← lexeme? (c :: cs)
    return token.toList ++ (← tokensAfter (n - 1) cs)

/-- The tokens of a text, if it has no other characters. -/
def tokens (cs : List Char) : Option (List Token) := tokensAfter 0 cs

/-! ## expressions -/

/-- What waits for the end of an operand. -/
inductive Waiting where
  /-- an operation and its first operand -/
  | bin (op : BinOp) (left : Infix)
  | neg
  /-- a bracket, which may hold the argument of a function -/
  | bracket (fn : Option Fn)

/-- How tightly an operation binds its operands. -/
def strength : BinOp → Nat
  | .add | .sub => 1
  | .mul | .div => 2
  | .pow => 4

/-- How tightly negation binds its operand. -/
def negStrength : Nat := 3

/-- What binds at least as tightly as this takes an operand in front of a sign.  No power does so in
front of another, and therefore powers group to the right. -/
def taking : BinOp → Nat
  | .pow => 5
  | op => strength op

/-- An operand goes to the operations in wait that bind at least that tightly. -/
def settle (least : Nat) (a : Infix) : List Waiting → Infix × List Waiting
  | .bin op b :: ws => if least ≤ strength op then settle least (.bin op b a) ws
    else (a, .bin op b :: ws)
  | .neg :: ws => if least ≤ negStrength then settle least (.neg a) ws else (a, .neg :: ws)
  | ws => (a, ws)

/-- A name that is not followed by a bracket. -/
def named (x : String) : Infix := if x = piName then .pi else .var x

/-- What a bracket holds. -/
def applied : Option Fn → Infix → Infix
  | some f, a => .call f a
  | none, a => a

/-- Read tokens after an operand, or where one is due. -/
def assemble : Option Infix → List Waiting → List Token → Option Infix
  | none, ws, .number mantissa exponent :: ts => assemble (some (.number mantissa exponent)) ws ts
  | none, ws, .name x :: ts =>
    match function? x, ts with
    | some f, .openParen :: ts => assemble none (.bracket (some f) :: ws) ts
    | _, ts => assemble (some (named x)) ws ts
  | none, ws, .sign .sub :: ts => assemble none (.neg :: ws) ts
  | none, ws, .openParen :: ts => assemble none (.bracket none :: ws) ts
  | some a, ws, .sign op :: ts =>
    let (b, ws) := settle (taking op) a ws
    assemble none (.bin op b :: ws) ts
  | some a, ws, .closeParen :: ts =>
    match settle 0 a ws with
    | (b, .bracket f :: ws) => assemble (some (applied f b)) ws ts
    | _ => none
  | some a, ws, [] =>
    match settle 0 a ws with
    | (b, []) => some b
    | _ => none
  | _, _, _ => none

/-- The expression that a text stands for. -/
def read (text : String) : Option Infix := do assemble none [] (← tokens text.toList)

example : read "2*x**-y + a" =
    some (.bin .add (.bin .mul (.number 2 0) (.bin .pow (.var "x") (.neg (.var "y"))))
      (.var "a")) := by decide

example : read "-x**2**3 - 1/tan(pi)" =
    some (.bin .sub (.neg (.bin .pow (.var "x") (.bin .pow (.number 2 0) (.number 3 0))))
      (.bin .div (.number 1 0) (.call .tan .pi))) := by decide

end Infix

end Fluxion

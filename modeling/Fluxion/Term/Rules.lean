import Fluxion.Term.Basic
import Fluxion.Term.Diagnostic

/-!
# Fluxion.Term.Rules

The rules of simplification, for a node whose operands are simplified already.

Operations on numbers are carried out, negations move outwards, neutral and absorbing operands go,
equal operands are collapsed, and functions are replaced by their values at a few points.  Of the
rules that apply to a node the first in that order does.

* `Term.fold`: operations on numbers;
* `Term.hoistNeg?`, `Term.identity`, `Term.collapse?`, `Term.negBase`: the rules of binary nodes;
* `Term.reduceNum`, `Term.reduceBin`, `Term.reduceNeg`, `Term.reduceApp`: what becomes of each kind
  of node, none if it stays;
* `untilSettled`: passes over a whole term until one changes nothing.
-/

namespace Fluxion

/-- The largest number of passes. -/
def maxPasses : Nat := 64

/-- A pass repeated until it changes nothing, but at most so many times, and whether the last one
changed nothing. -/
def untilSettled {ν ε β : Type} (pass : β → Noted ν ε (β × Bool)) :
    Nat → β → Noted ν ε (β × Bool)
  | 0, b => return (b, false)
  | n + 1, b => do
    let (b, changed) ← pass b
    if changed then untilSettled pass n b else return (b, true)

namespace Term

variable {α β : Type} [Arith α] [Term α β]

/-! ## binary nodes -/

/-- The operation on two numbers, unless it has no finite result. -/
def fold (s : Strictness) (op : BinOp) (left right : β) (a b : α) :
    Simplifying α β (Option β) :=
  if op = .pow ∧ Arith.isZero a ∧ Arith.negative b then do
    s.report (.zeroPower (bin .pow left right))
    return none
  else
    match op.compute a b with
    | .error .divisionByZero => do
      s.report (.zeroQuotient a b)
      return none
    | .error f => do
      s.report (.noValue op a b f)
      return none
    | .ok v =>
      if Arith.finite v then return some (literal (Arith.add v Arith.zero))
      else do
        s.report (.notFinite op a b)
        return none

/-- Negations in a sum or product move outwards or disappear. -/
def hoistNeg? (op : BinOp) (a b : β) : Option β :=
  match op, view a, view b with
  | .add, .negation x, .negation y => some (neg (bin .add x y))
  | .sub, .negation x, .negation y => some (neg (bin .sub x y))
  | .add, _, .negation y => some (bin .sub a y)
  | .sub, _, .negation y => some (bin .add a y)
  | .add, .negation x, _ => some (bin .sub b x)
  | .sub, .negation x, _ => some (neg (bin .add x b))
  | .mul, .negation x, .negation y => some (bin .mul x y)
  | .div, .negation x, .negation y => some (bin .div x y)
  | .mul, .negation x, _ => some (neg (bin .mul x b))
  | .div, .negation x, _ => some (neg (bin .div x b))
  | .mul, _, .negation y => some (neg (bin .mul a y))
  | .div, _, .negation y => some (neg (bin .div a y))
  | _, _, _ => none

/-- Operands that are zero or one leave the other operand or a number.  A division by zero is
reported; zero to the power of a negation is left alone. -/
def identity (s : Strictness) (op : BinOp) (a b : β) : Simplifying α β (Option β) :=
  match op with
  | .add =>
    if nearZero b then return some a
    else if nearZero a then return some b
    else return none
  | .sub =>
    if nearZero b then return some a
    else if nearZero a then return some (neg b)
    else return none
  | .mul =>
    if nearZero a || nearZero b then return some (num Arith.zero)
    else if nearOne b then return some a
    else if nearOne a then return some b
    else return none
  | .div =>
    if nearZero b then do
      s.report (.zeroDivisor (bin .div a b))
      return none
    else if nearZero a then return some (num Arith.zero)
    else if nearOne b then return some a
    else return none
  | .pow =>
    if nearZero b then return some (num Arith.one)
    else if nearOne b then return some a
    else if nearOne a then return some (num Arith.one)
    else if nearZero a && !isNeg b then return some (num Arith.zero)
    else return none

/-- Equal operands are counted. -/
def collapse? (op : BinOp) (a b : β) : Option β :=
  if same a b then
    match op with
    | .add => some (bin .mul (num Arith.two) a)
    | .sub => some (num Arith.zero)
    | .mul => some (bin .pow a (num Arith.two))
    | .div => some (num Arith.one)
    | .pow => none
  else none

/-- A whole power of a negation. -/
def negBase (op : BinOp) (a b : β) : Simplifying α β (Option β) :=
  match op, view a, view b with
  | .pow, .negation x, .number n =>
    match Arith.parity Arith.tolerance n with
    | .ok none => return none
    | .ok (some .even) => return some (bin .pow x b)
    | .ok (some .odd) => return some (neg (bin .pow x b))
    | .error f => .fail (.fault f)
  | _, _, _ => return none

/-- The rules of binary nodes, the first that applies. -/
def reduceBin (s : Strictness) (op : BinOp) (a b : β) : Simplifying α β (Option β) :=
  match literal? a, literal? b with
  | some v, some w => fold s op a b v w
  | _, _ =>
    match hoistNeg? op a b with
    | some t => return some t
    | none => do
      match ← identity s op a b with
      | some t => return some t
      | none =>
        match collapse? op a b with
        | some t => return some t
        | none => negBase op a b

/-! ## other nodes -/

/-- A number below zero becomes a negation. -/
def reduceNum (v : α) : Option β :=
  if Arith.negative v then some (literal (Arith.add v Arith.zero)) else none

/-- Two negations cancel, and so does the negation of zero. -/
def reduceNeg (a : β) : Option β :=
  match view a with
  | .negation x => some x
  | _ => if nearZero a then some (num Arith.zero) else none

/-- Functions that are zero at zero. -/
def zeroAtZero : Fn → Bool
  | .sin | .tan | .arcsin | .arctan | .sqrt => true
  | _ => false

/-- Odd functions.  The inverse cotangent is not odd, its values lie between zero and a
half-circle. -/
def isOdd : Fn → Bool
  | .sin | .tan | .cot | .arcsin | .arctan => true
  | _ => false

/-- Functions at zero, at one, and of negations. -/
def reduceApp (s : Strictness) (f : Fn) (a : β) : Simplifying α β (Option β) :=
  if nearZero a then
    if zeroAtZero f then return some (num Arith.zero)
    else
      match f with
      | .cos => return some (num Arith.one)
      | .ln => do
        s.report .zeroLogarithm
        return none
      | .cot => do
        s.report .zeroCotangent
        return none
      | _ => return none
  else if nearOne a then
    match f with
    | .ln => return some (num Arith.zero)
    | .sqrt => return some (num Arith.one)
    | _ => return none
  else
    match view a with
    | .negation x =>
      if f = .cos then return some (app f x)
      else if isOdd f then return some (neg (app f x))
      else return none
    | _ => return none

end Term

end Fluxion

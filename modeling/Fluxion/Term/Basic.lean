import Fluxion.BinOp

/-!
# Fluxion.Term.Basic

What the rules of calculus and simplification need to know of an expression.

A rule looks at its operands one level deep: whether they are numbers or negations, and whether they
are equal.  What else they are does not matter to it, and it puts them into its result as they are.
So the rules are written for every type of terms, and hold for expressions (`Fluxion.Expr.Basic`) as
well as for what stands below the nodes of a store (`Fluxion.Store.Sketch`).

Numbers of a term that has been read or computed are never below zero; a negative value is the
negation of a number (`Term.literal`, `Term.literal?`).  Nothing stops a term from being built
otherwise, and simplification restores that form.
-/

namespace Fluxion

/-- A term as a rule sees it. -/
inductive View (α β : Type) where
  | number (v : α)
  | negation (arg : β)
  | other

/-- Terms `β` over numbers `α`. -/
class Term (α : outParam Type) (β : Type) where
  num : α → β
  bin : BinOp → β → β → β
  neg : β → β
  app : Fn → β → β
  view : β → View α β
  /-- Equality of shape, with numbers compared as numbers: a number that is undefined differs from
  itself, and zero does not have a sign. -/
  same : β → β → Bool

namespace Term

variable {α β : Type} [Term α β]

/-- A negation. -/
def isNeg (t : β) : Bool :=
  match view t with
  | .negation _ => true
  | _ => false

/-- The value of a number. -/
def number? (t : β) : Option α :=
  match view t with
  | .number v => some v
  | _ => none

variable [Arith α]

/-- The term of a number: negative numbers, and those that compare with nothing, are written as a
negation. -/
def literal (v : α) : β := if Arith.nonneg v then num v else neg (num (Arith.neg v))

/-- The value of a number or of a negated number. -/
def literal? (t : β) : Option α :=
  match view t with
  | .number v => some v
  | .negation a => (number? a).map Arith.neg
  | .other => none

/-- A number within the tolerance of `w`. -/
def isNear (w : α) (t : β) : Bool :=
  match view t with
  | .number v => Arith.near v w
  | _ => false

/-- A number within the tolerance of zero. -/
def nearZero (t : β) : Bool := isNear Arith.zero t

/-- A number within the tolerance of one. -/
def nearOne (t : β) : Bool := isNear Arith.one t

end Term

end Fluxion

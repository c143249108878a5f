/-!
# Fluxion.Names

The table of variable names of a formula: distinct names in the order in which they were
first used, at most `maxNames` of them.
-/

namespace Fluxion

/-- The largest number of variables of a formula. -/
def maxNames : Nat := 16

/-- A name was refused because the table is full. -/
structure NamesFull where
  deriving DecidableEq

/-- The text by which a full table is reported. -/
def NamesFull.message (_ : NamesFull) : String :=
  "too many variables, maximum is " ++ toString maxNames

/-- Variable names in the order of their first use. -/
abbrev Names := List String

namespace Names

/-- The table with a name in it; a name that is there already stays where it is. -/
def add (names : Names) (x : String) : Except NamesFull Names :=
  if names.contains x then .ok names
  else if maxNames ≤ names.length then .error ⟨⟩
  else .ok (names ++ [x])

theorem add_eq_self {names : Names} {x : String} (h : names.contains x = true) :
    names.add x = .ok names := by
  simp only [add, h, if_true]

end Names

end Fluxion

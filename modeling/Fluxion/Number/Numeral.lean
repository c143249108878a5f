import Fluxion.Number.Layout

/-!
# Fluxion.Number.Numeral

The texts of a number that the library writes.  Diagnostics, rendered formulas and
the display of expression trees each have their own; a class names them, so that
whatever is said of a text holds for every way of writing numbers.
-/

namespace Fluxion

/-- Numbers that can be written. -/
class Numeral (α : Type) where
  /-- all digits that matter -/
  exact : α → String
  /-- twelve significant digits, as in a rendered formula -/
  twelve : α → String
  /-- six significant digits, as in a message -/
  brief : α → String

instance : Numeral Float where
  exact := Layout.exact.write
  twelve := (Layout.general 12).write
  brief := (Layout.general 6).write

end Fluxion

/-!
# Fluxion.Text.Blank

White space, and cutting it off the ends of a text.

Blank are the characters that separate words or lines in Unicode text together with the
four information separators among the control characters.  Around a number the separators do not
count as white space.
-/

namespace Fluxion.Text

/-- Tabs, line ends, and every Unicode space. -/
def isSpace (c : Char) : Bool :=
  let n := c.toNat
  (9 ≤ n && n ≤ 13) || n == 0x20 || n == 0x85 || n == 0xa0 || n == 0x1680
    || (0x2000 ≤ n && n ≤ 0x200a) || n == 0x2028 || n == 0x2029 || n == 0x202f || n == 0x205f
    || n == 0x3000

/-- The separators of files, groups, records and units among the control characters. -/
def isSeparator (c : Char) : Bool := 0x1c ≤ c.toNat && c.toNat ≤ 0x1f

/-- White space of any kind. -/
def isBlank (c : Char) : Bool := isSpace c || isSeparator c

/-- Drop characters of a kind at the end. -/
def dropEnd (p : Char → Bool) (cs : List Char) : List Char := (cs.reverse.dropWhile p).reverse

/-- Drop characters of a kind at both ends. -/
def strip (p : Char → Bool) (cs : List Char) : List Char := dropEnd p (cs.dropWhile p)

/-- Drop white space at the start. -/
def trimStart (cs : List Char) : List Char := cs.dropWhile isBlank

/-- Drop white space at both ends. -/
def trim (cs : List Char) : List Char := strip isBlank cs

end Fluxion.Text

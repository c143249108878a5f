import Fluxion.Text.Blank
import Fluxion.Text.Decimal
import Fluxion.Text.Quoted

/-!
# Fluxion.Text.Integer

Whole numbers written as such: an optional sign and digits, between which single underscores may
stand; spaces around them do not count, but separators do.
-/

namespace Fluxion.Text

/-- Digits with single underscores between them; `afterDigit` says that a digit came before. -/
def isGroupedDigits (afterDigit : Bool) : List Char → Bool
  | [] => afterDigit
  | c :: cs =>
    if isDigit c then isGroupedDigits true cs
    else c == '_' && afterDigit && isGroupedDigits false cs

/-- Why a text is no whole number. -/
inductive IntegerError where
  | invalid (text : String)
  | tooManyDigits (count : Nat)

/-- The largest number of digits of a whole number. -/
def maxDigits : Nat := 4300

/-- How much of an invalid number is shown, quotes included. -/
def shownIntegerLength : Nat := 200

/-- The text by which an error is reported. -/
def IntegerError.message : IntegerError → String
  | invalid text =>
    "invalid literal for int() with base 10: "
      ++ String.ofList ((quotedChars text.toList).take shownIntegerLength)
  | tooManyDigits n =>
    "Exceeds the limit (" ++ toString maxDigits
      ++ " digits) for integer string conversion: value has " ++ toString n
      ++ " digits; use sys.set_int_max_str_digits() to increase the limit"

/-- The whole number that a text stands for.  Digits are grouped and counted up to the first other
character, so a number that is too long is reported as such whatever comes after it. -/
def integer (text : String) : Except IntegerError Int :=
  let cs := strip isSpace text.toList
  let unsigned := cs.drop (signLength cs)
  let run := unsigned.takeWhile fun c => isDigit c || c == '_'
  let digits := run.filter isDigit
  if !isGroupedDigits false run then .error (.invalid text)
  else if maxDigits < digits.length then .error (.tooManyDigits digits.length)
  else if run.length < unsigned.length then .error (.invalid text)
  else .ok (if cs.head? = some '-' then -digitsValue digits else digitsValue digits)

end Fluxion.Text

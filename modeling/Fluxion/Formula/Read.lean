import Fluxion.Formula.Basic
import Fluxion.Formula.Phrase
import Fluxion.Token.Lexer

/-!
# Fluxion.Formula.Read

Reading text as a formula.

The grammar says what expression the tokens make up (`Expr.ofTokens`); apart from that, a formula
has at most `maxNames` variables.  Of a mistake in the grammar and a name too many, the one that
comes first in the text is reported.
-/

namespace Fluxion

open Text

/-- Why a text is no formula. -/
inductive ReadError where
  | lexical (e : LexError)
  | grammar (e : GrammarError)
  /-- the first name that has no place in the table of variables -/
  | namesFull (e : NamesFull) (text : String) (pos : Nat)

/-- The text by which an error is reported. -/
def ReadError.message : ReadError → String
  | lexical e => e.message
  | grammar e => e.message
  | namesFull e text pos => e.message ++ " at " ++ quoted text ++ " position " ++ toString pos

namespace Formula

variable {α : Type}

/-- The table of the names among tokens, unless there are too many of them. -/
def namesOf (names : Names) : List (Token α) → Except ReadError Names
  | [] => .ok names
  | t :: ts =>
    match t.symbol with
    | .name x =>
      match names.add x with
      | .ok names => namesOf names ts
      | .error e => .error (.namesFull e t.text t.pos)
    | _ => namesOf names ts

/-- The formula of tokens.  Only the tokens that were taken before a mistake can have filled the
table of names. -/
def ofTokens (ts : Tokens α) : Except ReadError (Formula α) :=
  match Expr.ofTokens ts with
  | .ok root => do return ⟨root, ← namesOf [] ts.tokens⟩
  | .error fault => do
    let _ ← namesOf [] (ts.tokens.take (ts.tokens.length - fault.unread))
    .error (.grammar fault.error)

/-- The formula that a text stands for. -/
def read [Arith α] (text : String) : Except ReadError (Formula α) := do
  let tokens ← (tokenize text.toList).mapError .lexical
  ofTokens tokens

end Formula

end Fluxion

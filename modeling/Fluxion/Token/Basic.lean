import Fluxion.Text.Quoted

/-!
# Fluxion.Token.Basic

The tokens of formula text.

A token is a symbol together with the piece of text it was read from and its position.
The end of the text is no token: a tokenized text is its tokens and the position where
the text ends.
-/

namespace Fluxion

/-- What a token stands for. -/
inductive Symbol (α : Type) where
  | number (val : α)
  | name (text : String)
  | function (text : String)
  | openParen | closeParen
  | openCurly | closeCurly
  | plus | minus | caret | dot | fraction

namespace Symbol

variable {α : Type}

/-- The name of a kind of token in listings. -/
def kind : Symbol α → String
  | number _ => "NUM"
  | name _ => "VAR"
  | function _ => "FUNC"
  | openParen => "PARENL" | closeParen => "PARENR"
  | openCurly => "CURLYL" | closeCurly => "CURLYR"
  | plus => "PLUS" | minus => "MINUS" | caret => "CARET" | dot => "CDOT" | fraction => "FRAC"

/-- Brackets that end a group. -/
def isCloser : Symbol α → Bool
  | closeParen | closeCurly => true
  | _ => false

end Symbol

/-- The kind under which the end of a text is listed. -/
def endKind : String := "$end"

/-- A symbol with its text and the position where it starts. -/
structure Token (α : Type) where
  symbol : Symbol α
  text : String
  pos : Nat

/-- The tokens of a text and the position of its end. -/
structure Tokens (α : Type) where
  tokens : List (Token α)
  stop : Nat

/-- The kinds of all tokens, with the end. -/
def Tokens.kinds {α : Type} (ts : Tokens α) : List String :=
  ts.tokens.map (·.symbol.kind) ++ [endKind]

end Fluxion

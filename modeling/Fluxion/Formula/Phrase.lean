import Fluxion.Expr.Build
import Fluxion.Token.Basic

/-!
# Fluxion.Formula.Phrase

Reading tokens as an expression.

```
sum      = product (('+' | '-') product)*
product  = unary ('\cdot' unary)*
unary    = '-' unary | function unary | '\frac' '{' sum '}' '{' sum '}' | power
power    = group ['^' power]
group    = '(' sum ')' | '{' sum '}' | number | name
```

Sums, differences and products associate to the left and powers to the right; a sign or a function
takes the shortest operand, so `-a \cdot b` is a product and `-a^b` a negated power.

Each rule of the grammar is a function that reads a phrase from the front of the tokens.  A `Phrase`
carries the proof that the tokens it leaves are fewer, which is what lets the rules call each other.
A mistake is reported at the first token that no sentence of the grammar could have there, and the
number of tokens from it on is kept with the error.
-/

namespace Fluxion

open Text

/-- A token named in a message, or the end of the text, with its position. -/
structure Place where
  /-- the text of the token, none at the end -/
  text : Option String
  pos : Nat

namespace Place

/-- The place of a token. -/
def ofToken {α : Type} (t : Token α) : Place := ⟨some t.text, t.pos⟩

/-- The place of the first token, or of the end. -/
def first {α : Type} (stop : Nat) : List (Token α) → Place
  | [] => ⟨none, stop⟩
  | t :: _ => ofToken t

/-- The token in quotes. -/
def describe (p : Place) : String :=
  match p.text with
  | some s => quoted s
  | none => "end of input"

/-- The token in quotes and where it stands. -/
def located (p : Place) : String := p.describe ++ " at position " ++ toString p.pos

end Place

/-- The two kinds of brackets. -/
inductive Bracket where
  | paren | curly
  deriving DecidableEq

namespace Bracket

/-- The sign of an opening bracket, in quotes. -/
def opener : Bracket → String
  | paren => "'('"
  | curly => "'\x7b'"

/-- The sign of a closing bracket, in quotes. -/
def closer : Bracket → String
  | paren => "')'"
  | curly => "'\x7d'"

/-- The bracket that a symbol opens. -/
def openedBy? {α : Type} : Symbol α → Option Bracket
  | .openParen => some paren
  | .openCurly => some curly
  | _ => none

/-- The bracket that a symbol closes. -/
def closedBy? {α : Type} : Symbol α → Option Bracket
  | .closeParen => some paren
  | .closeCurly => some curly
  | _ => none

end Bracket

/-- Why tokens are no expression. -/
inductive GrammarError where
  /-- a closing bracket that nothing opened -/
  | unmatched (found : Place)
  /-- another token than the bracket that closes a group -/
  | unclosed (bracket : Bracket) (opening found : Place)
  /-- tokens after the end of the expression -/
  | trailing (found : Place)
  /-- another token than the opening bracket of a fraction's part -/
  | noBracket (bracket : Bracket) (found : Place)
  /-- a token that begins no operand -/
  | noOperand (found : Place)
  /-- a command word that only looks like a function's name -/
  | noFunction (name : String)

/-- The text by which an error is reported. -/
def GrammarError.message : GrammarError → String
  | unmatched p => "unmatched " ++ p.located
  | unclosed b o p =>
    "expecting " ++ b.closer ++ " to close " ++ o.located ++ ", got " ++ p.located
  | trailing p => "trailing input " ++ p.located
  | noBracket b p => "expecting " ++ b.opener ++ ", got " ++ p.located
  | noOperand p => "unexpected " ++ p.located ++ ", expecting number, variable or group"
  | noFunction name => (BuildError.notUnary name).message

/-- An error and how many tokens had not been taken when it was found. -/
structure GrammarFault where
  error : GrammarError
  unread : Nat

/-- An expression read from the front of fewer than `n` tokens, and the tokens that it leaves. -/
structure Phrase (α : Type) (n : Nat) where
  expr : Expr α
  rest : List (Token α)
  shorter : rest.length < n

namespace Phrase

variable {α : Type}

/-- The sum or difference that a sign stands for. -/
def additive? : Symbol α → Option BinOp
  | .plus => some .add
  | .minus => some .sub
  | _ => none

/-- The closing bracket of a group that was opened at a place. -/
def close (stop : Nat) (bracket : Bracket) (opening : Place) {n : Nat} (p : Phrase α n) :
    Except GrammarFault (Phrase α n) :=
  match h : p.rest with
  | t :: rest =>
    if Bracket.closedBy? t.symbol = some bracket then
      .ok ⟨p.expr, rest, by have := p.shorter; simp [h] at this; omega⟩
    else .error ⟨.unclosed bracket opening (.ofToken t), p.rest.length⟩
  | [] => .error ⟨.unclosed bracket opening ⟨none, stop⟩, 0⟩

/-- A number or a name. -/
def atom (stop : Nat) (ts : List (Token α)) : Except GrammarFault (Phrase α ts.length) :=
  match ts with
  | [] => .error ⟨.noOperand ⟨none, stop⟩, 0⟩
  | t :: rest =>
    match t.symbol with
    | .number v => .ok ⟨.num v, rest, by simp⟩
    | .name x => .ok ⟨.var x, rest, by simp⟩
    | symbol =>
      if symbol.isCloser then .error ⟨.unmatched (.ofToken t), rest.length + 1⟩
      else .error ⟨.noOperand (.ofToken t), rest.length + 1⟩

mutual

/-- Products joined by signs. -/
def sum (stop : Nat) (ts : List (Token α)) : Except GrammarFault (Phrase α ts.length) := do
  let p ← product stop ts
  have := p.shorter
  let q ← sumTail stop p.expr p.rest
  return ⟨q.expr, q.rest, by have := q.shorter; omega⟩
termination_by (ts.length, 5)

/-- The signs and products after the first product. -/
def sumTail (stop : Nat) (left : Expr α) (ts : List (Token α)) :
    Except GrammarFault (Phrase α (ts.length + 1)) :=
  match ts with
  | [] => .ok ⟨left, [], by simp⟩
  | t :: rest =>
    match additive? t.symbol with
    | none => .ok ⟨left, t :: rest, by simp⟩
    | some op => do
      let p ← product stop rest
      have := p.shorter
      let q ← sumTail stop (.bin op left p.expr) p.rest
      return ⟨q.expr, q.rest, by have := q.shorter; simp only [List.length_cons]; omega⟩
termination_by (ts.length, 0)

/-- Operands joined by multiplication signs. -/
def product (stop : Nat) (ts : List (Token α)) : Except GrammarFault (Phrase α ts.length) := do
  let p ← unary stop ts
  have := p.shorter
  let q ← productTail stop p.expr p.rest
  return ⟨q.expr, q.rest, by have := q.shorter; omega⟩
termination_by (ts.length, 4)

/-- The multiplication signs and operands after the first operand. -/
def productTail (stop : Nat) (left : Expr α) (ts : List (Token α)) :
    Except GrammarFault (Phrase α (ts.length + 1)) :=
  match ts with
  | [] => .ok ⟨left, [], by simp⟩
  | t :: rest =>
    match t.symbol with
    | .dot => do
      let p ← unary stop rest
      have := p.shorter
      let q ← productTail stop (.bin .mul left p.expr) p.rest
      return ⟨q.expr, q.rest, by have := q.shorter; simp only [List.length_cons]; omega⟩
    | _ => .ok ⟨left, t :: rest, by simp⟩
termination_by (ts.length, 0)

/-- A negation, a function of an operand, a fraction or a power. -/
def unary (stop : Nat) (ts : List (Token α)) : Except GrammarFault (Phrase α ts.length) :=
  match ts with
  | [] => power stop []
  | t :: rest =>
    match t.symbol with
    | .minus => do
      let p ← unary stop rest
      return ⟨.neg p.expr, p.rest, Nat.lt_succ_of_lt p.shorter⟩
    | .function name => do
      let p ← unary stop rest
      match Fn.ofName? name with
      | some f => return ⟨.app f p.expr, p.rest, Nat.lt_succ_of_lt p.shorter⟩
      | none => .error ⟨.noFunction name, p.rest.length⟩
    | .fraction => do
      let p ← fractionPart stop rest
      have := p.shorter
      let q ← fractionPart stop p.rest
      return ⟨.bin .div p.expr q.expr, q.rest,
        Nat.lt_succ_of_lt (Nat.lt_trans q.shorter p.shorter)⟩
    | _ => power stop (t :: rest)
termination_by (ts.length, 3)

/-- A numerator or denominator in curly brackets. -/
def fractionPart (stop : Nat) (ts : List (Token α)) : Except GrammarFault (Phrase α ts.length) :=
  match ts with
  | [] => .error ⟨.noBracket .curly ⟨none, stop⟩, 0⟩
  | t :: rest =>
    match t.symbol with
    | .openCurly => do
      let p ← sum stop rest
      let q ← close stop .curly (.ofToken t) p
      return ⟨q.expr, q.rest, by have := q.shorter; simp only [List.length_cons]; omega⟩
    | _ => .error ⟨.noBracket .curly (.ofToken t), rest.length + 1⟩
termination_by (ts.length, 0)

/-- A group with an optional exponent. -/
def power (stop : Nat) (ts : List (Token α)) : Except GrammarFault (Phrase α ts.length) := do
  let p ← group stop ts
  match h : p.rest with
  | [] => return p
  | t :: rest =>
    match t.symbol with
    | .caret =>
      have hlt : rest.length + 1 < ts.length := by have := p.shorter; simpa [h] using this
      let q ← power stop rest
      return ⟨.bin .pow p.expr q.expr, q.rest, by have := q.shorter; omega⟩
    | _ => return p
termination_by (ts.length, 2)

/-- An expression in brackets, a number or a name. -/
def group (stop : Nat) (ts : List (Token α)) : Except GrammarFault (Phrase α ts.length) :=
  match ts with
  | [] => atom stop []
  | t :: rest =>
    match Bracket.openedBy? t.symbol with
    | some bracket => do
      let p ← sum stop rest
      let q ← close stop bracket (.ofToken t) p
      return ⟨q.expr, q.rest, by have := q.shorter; simp only [List.length_cons]; omega⟩
    | none => atom stop (t :: rest)
termination_by (ts.length, 1)

end

end Phrase

/-- The expression that all tokens of a text make up. -/
def Expr.ofTokens {α : Type} (ts : Tokens α) : Except GrammarFault (Expr α) := do
  let p ← Phrase.sum ts.stop ts.tokens
  match p.rest with
  | [] => return p.expr
  | t :: rest =>
    if t.symbol.isCloser then .error ⟨.unmatched (.ofToken t), rest.length + 1⟩
    else .error ⟨.trailing (.ofToken t), rest.length + 1⟩

end Fluxion

import Fluxion.Proofs.Expr.Regroup
import Fluxion.Proofs.Formula.Grammar

/-!
# Fluxion.Proofs.Expr.Symbols

The symbols of the text of an expression, and their derivation.

Brackets stand where the text has them.  A sum is derived by the products of its operands one after
another, which is why the operand on the right of a plus sign loses its own grouping; the same
goes for products.

* `Expr.yield_derivation`: the symbols are derived;
* `Expr.denote_derivation`: what the derivation denotes is the expression, regrouped.
-/

namespace Fluxion.Expr

open Grammar

variable {α : Type}

/-- A number or a variable. -/
def isLeaf : Expr α → Bool
  | num _ | var _ => true
  | _ => false

/-! ## symbols -/

/-- Symbols in brackets. -/
def enclosed (b : Bracket) (l : List (Symbol α)) : List (Symbol α) :=
  b.opening :: (l ++ [b.closing])

/-- Symbols in round brackets if they are called for. -/
def enclosedIf (brackets : Bool) (l : List (Symbol α)) : List (Symbol α) :=
  if brackets then enclosed .paren l else l

/-- The symbols of the text of an expression. -/
def spelling : Expr α → List (Symbol α)
  | num v => [.number v]
  | var x => [.name x]
  | bin .add a b => a.spelling ++ .plus :: b.spelling
  | bin .sub a b => a.spelling ++ .minus :: enclosedIf b.isAdditive b.spelling
  | bin .mul a b =>
    enclosedIf a.isAdditive a.spelling ++ .dot :: enclosedIf b.isAdditive b.spelling
  | bin .div a b => .fraction :: (enclosed .curly a.spelling ++ enclosed .curly b.spelling)
  | bin .pow a b => enclosedIf (!a.isLeaf) a.spelling ++ .caret :: enclosed .curly b.spelling
  | neg a => .minus :: enclosedIf a.isLoose a.spelling
  | app f a =>
    .function f.name ::
      if f = .sqrt then enclosed .curly a.spelling else enclosedIf a.isLoose a.spelling

/-! ## derivations -/

/-- A sum of one product. -/
def ofProduct (p : Product α) : Grammar.Sum α := ⟨p, .nil⟩

/-- A product of one operand. -/
def ofUnary (u : Unary α) : Product α := ⟨u, .nil⟩

/-- An operand that is a group. -/
def ofGroup (g : Grammar.Group α) : Unary α := .fraction (.power (.base g))

/-- The first product of a sum. -/
def firstProduct : Grammar.Sum α → Product α
  | ⟨p, _⟩ => p

/-- The first operand of a product. -/
def firstUnary : Product α → Unary α
  | ⟨u, _⟩ => u

/-- Signs and products after others. -/
def appendSums : SumTail α → SumTail α → SumTail α
  | .nil, u => u
  | .cons s p t, u => .cons s p (appendSums t u)

/-- Operands of a product after others. -/
def appendProducts : ProductTail α → ProductTail α → ProductTail α
  | .nil, w => w
  | .cons u t, w => .cons u (appendProducts t w)

/-- Two sums joined by a sign. -/
def joinSums (s : Sign) : Grammar.Sum α → Grammar.Sum α → Grammar.Sum α
  | ⟨p, t⟩, ⟨q, u⟩ => ⟨p, appendSums t (.cons s q u)⟩

/-- Two products joined. -/
def joinProducts : Product α → Product α → Product α
  | ⟨u, t⟩, ⟨v, w⟩ => ⟨u, appendProducts t (.cons v w)⟩

/-- An expression as an operand of a product, from its derivation. -/
def asFactor (e : Expr α) (s : Grammar.Sum α) : Product α :=
  if e.isAdditive then ofUnary (ofGroup (.bracket .paren s)) else firstProduct s

/-- An expression after a sign or a function, from its derivation. -/
def asOperand (e : Expr α) (s : Grammar.Sum α) : Unary α :=
  if e.isLoose then ofGroup (.bracket .paren s) else firstUnary (firstProduct s)

/-- An expression as the base of a power, from its derivation. -/
def asBase (e : Expr α) (s : Grammar.Sum α) : Grammar.Group α :=
  match e with
  | num v => .atom (.number v)
  | var x => .atom (.name x)
  | _ => .bracket .paren s

/-- The derivation of the symbols of an expression. -/
def derivation : Expr α → Grammar.Sum α
  | num v => ofProduct (ofUnary (ofGroup (.atom (.number v))))
  | var x => ofProduct (ofUnary (ofGroup (.atom (.name x))))
  | bin .add a b => joinSums .plus a.derivation b.derivation
  | bin .sub a b => joinSums .minus a.derivation (ofProduct (b.asFactor b.derivation))
  | bin .mul a b => ofProduct (joinProducts (a.asFactor a.derivation) (b.asFactor b.derivation))
  | bin .div a b => ofProduct (ofUnary (.fraction (.parts a.derivation b.derivation)))
  | bin .pow a b =>
    ofProduct (ofUnary (.fraction (.power
      (.exponent (a.asBase a.derivation) (.base (.bracket .curly b.derivation))))))
  | neg a => ofProduct (ofUnary (.negation (a.asOperand a.derivation)))
  | app f a =>
    ofProduct (ofUnary (.function f
      (if f = .sqrt then ofGroup (.bracket .curly a.derivation) else a.asOperand a.derivation)))

/-! ## what is derived -/

/-- What is neither a sum nor a difference is derived as one product. -/
theorem derivation_of_not_isAdditive {e : Expr α} (h : e.isAdditive = false) :
    e.derivation = ofProduct (firstProduct e.derivation) := by
  cases e with
  | num v => rfl
  | var x => rfl
  | bin op a b =>
      cases op with
      | add | sub => exact nomatch h
      | mul | div | pow => rfl
  | neg a => rfl
  | app f a => rfl

/-- What is neither a sum nor a product is derived as one factor. -/
theorem derivation_of_not_isLoose {e : Expr α} (h : e.isLoose = false) :
    e.derivation = ofProduct (ofUnary (firstUnary (firstProduct e.derivation))) := by
  cases e with
  | num v => rfl
  | var x => rfl
  | bin op a b =>
      cases op with
      | add | sub | mul => exact nomatch h
      | div | pow => rfl
  | neg a => rfl
  | app f a => rfl

theorem yield_ofProduct (p : Product α) : (ofProduct p).yield = p.yield := by
  rw [ofProduct, Sum.yield, SumTail.yield, List.append_nil]

theorem yield_ofUnary (u : Unary α) : (ofUnary u).yield = u.yield := by
  rw [ofUnary, Product.yield, ProductTail.yield, List.append_nil]

theorem yield_ofGroup (g : Grammar.Group α) : (ofGroup g).yield = g.yield := by
  rw [ofGroup, Unary.yield, Fraction.yield, Power.yield]

theorem yield_bracket (b : Bracket) (s : Grammar.Sum α) :
    (Group.bracket b s).yield = enclosed b s.yield := by
  rw [Group.yield, enclosed]

/-- Terms one after the other spell what they spell. -/
theorem yield_appendSums (t u : SumTail α) : (appendSums t u).yield = t.yield ++ u.yield := by
  match t with
  | .nil => rw [appendSums, SumTail.yield, List.nil_append]
  | .cons s p t =>
      rw [appendSums, SumTail.yield, SumTail.yield, yield_appendSums t u, List.cons_append,
        List.append_assoc]

/-- Factors one after the other spell what they spell. -/
theorem yield_appendProducts (t w : ProductTail α) :
    (appendProducts t w).yield = t.yield ++ w.yield := by
  match t with
  | .nil => rw [appendProducts, ProductTail.yield, List.nil_append]
  | .cons u t =>
      rw [appendProducts, ProductTail.yield, ProductTail.yield, yield_appendProducts t w,
        List.cons_append, List.append_assoc]

/-- Joined sums are spelled with the sign between them. -/
theorem yield_joinSums (s : Sign) (a b : Grammar.Sum α) :
    (joinSums s a b).yield = a.yield ++ s.symbol :: b.yield := by
  obtain ⟨p, t⟩ := a
  obtain ⟨q, u⟩ := b
  rw [joinSums, Sum.yield, Sum.yield, Sum.yield, yield_appendSums, SumTail.yield,
    List.append_assoc]

/-- Joined products are spelled with a dot between them. -/
theorem yield_joinProducts (a b : Product α) :
    (joinProducts a b).yield = a.yield ++ .dot :: b.yield := by
  obtain ⟨u, t⟩ := a
  obtain ⟨v, w⟩ := b
  rw [joinProducts, Product.yield, Product.yield, Product.yield, yield_appendProducts,
    ProductTail.yield, List.append_assoc]

section

variable {e : Expr α} (h : e.derivation.yield = e.spelling)

include h

/-- A factor is spelled in brackets if it is a sum or a difference. -/
theorem yield_asFactor : (e.asFactor e.derivation).yield = enclosedIf e.isAdditive e.spelling := by
  unfold asFactor enclosedIf
  cases ha : e.isAdditive with
  | true => rw [if_pos rfl, if_pos rfl, yield_ofUnary, yield_ofGroup, yield_bracket, h]
  | false =>
      rw [derivation_of_not_isAdditive ha, yield_ofProduct] at h
      exact h

/-- An operand is spelled in brackets if it is a sum, a difference or a product. -/
theorem yield_asOperand : (e.asOperand e.derivation).yield = enclosedIf e.isLoose e.spelling := by
  unfold asOperand enclosedIf
  cases hl : e.isLoose with
  | true => rw [if_pos rfl, if_pos rfl, yield_ofGroup, yield_bracket, h]
  | false =>
      rw [derivation_of_not_isLoose hl, yield_ofProduct, yield_ofUnary] at h
      exact h

/-- The base of a power is spelled in brackets unless it is a leaf. -/
theorem yield_asBase : (e.asBase e.derivation).yield = enclosedIf (!e.isLeaf) e.spelling := by
  have hbracket : (Group.bracket .paren e.derivation).yield = enclosed .paren e.spelling := by
    rw [yield_bracket, h]
  cases e with
  | num v => rfl
  | var x => rfl
  | bin | neg | app => exact hbracket

end

/-- The symbols of an expression have a derivation. -/
theorem yield_derivation (e : Expr α) : e.derivation.yield = e.spelling := by
  induction e with
  | num v => rfl
  | var x => rfl
  | bin op a b iha ihb =>
      cases op with
      | add => rw [derivation, spelling, yield_joinSums, iha, ihb, Sign.symbol]
      | sub =>
          rw [derivation, spelling, yield_joinSums, yield_ofProduct, yield_asFactor ihb, iha,
            Sign.symbol]
      | mul =>
          rw [derivation, spelling, yield_ofProduct, yield_joinProducts, yield_asFactor iha,
            yield_asFactor ihb]
      | div =>
          rw [derivation, spelling, yield_ofProduct, yield_ofUnary, Unary.yield, Fraction.yield, iha,
            ihb]
          simp [enclosed, Bracket.opening, Bracket.closing]
      | pow =>
          rw [derivation, spelling, yield_ofProduct, yield_ofUnary, Unary.yield, Fraction.yield,
            Power.yield, Power.yield, yield_asBase iha, yield_bracket, ihb]
  | neg a ih =>
      rw [derivation, spelling, yield_ofProduct, yield_ofUnary, Unary.yield, yield_asOperand ih]
  | app f a ih =>
      rw [derivation, spelling, yield_ofProduct, yield_ofUnary, Unary.yield]
      by_cases hf : f = .sqrt
      · rw [if_pos hf, if_pos hf, yield_ofGroup, yield_bracket, ih]
      · rw [if_neg hf, if_neg hf, yield_asOperand ih]

/-! ## what is denoted -/

theorem denote_ofProduct (p : Product α) : (ofProduct p).denote = p.denote := by
  rw [ofProduct, Sum.denote, SumTail.denote]

theorem denote_ofUnary (u : Unary α) : (ofUnary u).denote = u.denote := by
  rw [ofUnary, Product.denote, ProductTail.denote]

theorem denote_bracket (b : Bracket) (s : Grammar.Sum α) :
    (ofGroup (.bracket b s)).denote = s.denote := by
  rw [ofGroup, Unary.denote, Fraction.denote, Power.denote, Group.denote]

/-- Terms one after the other are added one after the other. -/
theorem denote_appendSums (t u : SumTail α) (left : Expr α) :
    (appendSums t u).denote left = u.denote (t.denote left) := by
  match t with
  | .nil => rw [appendSums, SumTail.denote]
  | .cons s p t => rw [appendSums, SumTail.denote, SumTail.denote, denote_appendSums t u]

/-- Factors one after the other are multiplied one after the other. -/
theorem denote_appendProducts (t w : ProductTail α) (left : Expr α) :
    (appendProducts t w).denote left = w.denote (t.denote left) := by
  match t with
  | .nil => rw [appendProducts, ProductTail.denote]
  | .cons u t =>
      rw [appendProducts, ProductTail.denote, ProductTail.denote, denote_appendProducts t w]

/-- What follows the first product may be added before or after it is combined with more. -/
theorem addLeft_denote (left x : Expr α) (u : SumTail α) :
    addLeft left (u.denote x) = u.denote (addLeft left x) := by
  match u with
  | .nil => rw [SumTail.denote, SumTail.denote]
  | .cons s p u =>
      rw [SumTail.denote, SumTail.denote, addLeft_denote left _ u]
      cases s <;> rfl

/-- A factor from the left goes to the first of the factors. -/
theorem mulLeft_denote (left x : Expr α) (w : ProductTail α) :
    mulLeft left (w.denote x) = w.denote (mulLeft left x) := by
  match w with
  | .nil => rw [ProductTail.denote, ProductTail.denote]
  | .cons v w =>
      rw [ProductTail.denote, ProductTail.denote, mulLeft_denote left _ w]
      rfl

/-- A sum with another one behind it is that of all their terms. -/
theorem denote_joinSums_plus {a b : Grammar.Sum α}
    (hb : (firstProduct b).denote.isAdditive = false) :
    (joinSums .plus a b).denote = addLeft a.denote b.denote := by
  obtain ⟨p, t⟩ := a
  obtain ⟨q, u⟩ := b
  have hq : q.denote.isAdditive = false := hb
  rw [joinSums, Sum.denote, Sum.denote, Sum.denote, denote_appendSums, SumTail.denote,
    addLeft_denote, addLeft_of_not hq]
  rfl

/-- A product is subtracted from a sum as a whole. -/
theorem denote_joinSums_minus (a : Grammar.Sum α) (p : Product α) :
    (joinSums .minus a (ofProduct p)).denote = bin .sub a.denote p.denote := by
  obtain ⟨q, t⟩ := a
  rw [ofProduct, joinSums, Sum.denote, Sum.denote, denote_appendSums, SumTail.denote,
    SumTail.denote]
  rfl

/-- A product with another one behind it is that of all their factors. -/
theorem denote_joinProducts {a b : Product α} (hb : (firstUnary b).denote.isProduct = false) :
    (joinProducts a b).denote = mulLeft a.denote b.denote := by
  obtain ⟨u, t⟩ := a
  obtain ⟨v, w⟩ := b
  have hv : v.denote.isProduct = false := hb
  rw [joinProducts, Product.denote, Product.denote, Product.denote, denote_appendProducts,
    ProductTail.denote, mulLeft_denote, mulLeft_of_not hv]

/-! ## the operands of sums and products -/

/-- Factors that follow do not make a sum. -/
theorem isAdditive_denote_tail (t : ProductTail α) {left : Expr α} (h : left.isAdditive = false) :
    (t.denote left).isAdditive = false := by
  match t with
  | .nil =>
      rw [ProductTail.denote]
      exact h
  | .cons u t =>
      rw [ProductTail.denote]
      exact isAdditive_denote_tail t rfl

/-- Terms that follow do not make a product. -/
theorem isProduct_denote_tail (t : SumTail α) {left : Expr α} (h : left.isProduct = false) :
    (t.denote left).isProduct = false := by
  match t with
  | .nil =>
      rw [SumTail.denote]
      exact h
  | .cons s p t =>
      rw [SumTail.denote]
      exact isProduct_denote_tail t (by cases s <;> rfl)

/-- Joined products are not sums. -/
theorem isAdditive_denote_joinProducts (a b : Product α) :
    (joinProducts a b).denote.isAdditive = false := by
  obtain ⟨u, t⟩ := a
  obtain ⟨v, w⟩ := b
  rw [joinProducts, Product.denote, denote_appendProducts, ProductTail.denote]
  exact isAdditive_denote_tail w rfl

/-- Joined sums are not products. -/
theorem isProduct_denote_joinSums (s : Sign) (a b : Grammar.Sum α) :
    (joinSums s a b).denote.isProduct = false := by
  obtain ⟨p, t⟩ := a
  obtain ⟨q, u⟩ := b
  rw [joinSums, Sum.denote, denote_appendSums, SumTail.denote]
  exact isProduct_denote_tail u (by cases s <;> rfl)

/-- The first term of joined sums is that of the left one. -/
theorem firstProduct_joinSums (s : Sign) (a b : Grammar.Sum α) :
    firstProduct (joinSums s a b) = firstProduct a := by
  obtain ⟨p, t⟩ := a
  obtain ⟨q, u⟩ := b
  rfl

/-- The first factor of joined products is that of the left one. -/
theorem firstUnary_joinProducts (a b : Product α) :
    firstUnary (joinProducts a b) = firstUnary a := by
  obtain ⟨u, t⟩ := a
  obtain ⟨v, w⟩ := b
  rfl

/-- The products of a sum are no sums. -/
theorem isAdditive_firstProduct (e : Expr α) :
    (firstProduct e.derivation).denote.isAdditive = false := by
  induction e with
  | num v => rfl
  | var x => rfl
  | bin op a b iha ihb =>
      cases op with
      | add | sub =>
          rw [derivation, firstProduct_joinSums]
          exact iha
      | mul => exact isAdditive_denote_joinProducts _ _
      | div | pow => rfl
  | neg a ih => rfl
  | app f a ih => rfl

/-- The operands of a product are no products. -/
theorem isProduct_firstUnary (e : Expr α) :
    (firstUnary (e.asFactor e.derivation)).denote.isProduct = false := by
  induction e with
  | num v => rfl
  | var x => rfl
  | bin op a b iha ihb =>
      cases op with
      | add | sub => exact isProduct_denote_joinSums _ _ _
      | mul =>
          have hfirst : firstUnary ((bin .mul a b).asFactor (bin .mul a b).derivation) =
              firstUnary (a.asFactor a.derivation) := firstUnary_joinProducts _ _
          rw [hfirst]
          exact iha
      | div | pow => rfl
  | neg a ih => rfl
  | app f a ih => rfl

/-! ## regrouping -/

section

variable {e r : Expr α} (h : e.derivation.denote = r)

include h

/-- Brackets around a factor change nothing of what it denotes. -/
theorem denote_asFactor : (e.asFactor e.derivation).denote = r := by
  unfold asFactor
  cases ha : e.isAdditive with
  | true => rw [if_pos rfl, denote_ofUnary, denote_bracket, h]
  | false =>
      rw [derivation_of_not_isAdditive ha, denote_ofProduct] at h
      exact h

/-- Brackets around an operand change nothing of what it denotes. -/
theorem denote_asOperand : (e.asOperand e.derivation).denote = r := by
  unfold asOperand
  cases hl : e.isLoose with
  | true => rw [if_pos rfl, denote_bracket, h]
  | false =>
      rw [derivation_of_not_isLoose hl, denote_ofProduct, denote_ofUnary] at h
      exact h

/-- Brackets around a base change nothing of what it denotes. -/
theorem denote_asBase : (e.asBase e.derivation).denote = r := by
  cases e with
  | num v => exact h
  | var x => exact h
  | bin | neg | app => exact h

end

/-- The derivation denotes the regrouped expression. -/
theorem denote_derivation (e : Expr α) : e.derivation.denote = e.regroup := by
  induction e with
  | num v => rfl
  | var x => rfl
  | bin op a b iha ihb =>
      cases op with
      | add =>
          rw [derivation, regroup, denote_joinSums_plus (isAdditive_firstProduct b), iha, ihb]
      | sub =>
          rw [derivation, denote_joinSums_minus, denote_asFactor ihb, iha]
          rfl
      | mul =>
          rw [derivation, regroup, denote_ofProduct, denote_joinProducts (isProduct_firstUnary b),
            denote_asFactor iha, denote_asFactor ihb]
      | div =>
          rw [derivation, denote_ofProduct, denote_ofUnary, Unary.denote, Fraction.denote, iha, ihb]
          rfl
      | pow =>
          rw [derivation, denote_ofProduct, denote_ofUnary, Unary.denote, Fraction.denote,
            Power.denote, Power.denote, denote_asBase iha, Group.denote, ihb]
          rfl
  | neg a ih =>
      rw [derivation, denote_ofProduct, denote_ofUnary, Unary.denote, denote_asOperand ih]
      rfl
  | app f a ih =>
      rw [derivation, denote_ofProduct, denote_ofUnary, Unary.denote]
      by_cases hf : f = .sqrt
      · rw [if_pos hf, denote_bracket, ih]
        rfl
      · rw [if_neg hf, denote_asOperand ih]
        rfl

end Fluxion.Expr

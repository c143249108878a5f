import Mathlib
import Fluxion.Formula.Phrase

/-!
# Fluxion.Proofs.Formula.Grammar

The grammar of formulas, as the type of its derivations.

```
sum      = product (('+' | '-') product)*
product  = unary ('\cdot' unary)*
unary    = '-' unary | function unary | fraction
fraction = '\frac' '{' sum '}' '{' sum '}' | power
power    = group ['^' power]
group    = '(' sum ')' | '{' sum '}' | atom
atom     = number | name
```

A derivation knows the symbols it derives (`Sum.yield`) and the expression they stand for
(`Sum.denote`).  Nothing here speaks of how tokens are read.

* `Sum.yield_inj`: the grammar is unambiguous, even in front of further symbols, as long as these do
  not continue the phrase.
-/

namespace Fluxion

variable {α : Type}

/-! ## symbols of tokens -/

/-- The symbols of tokens. -/
def symbols (ts : List (Token α)) : List (Symbol α) := ts.map (·.symbol)

@[simp] theorem symbols_nil : symbols ([] : List (Token α)) = [] := rfl

@[simp] theorem symbols_cons (t : Token α) (ts : List (Token α)) :
    symbols (t :: ts) = t.symbol :: symbols ts := rfl

theorem symbols_append (ts us : List (Token α)) : symbols (ts ++ us) = symbols ts ++ symbols us :=
  List.map_append

/-- Tokens whose symbols have a first one have a first token. -/
theorem symbols_eq_cons {ts : List (Token α)} {s : Symbol α} {l : List (Symbol α)}
    (h : symbols ts = s :: l) :
    ∃ t rest, ts = t :: rest ∧ t.symbol = s ∧ symbols rest = l := by
  cases ts with
  | nil => exact nomatch h
  | cons t rest =>
      obtain ⟨hs, hl⟩ := List.cons.inj h
      exact ⟨t, rest, rfl, hs, hl⟩

/-! ## brackets -/

namespace Bracket

/-- The symbol of an opening bracket. -/
def opening : Bracket → Symbol α
  | paren => .openParen
  | curly => .openCurly

/-- The symbol of a closing bracket. -/
def closing : Bracket → Symbol α
  | paren => .closeParen
  | curly => .closeCurly

/-- A symbol opens the brackets of which it is the opening one, and no others. -/
theorem openedBy?_eq_some {s : Symbol α} {b : Bracket} :
    openedBy? s = some b ↔ s = b.opening := by
  cases s <;> cases b <;> simp [openedBy?, opening]

/-- A symbol closes the brackets of which it is the closing one, and no others. -/
theorem closedBy?_eq_some {s : Symbol α} {b : Bracket} :
    closedBy? s = some b ↔ s = b.closing := by
  cases s <;> cases b <;> simp [closedBy?, closing]

/-- Brackets differ in how they are opened. -/
theorem opening_inj {b c : Bracket} (h : (b.opening : Symbol α) = c.opening) : b = c := by
  cases b <;> cases c <;> simp [opening] at h ⊢

end Bracket

namespace Grammar

/-! ## derivations -/

/-- The signs that join products. -/
inductive Sign where
  | plus | minus

/-- `atom = number | name` -/
inductive Atom (α : Type) where
  | number (v : α)
  | name (x : String)

mutual

/-- `sum = product (('+' | '-') product)*` -/
inductive Sum (α : Type) where
  | mk (first : Product α) (more : SumTail α)

/-- The signs and products after the first product. -/
inductive SumTail (α : Type) where
  | nil
  | cons (sign : Sign) (next : Product α) (more : SumTail α)

/-- `product = unary ('\cdot' unary)*` -/
inductive Product (α : Type) where
  | mk (first : Unary α) (more : ProductTail α)

/-- The multiplication signs and operands after the first operand. -/
inductive ProductTail (α : Type) where
  | nil
  | cons (next : Unary α) (more : ProductTail α)

/-- `unary = '-' unary | function unary | fraction` -/
inductive Unary (α : Type) where
  | negation (u : Unary α)
  | function (f : Fn) (u : Unary α)
  | fraction (q : Fraction α)

/-- `fraction = '\frac' '{' sum '}' '{' sum '}' | power` -/
inductive Fraction (α : Type) where
  | parts (num den : Sum α)
  | power (p : Power α)

/-- `power = group ['^' power]` -/
inductive Power (α : Type) where
  | base (g : Group α)
  | exponent (g : Group α) (p : Power α)

/-- `group = '(' sum ')' | '{' sum '}' | atom` -/
inductive Group (α : Type) where
  | bracket (b : Bracket) (s : Sum α)
  | atom (a : Atom α)

end

/-! ## what a derivation derives -/

/-- The symbol of a sign. -/
def Sign.symbol : Sign → Symbol α
  | plus => .plus
  | minus => .minus

/-- The operation of a sign. -/
def Sign.op : Sign → BinOp
  | plus => .add
  | minus => .sub

/-- The symbol of an atom. -/
def Atom.symbol : Atom α → Symbol α
  | number v => .number v
  | name x => .name x

/-- The expression of an atom. -/
def Atom.denote : Atom α → Expr α
  | number v => .num v
  | name x => .var x

mutual

/-- The symbols of a sum. -/
def Sum.yield : Sum α → List (Symbol α)
  | ⟨p, t⟩ => p.yield ++ t.yield

/-- The symbols after the first product. -/
def SumTail.yield : SumTail α → List (Symbol α)
  | .nil => []
  | .cons s p t => s.symbol :: (p.yield ++ t.yield)

/-- The symbols of a product. -/
def Product.yield : Product α → List (Symbol α)
  | ⟨u, t⟩ => u.yield ++ t.yield

/-- The symbols after the first operand. -/
def ProductTail.yield : ProductTail α → List (Symbol α)
  | .nil => []
  | .cons u t => .dot :: (u.yield ++ t.yield)

/-- The symbols of an operand. -/
def Unary.yield : Unary α → List (Symbol α)
  | .negation u => .minus :: u.yield
  | .function f u => .function f.name :: u.yield
  | .fraction q => q.yield

/-- The symbols of a fraction. -/
def Fraction.yield : Fraction α → List (Symbol α)
  | .parts a b =>
    .fraction :: .openCurly :: (a.yield ++ .closeCurly :: .openCurly :: (b.yield ++ [.closeCurly]))
  | .power p => p.yield

/-- The symbols of a power. -/
def Power.yield : Power α → List (Symbol α)
  | .base g => g.yield
  | .exponent g p => g.yield ++ .caret :: p.yield

/-- The symbols of a group. -/
def Group.yield : Group α → List (Symbol α)
  | .bracket b s => b.opening :: (s.yield ++ [b.closing])
  | .atom a => [a.symbol]

end

mutual

/-- The expression of a sum: signs associate to the left. -/
def Sum.denote : Sum α → Expr α
  | ⟨p, t⟩ => t.denote p.denote

/-- The expression of the products after one that is read already. -/
def SumTail.denote (left : Expr α) : SumTail α → Expr α
  | .nil => left
  | .cons s p t => t.denote (.bin s.op left p.denote)

/-- The expression of a product: multiplication associates to the left. -/
def Product.denote : Product α → Expr α
  | ⟨u, t⟩ => t.denote u.denote

/-- The expression of the operands after one that is read already. -/
def ProductTail.denote (left : Expr α) : ProductTail α → Expr α
  | .nil => left
  | .cons u t => t.denote (.bin .mul left u.denote)

/-- The expression of an operand. -/
def Unary.denote : Unary α → Expr α
  | .negation u => .neg u.denote
  | .function f u => .app f u.denote
  | .fraction q => q.denote

/-- The expression of a fraction. -/
def Fraction.denote : Fraction α → Expr α
  | .parts a b => .bin .div a.denote b.denote
  | .power p => p.denote

/-- The expression of a power: exponents associate to the right. -/
def Power.denote : Power α → Expr α
  | .base g => g.denote
  | .exponent g p => .bin .pow g.denote p.denote

/-- The expression of a group; brackets leave no trace. -/
def Group.denote : Group α → Expr α
  | .bracket _ s => s.denote
  | .atom a => a.denote

end

/-! ## what may follow a phrase -/

/-- How strongly a symbol joins what stands on both sides of it, zero if it joins nothing. -/
def binding : Symbol α → Nat
  | .plus | .minus => 1
  | .dot => 2
  | .caret => 3
  | _ => 0

/-- The symbols after a phrase do not continue it: the first one, if any, joins less strongly than
`k`. -/
def Ends (k : Nat) : List (Symbol α) → Prop
  | [] => True
  | s :: _ => binding s < k

@[simp] theorem ends_nil {k : Nat} : Ends k ([] : List (Symbol α)) := trivial

@[simp] theorem ends_cons {k : Nat} {s : Symbol α} {l : List (Symbol α)} :
    Ends k (s :: l) ↔ binding s < k := Iff.rfl

/-- What ends a loose phrase ends a tighter one as well. -/
theorem Ends.mono {k m : Nat} {l : List (Symbol α)} (h : Ends k l) (hkm : k ≤ m) : Ends m l := by
  cases l with
  | nil => trivial
  | cons s l => exact Nat.lt_of_lt_of_le h hkm

/-- Signs bind terms to sums. -/
@[simp] theorem binding_sign (s : Sign) : binding (s.symbol : Symbol α) = 1 := by cases s <;> rfl

/-- A closing bracket ends whatever stands before it. -/
@[simp] theorem binding_closing (b : Bracket) : binding (b.closing : Symbol α) = 0 := by
  cases b <;> rfl

/-- A product ends where the next term of its sum begins. -/
theorem SumTail.ends (t : SumTail α) {r : List (Symbol α)} (h : Ends 1 r) :
    Ends 2 (t.yield ++ r) := by
  cases t with
  | nil => exact h.mono (by omega)
  | cons s p t => simp [SumTail.yield]

/-- A factor ends where the next factor of its product begins. -/
theorem ProductTail.ends (t : ProductTail α) {r : List (Symbol α)} (h : Ends 2 r) :
    Ends 3 (t.yield ++ r) := by
  cases t with
  | nil => exact h.mono (by omega)
  | cons u t => simp [ProductTail.yield, binding]

/-! ## how a phrase begins -/

/-- The symbols that begin a group. -/
def beginsGroup : Symbol α → Bool
  | .number _ | .name _ | .openParen | .openCurly => true
  | _ => false

/-- The symbols that begin a fraction or a power. -/
def beginsFraction (s : Symbol α) : Prop := s = .fraction ∨ beginsGroup s = true

/-- A group begins with a bracket or an atom. -/
theorem Group.begins (g : Group α) : ∃ s l, g.yield = s :: l ∧ beginsGroup s = true := by
  cases g with
  | bracket b s =>
      exact ⟨b.opening, s.yield ++ [b.closing], by rw [Group.yield], by cases b <;> rfl⟩
  | atom a => exact ⟨a.symbol, [], by rw [Group.yield], by cases a <;> rfl⟩

/-- A power begins as its base does. -/
theorem Power.begins (p : Power α) : ∃ s l, p.yield = s :: l ∧ beginsGroup s = true := by
  cases p with
  | base g =>
      rw [Power.yield]
      exact g.begins
  | exponent g p =>
      obtain ⟨s, l, hg, hs⟩ := g.begins
      exact ⟨s, l ++ .caret :: p.yield, by rw [Power.yield, hg, List.cons_append], hs⟩

/-- A fraction begins with its sign or as a group. -/
theorem Fraction.begins (q : Fraction α) : ∃ s l, q.yield = s :: l ∧ beginsFraction s := by
  cases q with
  | parts a b => exact ⟨.fraction, _, by rw [Fraction.yield], .inl rfl⟩
  | power p =>
      obtain ⟨s, l, hp, hs⟩ := p.begins
      exact ⟨s, l, by rw [Fraction.yield, hp], .inr hs⟩

/-! ## unambiguity -/

/-- A symbol that begins a fraction is neither a sign nor a function. -/
theorem not_beginsFraction_minus : ¬beginsFraction (.minus : Symbol α) := by
  simp [beginsFraction, beginsGroup]

theorem not_beginsFraction_function {name : String} :
    ¬beginsFraction (.function name : Symbol α) := by simp [beginsFraction, beginsGroup]

/-- Signs differ in their symbols. -/
theorem Sign.symbol_inj {s s' : Sign} (h : (s.symbol : Symbol α) = s'.symbol) : s = s' := by
  cases s <;> cases s' <;> simp [Sign.symbol] at h ⊢

/-- Atoms differ in their symbols. -/
theorem Atom.symbol_inj {a a' : Atom α} (h : a.symbol = a'.symbol) : a = a' := by
  cases a <;> cases a' <;> simp [Atom.symbol] at h ⊢ <;> exact h

/-- No atom is a bracket. -/
theorem opening_ne_symbol (b : Bracket) (a : Atom α) : b.opening ≠ a.symbol := by
  cases b <;> cases a <;> simp [Bracket.opening, Atom.symbol]

/-- Functions differ in their names. -/
theorem name_inj {f g : Fn} (h : f.name = g.name) : f = g := by
  cases f <;> cases g <;> simp [Fn.name] at h ⊢

mutual

/-- A sum and what follows it are known from their symbols. -/
theorem Sum.yield_inj (d d' : Sum α) {r r' : List (Symbol α)} (h : d.yield ++ r = d'.yield ++ r')
    (hr : Ends 1 r) (hr' : Ends 1 r') : d = d' ∧ r = r' := by
  obtain ⟨p, t⟩ := d
  obtain ⟨p', t'⟩ := d'
  rw [Sum.yield, Sum.yield, List.append_assoc, List.append_assoc] at h
  obtain ⟨rfl, ht⟩ := Product.yield_inj p p' h (t.ends hr) (t'.ends hr')
  obtain ⟨rfl, rfl⟩ := SumTail.yield_inj t t' ht hr hr'
  exact ⟨rfl, rfl⟩
termination_by structural d

/-- The terms that follow, and what follows them, are known from their symbols. -/
theorem SumTail.yield_inj (d d' : SumTail α) {r r' : List (Symbol α)}
    (h : d.yield ++ r = d'.yield ++ r') (hr : Ends 1 r) (hr' : Ends 1 r') : d = d' ∧ r = r' := by
  match d, d' with
  | .nil, .nil => exact ⟨rfl, h⟩
  | .nil, .cons s p t =>
      rw [SumTail.yield, SumTail.yield, List.nil_append] at h
      rw [h] at hr
      simp at hr
  | .cons s p t, .nil =>
      rw [SumTail.yield, SumTail.yield, List.nil_append] at h
      rw [← h] at hr'
      simp at hr'
  | .cons s p t, .cons s' p' t' =>
      rw [SumTail.yield, SumTail.yield, List.cons_append, List.cons_append, List.append_assoc,
        List.append_assoc] at h
      obtain ⟨hs, hp⟩ := List.cons.inj h
      obtain rfl := Sign.symbol_inj hs
      obtain ⟨rfl, ht⟩ := Product.yield_inj p p' hp (t.ends hr) (t'.ends hr')
      obtain ⟨rfl, rfl⟩ := SumTail.yield_inj t t' ht hr hr'
      exact ⟨rfl, rfl⟩
termination_by structural d

/-- A product and what follows it are known from their symbols. -/
theorem Product.yield_inj (d d' : Product α) {r r' : List (Symbol α)}
    (h : d.yield ++ r = d'.yield ++ r') (hr : Ends 2 r) (hr' : Ends 2 r') : d = d' ∧ r = r' := by
  obtain ⟨u, t⟩ := d
  obtain ⟨u', t'⟩ := d'
  rw [Product.yield, Product.yield, List.append_assoc, List.append_assoc] at h
  obtain ⟨rfl, ht⟩ := Unary.yield_inj u u' h (t.ends hr) (t'.ends hr')
  obtain ⟨rfl, rfl⟩ := ProductTail.yield_inj t t' ht hr hr'
  exact ⟨rfl, rfl⟩
termination_by structural d

/-- The factors that follow, and what follows them, are known from their symbols. -/
theorem ProductTail.yield_inj (d d' : ProductTail α) {r r' : List (Symbol α)}
    (h : d.yield ++ r = d'.yield ++ r') (hr : Ends 2 r) (hr' : Ends 2 r') : d = d' ∧ r = r' := by
  match d, d' with
  | .nil, .nil => exact ⟨rfl, h⟩
  | .nil, .cons u t =>
      rw [ProductTail.yield, ProductTail.yield, List.nil_append] at h
      rw [h] at hr
      simp [binding] at hr
  | .cons u t, .nil =>
      rw [ProductTail.yield, ProductTail.yield, List.nil_append] at h
      rw [← h] at hr'
      simp [binding] at hr'
  | .cons u t, .cons u' t' =>
      rw [ProductTail.yield, ProductTail.yield, List.cons_append, List.cons_append,
        List.append_assoc, List.append_assoc] at h
      obtain ⟨rfl, ht⟩ := Unary.yield_inj u u' (List.cons.inj h).2 (t.ends hr) (t'.ends hr')
      obtain ⟨rfl, rfl⟩ := ProductTail.yield_inj t t' ht hr hr'
      exact ⟨rfl, rfl⟩
termination_by structural d

/-- A negation, a function or a fraction is known from its symbols, with what follows it. -/
theorem Unary.yield_inj (d d' : Unary α) {r r' : List (Symbol α)}
    (h : d.yield ++ r = d'.yield ++ r') (hr : Ends 3 r) (hr' : Ends 3 r') : d = d' ∧ r = r' := by
  match d, d' with
  | .negation u, .negation u' =>
      rw [Unary.yield, Unary.yield, List.cons_append, List.cons_append] at h
      obtain ⟨rfl, rfl⟩ := Unary.yield_inj u u' (List.cons.inj h).2 hr hr'
      exact ⟨rfl, rfl⟩
  | .function f u, .function f' u' =>
      rw [Unary.yield, Unary.yield, List.cons_append, List.cons_append] at h
      obtain ⟨hf, hu⟩ := List.cons.inj h
      obtain rfl := name_inj (Symbol.function.inj hf)
      obtain ⟨rfl, rfl⟩ := Unary.yield_inj u u' hu hr hr'
      exact ⟨rfl, rfl⟩
  | .fraction q, .fraction q' =>
      rw [Unary.yield, Unary.yield] at h
      obtain ⟨rfl, rfl⟩ := Fraction.yield_inj q q' h hr hr'
      exact ⟨rfl, rfl⟩
  | .negation u, .function f' u' =>
      rw [Unary.yield, Unary.yield, List.cons_append, List.cons_append] at h
      exact nomatch (List.cons.inj h).1
  | .function f u, .negation u' =>
      rw [Unary.yield, Unary.yield, List.cons_append, List.cons_append] at h
      exact nomatch (List.cons.inj h).1
  | .negation u, .fraction q' =>
      obtain ⟨s, l, hq, hs⟩ := q'.begins
      rw [Unary.yield, Unary.yield, hq, List.cons_append, List.cons_append] at h
      rw [← (List.cons.inj h).1] at hs
      exact absurd hs not_beginsFraction_minus
  | .fraction q, .negation u' =>
      obtain ⟨s, l, hq, hs⟩ := q.begins
      rw [Unary.yield, Unary.yield, hq, List.cons_append, List.cons_append] at h
      rw [(List.cons.inj h).1] at hs
      exact absurd hs not_beginsFraction_minus
  | .function f u, .fraction q' =>
      obtain ⟨s, l, hq, hs⟩ := q'.begins
      rw [Unary.yield, Unary.yield, hq, List.cons_append, List.cons_append] at h
      rw [← (List.cons.inj h).1] at hs
      exact absurd hs not_beginsFraction_function
  | .fraction q, .function f' u' =>
      obtain ⟨s, l, hq, hs⟩ := q.begins
      rw [Unary.yield, Unary.yield, hq, List.cons_append, List.cons_append] at h
      rw [(List.cons.inj h).1] at hs
      exact absurd hs not_beginsFraction_function
termination_by structural d

/-- A fraction and what follows it are known from their symbols. -/
theorem Fraction.yield_inj (d d' : Fraction α) {r r' : List (Symbol α)}
    (h : d.yield ++ r = d'.yield ++ r') (hr : Ends 3 r) (hr' : Ends 3 r') : d = d' ∧ r = r' := by
  match d, d' with
  | .parts a b, .parts a' b' =>
      simp only [Fraction.yield, List.cons_append, List.append_assoc] at h
      have hnum := (List.cons.inj (List.cons.inj h).2).2
      obtain ⟨rfl, hmid⟩ := Sum.yield_inj a a' hnum (by simp [binding]) (by simp [binding])
      have hden := (List.cons.inj (List.cons.inj hmid).2).2
      obtain ⟨rfl, hend⟩ := Sum.yield_inj b b' hden (by simp [binding]) (by simp [binding])
      exact ⟨rfl, (List.cons.inj hend).2⟩
  | .power p, .power p' =>
      rw [Fraction.yield, Fraction.yield] at h
      obtain ⟨rfl, rfl⟩ := Power.yield_inj p p' h hr hr'
      exact ⟨rfl, rfl⟩
  | .parts a b, .power p' =>
      obtain ⟨s, l, hp, hs⟩ := p'.begins
      rw [Fraction.yield, Fraction.yield, hp, List.cons_append, List.cons_append] at h
      rw [← (List.cons.inj h).1] at hs
      exact nomatch hs
  | .power p, .parts a' b' =>
      obtain ⟨s, l, hp, hs⟩ := p.begins
      rw [Fraction.yield, Fraction.yield, hp, List.cons_append, List.cons_append] at h
      rw [(List.cons.inj h).1] at hs
      exact nomatch hs
termination_by structural d

/-- A power and what follows it are known from their symbols. -/
theorem Power.yield_inj (d d' : Power α) {r r' : List (Symbol α)}
    (h : d.yield ++ r = d'.yield ++ r') (hr : Ends 3 r) (hr' : Ends 3 r') : d = d' ∧ r = r' := by
  match d, d' with
  | .base g, .base g' =>
      rw [Power.yield, Power.yield] at h
      obtain ⟨rfl, rfl⟩ := Group.yield_inj g g' h
      exact ⟨rfl, rfl⟩
  | .exponent g p, .exponent g' p' =>
      simp only [Power.yield, List.append_assoc, List.cons_append] at h
      obtain ⟨rfl, hp⟩ := Group.yield_inj g g' h
      obtain ⟨rfl, rfl⟩ := Power.yield_inj p p' (List.cons.inj hp).2 hr hr'
      exact ⟨rfl, rfl⟩
  | .base g, .exponent g' p' =>
      simp only [Power.yield, List.append_assoc, List.cons_append] at h
      obtain ⟨rfl, rfl⟩ := Group.yield_inj g g' h
      simp [binding] at hr
  | .exponent g p, .base g' =>
      simp only [Power.yield, List.append_assoc, List.cons_append] at h
      obtain ⟨rfl, rfl⟩ := Group.yield_inj g g' h
      simp [binding] at hr'
termination_by structural d

/-- A group is known from its symbols whatever follows it. -/
theorem Group.yield_inj (d d' : Group α) {r r' : List (Symbol α)}
    (h : d.yield ++ r = d'.yield ++ r') : d = d' ∧ r = r' := by
  match d, d' with
  | .bracket b s, .bracket b' s' =>
      simp only [Group.yield, List.cons_append, List.append_assoc, List.nil_append] at h
      obtain ⟨hb, hs⟩ := List.cons.inj h
      obtain rfl := Bracket.opening_inj hb
      obtain ⟨rfl, hend⟩ := Sum.yield_inj s s' hs (by simp) (by simp)
      exact ⟨rfl, (List.cons.inj hend).2⟩
  | .atom a, .atom a' =>
      simp only [Group.yield, List.cons_append, List.nil_append] at h
      obtain ⟨ha, hr⟩ := List.cons.inj h
      exact ⟨congrArg Group.atom (Atom.symbol_inj ha), hr⟩
  | .bracket b s, .atom a' =>
      simp only [Group.yield, List.cons_append, List.nil_append] at h
      exact absurd (List.cons.inj h).1 (opening_ne_symbol b a')
  | .atom a, .bracket b' s' =>
      simp only [Group.yield, List.cons_append, List.nil_append] at h
      exact absurd (List.cons.inj h).1.symm (opening_ne_symbol b' a)
termination_by structural d

end

/-- **The grammar is unambiguous**: symbols have at most one derivation. -/
theorem Sum.unique {d d' : Sum α} (h : d.yield = d'.yield) : d = d' :=
  (Sum.yield_inj d d' (congrArg (· ++ []) h) ends_nil ends_nil).1

end Grammar

end Fluxion

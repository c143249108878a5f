import Fluxion.Proofs.Formula.Source
import Fluxion.Proofs.Store.Iteration
import Fluxion.Proofs.Store.Ownership

/-!
# Fluxion.Proofs.Store.Reading

Nothing is lost between a text and its tree.

A derivation denotes an expression with one leaf for each number and each name that it derives, in
the same order, and one node for each symbol that is no bracket (`Expr.MadeOf`).  The tree of nodes
that is made for the expression has the same leaves in the order of iteration, and the same size.
The table of its variables lists the names once each, as they come up first.

* `Grammar.Sum.madeOf`: symbols and the expression of a derivation;
* `Shape.StandsIn.leaves_ofExpr`: leaves of an expression and of its nodes;
* `Tree.read_spelledBy`: texts and their trees.
-/

namespace Fluxion

variable {α : Type}

/-! ## symbols and expressions -/

namespace Symbol

/-- The leaf of a number or of a name. -/
def leaf? : Symbol α → Option (Expr α)
  | number v => some (.num v)
  | name x => some (.var x)
  | _ => none

/-- Brackets are for grouping; no node stands for them. -/
def isBracket : Symbol α → Bool
  | openParen | closeParen | openCurly | closeCurly => true
  | _ => false

/-- An operation, which joins or precedes its operands. -/
def IsOperation (s : Symbol α) : Prop := s.leaf? = none ∧ s.isBracket = false

end Symbol

namespace Expr

/-- The numbers and variables of an expression, from left to right. -/
def leaves : Expr α → List (Expr α)
  | num v => [num v]
  | var x => [var x]
  | bin _ a b => a.leaves ++ b.leaves
  | neg a | app _ a => a.leaves

/-- An expression has a leaf for each number and name among symbols, and a node for each symbol that
is no bracket. -/
structure MadeOf (e : Expr α) (l : List (Symbol α)) : Prop where
  leaves : e.leaves = l.filterMap Symbol.leaf?
  size : e.size = l.countP (!·.isBracket)

namespace MadeOf

variable {a b : Expr α} {l m : List (Symbol α)} {s : Symbol α}

/-- The operation stands between its operands. -/
theorem bin (ha : a.MadeOf l) (hb : b.MadeOf m) (hs : s.IsOperation) (op : BinOp) :
    (bin op a b).MadeOf (l ++ s :: m) where
  leaves := by simp [Expr.leaves, ha.leaves, hb.leaves, hs.1]
  size := by
    simp [Expr.size, ha.size, hb.size, hs.2]
    omega

/-- The operation stands in front of its operands, which are in curly brackets. -/
theorem fraction (ha : a.MadeOf l) (hb : b.MadeOf m) (op : BinOp) :
    (Expr.bin op a b).MadeOf
      (.fraction :: .openCurly :: (l ++ .closeCurly :: .openCurly :: (m ++ [.closeCurly]))) where
  leaves := by simp [Expr.leaves, ha.leaves, hb.leaves, List.filterMap_cons, Symbol.leaf?]
  size := by
    simp [Expr.size, ha.size, hb.size, Symbol.isBracket]
    omega

/-- A negation is made of its operand and a sign. -/
theorem neg (ha : a.MadeOf l) (hs : s.IsOperation) : (neg a).MadeOf (s :: l) where
  leaves := by simp [Expr.leaves, ha.leaves, hs.1]
  size := by
    simp [Expr.size, ha.size, hs.2]
    omega

/-- A function is made of its operand and its word. -/
theorem app (ha : a.MadeOf l) (hs : s.IsOperation) (f : Fn) : (app f a).MadeOf (s :: l) where
  leaves := by simp [Expr.leaves, ha.leaves, hs.1]
  size := by
    simp [Expr.size, ha.size, hs.2]
    omega

/-- Brackets are made of what stands in them. -/
theorem bracket (ha : a.MadeOf l) (b : Bracket) : a.MadeOf (b.opening :: (l ++ [b.closing])) where
  leaves := by
    cases b <;>
      simp [ha.leaves, Bracket.opening, Bracket.closing, List.filterMap_cons, Symbol.leaf?]
  size := by
    cases b <;> simp [ha.size, Bracket.opening, Bracket.closing, Symbol.isBracket]

end MadeOf

end Expr

namespace Grammar

/-- Signs are operations. -/
theorem Sign.isOperation (s : Sign) : (s.symbol : Symbol α).IsOperation := by
  cases s <;> exact ⟨rfl, rfl⟩

/-- An atom is made of its symbol. -/
theorem Atom.madeOf (a : Atom α) : a.denote.MadeOf [a.symbol] := by
  cases a <;> exact ⟨rfl, rfl⟩

mutual

/-- What a sum denotes is made of the symbols that it derives. -/
theorem Sum.madeOf (d : Sum α) : d.denote.MadeOf d.yield := by
  match d with
  | ⟨p, t⟩ => exact t.madeOf p.madeOf
termination_by structural d

/-- Terms that follow add their symbols to those before. -/
theorem SumTail.madeOf (d : SumTail α) {left : Expr α} {l : List (Symbol α)}
    (hleft : left.MadeOf l) : (d.denote left).MadeOf (l ++ d.yield) := by
  match d with
  | .nil => rwa [SumTail.yield, List.append_nil]
  | .cons s p t =>
      have h := t.madeOf (hleft.bin p.madeOf s.isOperation s.op)
      rwa [List.append_assoc, List.cons_append] at h
termination_by structural d

/-- What a product denotes is made of its symbols. -/
theorem Product.madeOf (d : Product α) : d.denote.MadeOf d.yield := by
  match d with
  | ⟨u, t⟩ => exact t.madeOf u.madeOf
termination_by structural d

/-- Factors that follow add their symbols to those before. -/
theorem ProductTail.madeOf (d : ProductTail α) {left : Expr α} {l : List (Symbol α)}
    (hleft : left.MadeOf l) : (d.denote left).MadeOf (l ++ d.yield) := by
  match d with
  | .nil => rwa [ProductTail.yield, List.append_nil]
  | .cons u t =>
      have h := t.madeOf (hleft.bin u.madeOf (s := .dot) ⟨rfl, rfl⟩ .mul)
      rwa [List.append_assoc, List.cons_append] at h
termination_by structural d

/-- What a factor denotes is made of its symbols. -/
theorem Unary.madeOf (d : Unary α) : d.denote.MadeOf d.yield := by
  match d with
  | .negation u => exact u.madeOf.neg ⟨rfl, rfl⟩
  | .function f u => exact u.madeOf.app ⟨rfl, rfl⟩ f
  | .fraction q => exact q.madeOf
termination_by structural d

/-- What a fraction denotes is made of its symbols. -/
theorem Fraction.madeOf (d : Fraction α) : d.denote.MadeOf d.yield := by
  match d with
  | .parts a b => exact a.madeOf.fraction b.madeOf .div
  | .power p => exact p.madeOf
termination_by structural d

/-- What a power denotes is made of its symbols. -/
theorem Power.madeOf (d : Power α) : d.denote.MadeOf d.yield := by
  match d with
  | .base g => exact g.madeOf
  | .exponent g p => exact g.madeOf.bin p.madeOf ⟨rfl, rfl⟩ .pow
termination_by structural d

/-- What a group denotes is made of its symbols. -/
theorem Group.madeOf (d : Group α) : d.denote.MadeOf d.yield := by
  match d with
  | .bracket b s => exact s.madeOf.bracket b
  | .atom a => exact a.madeOf
termination_by structural d

end

end Grammar

/-! ## the table of names -/

/-- A name is put behind the ones that came up before it. -/
theorem Names.eq_of_add {names names' : Names} {x : String}
    (h : Names.add names.eraseDups x = .ok names') : names' = (names ++ [x]).eraseDups := by
  unfold Names.add at h
  rw [List.eraseDups_append]
  by_cases hx : x ∈ names
  · simp_all [List.removeAll]
  · rw [if_neg (by simpa using hx)] at h
    split at h
    · cases h
    · cases h
      simp [List.removeAll, hx, List.eraseDups_cons]

/-- The table lists the distinct names in the order in which they come up. -/
theorem Formula.eq_of_namesOf {ts : List (Token α)} {names vars : Names}
    (h : namesOf names.eraseDups ts = .ok vars) :
    vars = (names ++ (symbols ts).filterMap Symbol.name?).eraseDups := by
  induction ts generalizing names with
  | nil =>
    cases h
    simp
  | cons t ts ih =>
    cases hname : t.symbol.name? with
    | none =>
      rw [namesOf_of_other hname] at h
      simpa [hname] using ih h
    | some x =>
      rw [namesOf, Symbol.name?_eq_some.mp hname] at h
      cases hadd : Names.add names.eraseDups x with
      | error e => simp [hadd] at h
      | ok names' =>
        simp only [hadd, Names.eq_of_add hadd] at h
        simpa [hname] using ih h

/-! ## the nodes of an expression -/

namespace Sketch

/-- The sketch of an expression has its size. -/
theorem size_ofExpr (e : Expr α) : (ofExpr e).size = e.size := by
  induction e with
  | num v => rfl
  | var x => rfl
  | bin op a b iha ihb => simp [ofExpr, binary, size, Expr.size, iha, ihb]
  | neg a ih => simp [ofExpr, negation, size, Expr.size, ih]
  | app f a ih => simp [ofExpr, function, size, Expr.size, ih]

end Sketch

namespace Shape

variable {s : Store α} {p : Option NodeId} {n : NodeId} {op : String} {value : Option (Value α)}
  {freed : Bool} {t l r : Shape α}

/-- A node that stands is a leaf as its operation says. -/
theorem StandsIn.isLeaf_iff (h : (node n op value freed l r).StandsIn s p) :
    s.isLeaf n ↔ IsLeafOp op := by
  simp [Store.isLeaf, h.1, Cell.isLeaf, IsLeafOp]

/-- The leaves of the nodes of an operation are those of its operands. -/
theorem StandsIn.leaves_node (h : (node n op value freed l r).StandsIn s p) (hop : ¬IsLeafOp op) :
    (node n op value freed l r).inOrder.filter s.isLeaf =
      l.inOrder.filter s.isLeaf ++ r.inOrder.filter s.isLeaf := by
  simp [inOrder, mt h.isLeaf_iff.mp hop]

/-- A leaf that stands has itself for its only leaf. -/
theorem StandsIn.leaves_leaf (h : (node n op value freed missing missing).StandsIn s p)
    (hop : IsLeafOp op) :
    ((node n op value freed missing missing).inOrder.filter s.isLeaf).map s.sketch =
      [.node op value .missing .missing] := by
  have hsketch := h.sketch_eq (by simp [nodes]) rfl
  simp [inOrder, h.isLeaf_iff.mpr hop, hsketch, sketch]

/-- What is seen as a node is one. -/
theorem exists_node {x y : Sketch α} (h : t.sketch = .node op value x y) :
    ∃ n freed l r, t = node n op value freed l r ∧ l.sketch = x ∧ r.sketch = y := by
  cases t with
  | missing => cases h
  | node n op value freed l r =>
    cases h
    exact ⟨n, freed, l, r, rfl, rfl, rfl⟩

/-- The leaves of an expression are those of its nodes in order. -/
theorem StandsIn.leaves_ofExpr {e : Expr α} (h : t.StandsIn s p) (ht : t.sketch = .ofExpr e) :
    (t.inOrder.filter s.isLeaf).map s.sketch = e.leaves.map .ofExpr := by
  induction e generalizing t p with
  | num v =>
    obtain ⟨n, freed, l, r, rfl, hl, hr⟩ := exists_node ht
    obtain rfl := sketch_eq_missing hl
    obtain rfl := sketch_eq_missing hr
    exact h.leaves_leaf (.inl rfl)
  | var x =>
    obtain ⟨n, freed, l, r, rfl, hl, hr⟩ := exists_node ht
    obtain rfl := sketch_eq_missing hl
    obtain rfl := sketch_eq_missing hr
    exact h.leaves_leaf (.inr rfl)
  | bin op a b iha ihb =>
    obtain ⟨n, freed, l, r, rfl, hl, hr⟩ := exists_node ht
    simp [h.leaves_node (Storing.not_isLeafOp_symbol op), iha h.2.1 hl, ihb h.2.2 hr, Expr.leaves]
  | neg a ih =>
    obtain ⟨n, freed, l, r, rfl, hl, hr⟩ := exists_node ht
    obtain rfl := sketch_eq_missing hl
    simp [h.leaves_node Storing.not_isLeafOp_neg, ih h.2.2 hr, Expr.leaves]
  | app f a ih =>
    obtain ⟨n, freed, l, r, rfl, hl, hr⟩ := exists_node ht
    obtain rfl := sketch_eq_missing hl
    simp [h.leaves_node (Storing.not_isLeafOp_name f), ih h.2.2 hr, Expr.leaves]

end Shape

/-! ## texts and their trees -/

namespace Tree

open Store Storing

variable {s : Store α}

/-- A tree shows what is in the symbols of a text: their numbers and names are its leaves in the
order of iteration, all symbols but brackets have a node, and the table of variables lists the
names as they come up. -/
structure SpelledBy (s : Store α) (t : Tree) (l : List (Symbol α)) : Prop where
  leaves : ∃ ns, Visits s.next? (t.first? s) ns ∧
    (ns.filter s.isLeaf).map s.sketch = (l.filterMap Symbol.leaf?).map .ofExpr
  size : (t.sketch s).size = l.countP (!·.isBracket)
  vars : t.vars = (l.filterMap Symbol.name?).eraseDups
  length_vars : t.vars.length ≤ maxNames

/-- **Nothing is lost between a text and its tree.**  For a text that is read as a formula a tree is
made that shows its tokens. -/
theorem read_spelledBy [Arith α] (hs : s.Linked) {text : String} {f : Formula α}
    (h : Formula.read text = .ok f) :
    ∃ (ts : Tokens α) (t : Tree) (s' : Store α), tokenize text.toList = .ok ts ∧
      exec (read text) s = (.ok t, s') ∧ t.SpelledBy s' (symbols ts.tokens) := by
  obtain ⟨ts, htext, hts⟩ := Formula.ofTokens_of_read h
  obtain ⟨hroot, hvars⟩ := Formula.ofTokens_eq_ok.mp hts
  obtain ⟨d, hd, hdenote⟩ := Expr.ofTokens_eq_ok.mp hroot
  have hmade : f.root.MadeOf (symbols ts.tokens) := hd ▸ hdenote ▸ d.madeOf
  have htable := Formula.namesOf_spec ts.tokens List.nodup_nil (Nat.zero_le maxNames)
  simp only [hvars] at htable
  obtain ⟨n, s', u, hexec, hn, hsketch, hu⟩ := yields_plant hs (Sketch.bare_ofExpr f.root)
    (Sketch.ofExpr_ne_missing f.root)
  have hnodup := hu.stands.nodup_of_root hu.frame.linked
  refine ⟨ts, ⟨some n, f.vars⟩, s', htext, ?_, ⟨u.inOrder, ?_, ?_⟩, ?_, ?_, htable.2.1⟩
  · rw [read, h]
    exact exec_bind_of_ok (exec_onNodes_of_ok hexec) _
  · exact visits_first hu.stands hnodup hn.symm
  · rw [hu.stands.leaves_ofExpr hsketch, hmade.leaves]
  · rw [sketch_eq hu.stands hnodup hn.symm, hsketch, Sketch.size_ofExpr, hmade.size]
  · have hempty : Formula.namesOf (List.eraseDups []) ts.tokens = .ok f.vars := hvars
    exact Formula.eq_of_namesOf hempty

/-- A fraction, whose sign stands in front of both operands, with a name that comes up twice. -/
theorem read_spelledBy_fraction :
    ∃ (ts : Tokens Float) (t : Tree) (s' : Store Float),
      tokenize "\\frac\x7b-y\x7d\x7bx\x7d+y".toList = .ok ts ∧
      exec (read "\\frac\x7b-y\x7d\x7bx\x7d+y") [] = (.ok t, s') ∧
      t.SpelledBy s' (symbols ts.tokens) :=
  read_spelledBy (f := ⟨.bin .add (.bin .div (.neg (.var "y")) (.var "x")) (.var "y"), ["y", "x"]⟩)
    .nil (by cbv)

end Tree

end Fluxion

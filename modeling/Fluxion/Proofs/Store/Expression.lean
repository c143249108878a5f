import Fluxion.Expr.Derivative
import Fluxion.Expr.Simplify
import Fluxion.Proofs.Store.Ownership

/-!
# Fluxion.Proofs.Store.Expression

Trees of nodes that stand for expressions.

On sketches of expressions the operations for what stands below a node are those of expressions: the
derivative of a sketch is the sketch of the derivative, and so on.  So what holds of the derivative,
the substitution and the simplified form of an expression holds of the trees of nodes that are made
for them, and these calls fail only where those of expressions do.

* `Sketch.derivative_ofExpr`, `Sketch.subst_ofExpr`, `Sketch.mirrors_pass`: sketches of expressions;
* `Tree.exec_differentiate`, `Tree.exec_substitute`, `Tree.exec_simplify`: trees of nodes that stand
  for expressions;
* `wellFormed_rewritten`: what becomes of a tree and of its nodes when it is rewritten.
-/

namespace Fluxion

open Store

variable {α β γ : Type}

theorem BinOp.ofSymbol?_symbol (op : BinOp) : ofSymbol? op.symbol = some op := by
  cases op <;> rfl

namespace Sketch

/-- An expression has all its operands. -/
@[simp] theorem isMissing_ofExpr (e : Expr α) : (ofExpr e).isMissing = false := by
  cases e <;> rfl

/-- A node that is no leaf depends on what its operands depend on. -/
theorem isConst_node {x op : String} (hop : ¬IsLeafOp op) (value : Option (Value α))
    (l r : Sketch α) : (node op value l r).isConst x = (l.isConst x && r.isConst x) := by
  rw [IsLeafOp, not_or] at hop
  simp [isConst, hop]

/-- The sketch of an expression depends on the variables of the expression. -/
theorem isConst_ofExpr (x : String) (e : Expr α) : (ofExpr e).isConst x = e.isConst x := by
  induction e with
  | num v => rfl
  | var y => rfl
  | bin op a b iha ihb =>
    rw [ofExpr, binary, isConst_node (Storing.not_isLeafOp_symbol op), iha, ihb, Expr.isConst]
  | neg a ih =>
    rw [ofExpr, negation, isConst_node Storing.not_isLeafOp_neg, ih, Expr.isConst]
    rfl
  | app f a ih =>
    rw [ofExpr, function, isConst_node (Storing.not_isLeafOp_name f), ih, Expr.isConst]
    rfl

theorem beq_symbol (o p : BinOp) : (o.symbol == p.symbol) = (o == p) := by
  cases o <;> cases p <;> rfl

theorem beq_name (f g : Fn) : (f.name == g.name) = (f == g) := by
  cases f <;> cases g <;> rfl

/-- The names of the operations keep the kinds of nodes apart. -/
theorem same_ofExpr [BEq α] (e e' : Expr α) : (ofExpr e).same (ofExpr e') = e.same e' := by
  induction e generalizing e' with
  | num v => cases e' with
    | num w => simp [ofExpr, number, same, Expr.same, Value.same]
    | var y | neg a => rfl
    | bin op a b => cases op <;> rfl
    | app f a => cases f <;> rfl
  | var x => cases e' with
    | var y => simp [ofExpr, name, same, Expr.same, Value.same]
    | num w | neg a => rfl
    | bin op a b => cases op <;> rfl
    | app f a => cases f <;> rfl
  | bin op a b iha ihb => cases e' with
    | bin op' c d => simp [ofExpr, binary, same, Expr.same, iha, ihb, beq_symbol]
    | num w | var y | neg a => cases op <;> rfl
    | app f a => cases op <;> cases f <;> rfl
  | neg a ih => cases e' with
    | neg a => simp [ofExpr, negation, same, Expr.same, ih]
    | num w | var y => rfl
    | bin op a b => cases op <;> rfl
    | app f a => cases f <;> rfl
  | app f a ih => cases e' with
    | app g a => simp [ofExpr, function, same, Expr.same, ih, beq_name]
    | num w | var y | neg a => cases f <;> rfl
    | bin op a b => cases op <;> cases f <;> rfl

/-- Only leaves are named. -/
theorem isNamed_of_not {x op : String} (hop : ¬IsLeafOp op) (value : Option (Value α)) :
    isNamed x op value = false := by
  rw [IsLeafOp, not_or] at hop
  simp [isNamed, hop.2]

/-- A value is put into a sketch as into its expression. -/
theorem subst_ofExpr (x : String) (v e : Expr α) :
    subst x (ofExpr v) (ofExpr e) = ofExpr (Expr.subst x v e) := by
  induction e with
  | num w => rfl
  | var y =>
    by_cases hy : y = x
    · simp [ofExpr, name, subst, isNamed, Expr.subst, hy]
    · simp [ofExpr, name, subst, isNamed, Expr.subst, hy]
  | bin op a b iha ihb =>
    simp [ofExpr, binary, subst, isNamed_of_not (Storing.not_isLeafOp_symbol op), iha, ihb, Expr.subst]
  | neg a ih =>
    simp [ofExpr, negation, subst, isNamed_of_not Storing.not_isLeafOp_neg, ih, Expr.subst]
  | app f a ih =>
    simp [ofExpr, function, subst, isNamed_of_not (Storing.not_isLeafOp_name f), ih, Expr.subst]

theorem isConst?_ofExpr (x : String) (e : Expr α) :
    (ofExpr e).isConst? x = .ok (e.isConst x) := by
  rw [← isConst_ofExpr]
  cases e <;> rfl

theorem present_ofExpr (e : Expr α) : (ofExpr e).present = .ok (ofExpr e) := by
  cases e <;> rfl

section

variable [Arith α]

/-- The derivative of a negation is that of its operand, negated. -/
theorem derivativeRule_neg {m : Type → Type} [Monad m] [MonadExcept NodeError m]
    [Term α (m β)] (cl cr : m Bool) (l r dl dr : m β) :
    derivativeRule Expr.negName cl cr l r dl dr = Term.neg dr := rfl

/-- The derivative of a function goes by the chain rule. -/
theorem derivativeRule_name {m : Type → Type} [Monad m] [MonadExcept NodeError m] [Term α (m β)]
    (f : Fn) (cl cr : m Bool) (l r dl dr : m β) :
    derivativeRule f.name cl cr l r dl dr = Term.chain f r dr := by
  cases f <;> rfl

/-- The derivative of the sketch of an expression is the sketch of its derivative. -/
theorem derivative_ofExpr (x : String) (e : Expr α) :
    (ofExpr e).derivative x = .ok (ofExpr (e.derivative x)) := by
  induction e with
  | num v => rfl
  | var y =>
    rw [ofExpr, name, derivative, Expr.derivative]
    by_cases hy : y = x
    · simp [isConst, hy, Cell.nameOp, Cell.numberOp]
      rfl
    · simp [isConst, hy, Cell.nameOp, Cell.numberOp]
      rfl
  | bin op a b iha ihb =>
    have hconst := isConst_ofExpr x (.bin op a b)
    have hop : op.symbol ≠ Cell.nameOp := by cases op <;> decide
    rw [ofExpr, binary] at hconst
    rw [ofExpr, binary, derivative, hconst, Expr.derivative, if_neg hop, iha, ihb, present_ofExpr,
      present_ofExpr, isConst?_ofExpr, isConst?_ofExpr, derivativeRule, BinOp.ofSymbol?_symbol]
    split
    · rfl
    · cases op with
      | add | sub | mul | div => rfl
      | pow =>
        rw [Expr.binDerivative, Expr.powerDerivative]
        cases a.isConst x
        · cases b.isConst x <;> rfl
        · rfl
  | neg a ih =>
    have hconst := isConst_ofExpr x (.neg a)
    rw [ofExpr, negation] at hconst
    rw [ofExpr, negation, derivative, hconst, Expr.isConst, Expr.derivative, ih, derivativeRule_neg]
    cases a.isConst x <;> rfl
  | app f a ih =>
    have hconst := isConst_ofExpr x (.app f a)
    have hop : f.name ≠ Cell.nameOp := by cases f <;> decide
    rw [ofExpr, function] at hconst
    rw [ofExpr, function, derivative, hconst, Expr.isConst, Expr.derivative, if_neg hop, ih,
      present_ofExpr, derivativeRule_name]
    cases a.isConst x
    · cases f <;> rfl
    · rfl

end

/-! ## simplification -/

/-- The simplification of a sketch does what that of an expression does. -/
structure Mirrors (g : β → γ) (x : Simplifying α (Expr α) β) (y : Sketching α γ) : Prop where
  notes : y.notes = x.notes.map (·.map ofExpr)
  result : y.result = (x.result.map g).mapError fun e => .simplify (e.map ofExpr)

theorem mirrors_pure (g : β → γ) (b : β) :
    Mirrors g (pure b : Simplifying α (Expr α) β) (pure (g b)) := ⟨rfl, rfl⟩

/-- Sequences do the same if their steps do. -/
theorem Mirrors.bind {β' γ' : Type} {g : β → γ} {g' : β' → γ'} {x : Simplifying α (Expr α) β}
    {y : Sketching α γ} {f : β → Simplifying α (Expr α) β'} {f' : γ → Sketching α γ'}
    (h : Mirrors g x y) (hf : ∀ b, Mirrors g' (f b) (f' (g b))) :
    Mirrors g' (x >>= f) (y >>= f') := by
  have hr := h.result
  cases hx : x.result with
  | error e =>
    rw [hx] at hr
    constructor
    · rw [Noted.bind_notes_of_error hx, Noted.bind_notes_of_error hr, h.notes]
    · rw [Noted.bind_result_of_error hx, Noted.bind_result_of_error hr]
      rfl
  | ok b =>
    rw [hx] at hr
    constructor
    · rw [Noted.bind_notes_of_ok hx, Noted.bind_notes_of_ok hr, List.map_append, h.notes,
        (hf b).notes]
    · rw [Noted.bind_result_of_ok hx, Noted.bind_result_of_ok hr, (hf b).result]

/-- A rule that gives the same does the same. -/
theorem mirrors_of_gives {C : Set Empty} {x : Simplifying α (Expr α) (Option (Expr α))}
    {x' : Simplifying α (Sketch α) (Option (Sketch α))}
    (h : Term.Gives ofExpr (fun (_ : Set Empty) _ => True) (SimplifyError.map ofExpr) C x x') :
    Mirrors (Option.map ofExpr) x (x'.mapError .simplify) where
  notes := h.notes
  result := by
    have hr := h.result
    simp only [Noted.mapError]
    rw [hr]
    cases x.result <;> rfl

/-- An operation on one operand does not lack the other. -/
theorem lacks_right {op : String} (hop : Storing.isBinary op = false) (a : Expr α) :
    lacks op .missing (ofExpr a) = false := by
  simp [lacks, hop]

/-- The sketch of an expression lacks nothing. -/
theorem lacks_ofExpr (op : String) (a b : Expr α) : lacks op (ofExpr a) (ofExpr b) = false := by
  simp [lacks]

variable [Arith α]

/-- Expressions stand for sketches, and there is nothing that they could own. -/
theorem linear_ofExpr :
    Term.Linear (ofExpr : Expr α → Sketch α) (fun (_ : Set Empty) _ => True) where
  map_num _ := rfl
  map_bin _ _ _ := rfl
  map_neg _ := rfl
  map_app _ _ := rfl
  same_eq := same_ofExpr
  view_eq := by
    intro _ e _
    cases e with
    | num v | var x | neg a => rfl
    | bin op a b => cases op <;> rfl
    | app f a => cases f <;> rfl
  operand _ _ := trivial
  mono _ _ := trivial
  num _ := trivial
  bin _ _ _ _ := trivial
  neg _ := trivial
  app _ _ := trivial

/-- A pass over an operation on one operand. -/
theorem pass_right (st : Strictness) (op : String) (value : Option (Value α)) (r : Sketch α) :
    (node op value .missing r).pass st = (do
      let (r, changed) ← r.pass st
      match ← reduce st op value (lacks op .missing r) .missing r with
      | some e => return (e, true)
      | none => return (node op value .missing r, changed)) := rfl

/-- The rules for a node of two operands are those of its operation. -/
theorem reduce_symbol [Term α β] (st : Strictness) (op : BinOp) (l r : β) :
    reduce st op.symbol none false l r = (Term.reduceBin st op l r).mapError .simplify := by
  cases op <;> rfl

/-- The rules for a node of one operand are those of its function. -/
theorem reduce_name [Term α β] (st : Strictness) (f : Fn) (l r : β) :
    reduce st f.name none false l r = (Term.reduceApp st f r).mapError .simplify := by
  cases f <;> rfl

/-- A pass over the sketch of an expression is a pass over the expression. -/
theorem mirrors_pass (st : Strictness) (e : Expr α) :
    Mirrors (fun p => (ofExpr p.1, p.2)) (e.pass st) ((ofExpr e).pass st) := by
  have hdisj : Disjoint (∅ : Set Empty) ∅ := Set.disjoint_empty ∅
  induction e with
  | num v =>
    have hnum := (linear_ofExpr (α := α)).reduceNum (A := ∅) v
    have hpass : (ofExpr (.num v)).pass st = (do
        match (Term.reduceNum v : Option (Sketch α)) with
        | some e => return (e, true)
        | none => return (ofExpr (.num v), false) : Sketching α (Sketch α × Bool)) := rfl
    rw [hpass, hnum.result, Expr.pass]
    cases (Term.reduceNum v : Option (Expr α)) <;> exact mirrors_pure _ _
  | var x => exact mirrors_pure _ _
  | bin op a b iha ihb =>
    rw [ofExpr, binary, pass, Expr.pass]
    refine iha.bind fun p => ihb.bind fun q => ?_
    simp only
    rw [lacks_ofExpr, reduce_symbol]
    refine (mirrors_of_gives (linear_ofExpr.reduceBin trivial trivial hdisj)).bind fun o => ?_
    cases o <;> exact mirrors_pure _ _
  | neg a ih =>
    rw [ofExpr, negation, pass_right, Expr.pass]
    refine ih.bind fun p => ?_
    have hneg := linear_ofExpr.reduceNeg (A := ∅) (a := p.1) trivial
    have hreduce : reduce st Expr.negName none (lacks Expr.negName .missing (ofExpr p.1)) .missing
        (ofExpr p.1) = pure (Term.reduceNeg (ofExpr p.1)) := by
      rw [lacks_right (by decide)]
      rfl
    simp only
    rw [hreduce, hneg.result]
    cases (Term.reduceNeg p.1 : Option (Expr α)) <;> exact mirrors_pure _ _
  | app f a ih =>
    rw [ofExpr, function, pass_right, Expr.pass]
    refine ih.bind fun p => ?_
    simp only
    rw [lacks_right (by cases f <;> decide), reduce_name]
    refine (mirrors_of_gives (linear_ofExpr.reduceApp (A := ∅) f trivial)).bind fun o => ?_
    cases o <;> exact mirrors_pure _ _

/-- Passes over the sketch of an expression are passes over the expression. -/
theorem mirrors_passes (st : Strictness) (limit : Nat) (e : Expr α) :
    Mirrors (fun p => (ofExpr p.1, p.2)) (e.passes st limit)
      (untilSettled (pass st) limit (ofExpr e)) := by
  unfold Expr.passes
  induction limit generalizing e with
  | zero => exact mirrors_pure _ _
  | succ limit ih =>
    refine (mirrors_pass st e).bind fun (e', changed) => ?_
    cases changed
    · exact mirrors_pure _ _
    · exact ih e'

end Sketch

/-! ## trees of nodes -/

namespace Tree

variable {s : Store α} {t : Tree} {n : NodeId} {e : Expr α}

/-- What is made stands below its root. -/
theorem sketch_of_made {s' : Store α} {m : NodeId} {u : Shape α} (hu : u.Made ∅ ∅ s s')
    (hm : u.root? = some m) : s'.sketch m = u.sketch :=
  hu.stands.sketch_eq (hu.stands.nodup_of_root hu.frame.linked) hm

variable [Arith α]

/-- The derivative by a variable of the tree is made without failure. -/
theorem exec_differentiate (h : t.WellFormed s n) (he : s.sketch n = .ofExpr e) {x : String}
    (hx : x ∈ t.vars) : ∃ (m : NodeId) (s' : Store α) (u : Shape α),
      exec (t.differentiate x) s = (.ok { t with root := some m }, s') ∧
        u.root? = some m ∧ u.sketch = .ofExpr (e.derivative x) ∧ u.Made ∅ ∅ s s' := by
  have hyields := yields_derivative h x
  rw [he, Sketch.derivative_ofExpr] at hyields
  obtain ⟨m, s', u, hexec, hm, hu, hmade⟩ := t.exec_withRoot hyields
  refine ⟨m, s', u, ?_, hm, hu, hmade⟩
  rw [differentiate, exec_bind_of_ok (t.exec_requireVar_of_mem hx), exec_bind_of_ok exec_get, hexec]

/-- A number is put for a variable of the tree without failure. -/
theorem exec_substitute (h : t.WellFormed s n) (he : s.sketch n = .ofExpr e) {x : String}
    (hx : x ∈ t.vars) (v : α) : ∃ (m : NodeId) (s' : Store α) (u : Shape α),
      exec (t.substitute x v) s = (.ok { t with root := some m }, s') ∧
        u.root? = some m ∧ u.sketch = .ofExpr (Expr.subst x (Term.literal v) e) ∧
          u.Made ∅ ∅ s s' := by
  obtain ⟨k, s₁, w, hliteral, hk, hw, hmade₁⟩ := exec_literal h.linked v
  have hyields := yields_substitute h x hk hmade₁
  rw [he, hw, ← Sketch.linear_ofExpr.map_literal, Sketch.subst_ofExpr] at hyields
  obtain ⟨m, s', u, hexec, hm, hu, hmade⟩ := t.exec_withRoot hyields
  refine ⟨m, s', u, ?_, hm, hu, .trans hmade₁.frame hmade nofun⟩
  rw [substitute, exec_bind_of_ok (t.exec_requireVar_of_mem hx), exec_bind_of_ok exec_get,
    exec_bind_of_ok hliteral, h.root]
  exact hexec

/-- The tree is simplified as its expression is, with the same notes and failures. -/
theorem exec_simplify (h : t.WellFormed s n) (he : s.sketch n = .ofExpr e) (st : Strictness)
    (limit : Nat) (notes : List (Diagnostic α (Sketch α))) :
    let passes := e.passes st limit
    let noted := notes ++ passes.notes.map (·.map .ofExpr)
    match passes.result with
    | .ok (e', _) => ∃ (m : NodeId) (s' : Store α) (u : Shape α),
        exec (t.simplify st limit) ⟨s, notes⟩ = (.ok { t with root := some m }, ⟨s', noted⟩) ∧
          u.root? = some m ∧ u.sketch = .ofExpr e' ∧ u.Made ∅ ∅ s s'
    | .error f => ∃ s', exec (t.simplify st limit) ⟨s, notes⟩ =
        (.error (.simplify (f.map .ofExpr)), ⟨s', noted⟩) ∧ s.Frame ∅ ∅ s' := by
  have hmirrors := Sketch.mirrors_passes st limit e
  have hsimplify := performs_simplify h st limit notes
  rw [he, hmirrors.result, hmirrors.notes] at hsimplify
  cases hx : (e.passes st limit).result with
  | error f =>
    rw [hx] at hsimplify
    simp only [hx]
    exact hsimplify
  | ok p =>
    rw [hx] at hsimplify
    obtain ⟨_, s', hexec, m, u, rfl, hm, hu, hmade⟩ := hsimplify
    simp only [hx]
    exact ⟨m, s', u, hexec, hm, hu, hmade⟩

end Tree

/-- The derivative of a well-formed tree, its value for a variable and its simplified form are
well-formed trees of new nodes, whatever the number of passes of the simplification.  None of these
calls fails because a node is owned or has children, and none changes a node that was there
before.  For the tree of an expression the first two do not fail at all if the variable is in the
table, and the third exactly if the simplification of the expression does. -/
theorem wellFormed_rewritten [Arith α] [Numeral α] {s : Store α} {t : Tree} {n : NodeId}
    (h : t.WellFormed s n) :
    (∀ x, Discreet s ((exec (t.differentiate x) s).1.mapError .ofTree)
      (exec (t.differentiate x) s).2) ∧
    (∀ x v, Discreet s ((exec (t.substitute x v) s).1.mapError .ofTree)
      (exec (t.substitute x v) s).2) ∧
    (∀ st limit notes, Discreet s ((exec (t.simplify st limit) ⟨s, notes⟩).1.mapError .ofSketch)
      (exec (t.simplify st limit) ⟨s, notes⟩).2.store) ∧
    ∀ e, s.sketch n = .ofExpr e →
      (∀ x ∈ t.vars, (exec (t.differentiate x) s).1.isOk ∧
        ∀ v, (exec (t.substitute x v) s).1.isOk) ∧
      ∀ st limit notes, (exec (t.simplify st limit) ⟨s, notes⟩).1.isOk =
        (e.passes st limit).result.isOk := by
  refine ⟨t.discreet_differentiate h, t.discreet_substitute h, t.discreet_simplify h,
    fun e he => ?_⟩
  refine ⟨fun x hx => ⟨?_, fun v => ?_⟩, fun st limit notes => ?_⟩
  · obtain ⟨m, s', u, hexec, -⟩ := Tree.exec_differentiate h he hx
    rw [hexec]
    rfl
  · obtain ⟨m, s', u, hexec, -⟩ := Tree.exec_substitute h he hx v
    rw [hexec]
    rfl
  · have hpasses := Tree.exec_simplify h he st limit notes
    cases hx : (e.passes st limit).result with
    | error f =>
      simp only [hx] at hpasses
      obtain ⟨s', hexec, -⟩ := hpasses
      rw [hexec]
      rfl
    | ok p =>
      simp only [hx] at hpasses
      obtain ⟨m, s', u, hexec, -⟩ := hpasses
      rw [hexec]
      rfl

/-- The negation of a variable. -/
def negatedVariable : Store Float :=
  attach [⟨Cell.nameOp, some (.name "x"), none, none, none, false⟩,
    ⟨Expr.negName, none, none, none, none, false⟩] 1 .right 0

theorem linked_negatedVariable : negatedVariable.Linked :=
  ((Linked.nil.append Cell.nameOp (some (.name "x"))).append Expr.negName none).attach
    (by decide) (by decide) rfl rfl

theorem wellFormed_negatedVariable : Tree.WellFormed negatedVariable ⟨some 1, ["x"]⟩ 1 where
  linked := linked_negatedVariable
  root := rfl
  root_lt := by decide
  unowned := rfl
  acyclic m hm := linked_negatedVariable.paired.not_transGen ⟨1, rfl, hm⟩

/-- Among them is the derivative of `-x`. -/
theorem wellFormed_rewritten_negatedVariable :
    Tree.WellFormed negatedVariable ⟨some 1, ["x"]⟩ 1 ∧
    negatedVariable.sketch 1 = .ofExpr (.neg (.var "x")) ∧
    ∃ (n : NodeId) (s : Store Float),
      exec (Tree.differentiate ⟨some 1, ["x"]⟩ "x") negatedVariable = (.ok ⟨some n, ["x"]⟩, s) ∧
      Tree.WellFormed s ⟨some n, ["x"]⟩ n := by
  obtain ⟨s, hexec⟩ : ∃ s, exec (Tree.differentiate ⟨some 1, ["x"]⟩ "x") negatedVariable =
      (.ok ⟨some 3, ["x"]⟩, s) := ⟨_, rfl⟩
  have hdiscreet := (wellFormed_rewritten wellFormed_negatedVariable).1 "x"
  rw [hexec] at hdiscreet
  obtain ⟨n, hn, -⟩ := hdiscreet.result _ rfl
  obtain rfl : 3 = n := Option.some.inj hn.root
  exact ⟨wellFormed_negatedVariable, rfl, 3, s, hexec, hn⟩

end Fluxion

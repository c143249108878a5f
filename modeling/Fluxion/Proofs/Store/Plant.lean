import Fluxion.Proofs.Store.Growth
import Fluxion.Store.Draft

/-!
# Fluxion.Proofs.Store.Plant

Calls that make nodes for a sketch.

Such a call leaves a root with what the sketch says below it, or fails as the sketch does, and in
both cases leaves the rest of the store alone (`Storing.Yields`).  Calls that are put together by an
operation must not want the same nodes; new nodes nobody else wants.

* `Storing.Yields.bin`, `Storing.Yields.neg`, `Storing.Yields.app`: operations on nodes to be made;
* `Storing.yields_plant`, `Storing.yields_copy`: new nodes for a sketch, and for what stands below a
  node.
-/

namespace Fluxion

open Store

variable {α : Type} {s s' s₁ s₂ : Store α} {A B H : Set NodeId}

/-! ## sketches of nodes -/

/-- Nothing stands below the numbers and variables of a sketch. -/
def Sketch.Bare : Sketch α → Prop
  | .missing => True
  | .node op _ l r => (IsLeafOp op → l = .missing ∧ r = .missing) ∧ l.Bare ∧ r.Bare

namespace Shape

variable {t l r : Shape α} {p : Option NodeId}

/-- Nothing stands where there is nothing to be seen. -/
theorem sketch_eq_missing (h : t.sketch = .missing) : t = .missing := by
  cases t with
  | missing => rfl
  | node => cases h

/-- What stands in a store with links in pairs. -/
theorem StandsIn.bare (hs : s.Linked) (h : t.StandsIn s p) : t.sketch.Bare := by
  induction t generalizing p with
  | missing => trivial
  | node n op value freed l r ihl ihr =>
    refine ⟨fun hop => ?_, ihl h.2.1, ihr h.2.2⟩
    have hleaf : s.isLeaf n := by simpa [isLeaf, h.1, Cell.isLeaf, IsLeafOp] using hop
    have hl := hs.leaf n .left hleaf
    have hr := hs.leaf n .right hleaf
    rw [h.child?] at hl hr
    obtain rfl : l = .missing := missing_of_root? hl
    obtain rfl : r = .missing := missing_of_root? hr
    exact ⟨rfl, rfl⟩

namespace Made

/-- Two shapes made one after the other that do not want the same nodes. -/
theorem both (hl : l.Made A H s s₁) (hr : r.Made B H s₁ s₂) (hdisj : ∀ m ∈ A, m ∉ B)
    (hB : ∀ m ∈ B, m < s.length) :
    l.Made (A ∪ B) H s s₂ ∧ r.Made (A ∪ B) H s s₂ ∧ (r.root? = l.root? → r = .missing) := by
  have hmem : ∀ m ∈ l.nodes, m ∉ B := fun m hm hmB => by
    rcases (hl.mem m hm).1 with hA | hnew
    · exact hdisj m hA hmB
    · exact Nat.not_le_of_lt (hB m hmB) hnew
  refine ⟨(hl.mono Set.subset_union_left).after hr.frame (fun m hm => .inl (.inr hm)) hmem,
    .trans (hl.frame.mono Set.subset_union_left) hr fun m hm => .inl (.inr hm), fun hroot => ?_⟩
  cases hc : r.root? with
  | none => exact missing_of_root? hc
  | some c =>
    have hcl : c ∈ l.nodes := root?_mem (hroot.symm.trans hc)
    rcases (hr.mem c (root?_mem hc)).1 with hcB | hnew
    · exact absurd hcB (hmem c hcl)
    · exact absurd (hl.stands.lt hcl) (Nat.not_lt_of_le hnew)

end Made

end Shape

/-! ## calls that make nodes -/

/-- A part is missing or has no meaning. -/
def NodeError.IsLack : NodeError → Prop
  | missing _ | unknownOp _ => True
  | _ => False

namespace Storing

/-- A call makes nodes for a sketch, of nodes `A` that it may move and new ones, or fails as the
sketch does, for a part that is missing or has no meaning. -/
def Yields (A H : Set NodeId) (s : Store α) (call : Storing α NodeId)
    (result : Except NodeError (Sketch α)) : Prop :=
  match result with
  | .ok e => ∃ (n : NodeId) (s' : Store α) (t : Shape α),
      exec call s = (.ok n, s') ∧ t.root? = some n ∧ t.sketch = e ∧ t.Made A H s s'
  | .error e => e.IsLack ∧ ∃ s', exec call s = (.error e, s') ∧ s.Frame A H s'

section

variable {n : NodeId} {a b : Storing α NodeId} {x y : Except NodeError (Sketch α)} {op : String}
  {value : Option (Value α)} {l r : Shape α}

/-- Operations on one operand are not leaves. -/
theorem isUnary_not_leaf (h : isUnary op) : ¬IsLeafOp op := by
  rintro (rfl | rfl) <;> exact absurd h (by decide)

/-- Operations on two operands are not leaves. -/
theorem isBinary_not_leaf (h : isBinary op) : ¬IsLeafOp op := by
  rintro (rfl | rfl) <;> exact absurd h (by decide)

theorem isBinary_symbol (op : BinOp) : isBinary op.symbol := by
  cases op <;> decide

theorem isUnary_name (f : Fn) : isUnary f.name := by
  cases f <;> decide

@[simp] theorem not_isLeafOp_symbol (op : BinOp) : ¬IsLeafOp op.symbol :=
  isBinary_not_leaf (isBinary_symbol op)

@[simp] theorem not_isLeafOp_neg : ¬IsLeafOp Expr.negName := isUnary_not_leaf (by decide)

@[simp] theorem not_isLeafOp_name (f : Fn) : ¬IsLeafOp f.name := isUnary_not_leaf (isUnary_name f)

/-- A call may fail for what it lacks. -/
theorem yields_throw (h : s.Frame A H s) {e : NodeError} (he : e.IsLack) :
    Yields A H s (throw e) (.error e) := ⟨he, s, rfl, h⟩

/-- A number is made anew. -/
theorem yields_num (h : s.Frame A H s) (v : α) : Yields A H s (Term.num v) (Term.num v) := by
  obtain ⟨s', hexec, hmade⟩ := (Shape.Made.missing h).node (.missing h) Cell.numberOp
    (some (.number v)) (fun _ => rfl) fun _ => ⟨rfl, rfl⟩
  exact ⟨_, s', _, hexec, rfl, rfl, hmade⟩

namespace Yields

/-- A call may be said to use more than it does. -/
theorem mono (h : Yields A H s a x) (hAB : A ⊆ B) : Yields B H s a x := by
  cases x with
  | ok e =>
    obtain ⟨n, s', t, hexec, hroot, hsketch, hmade⟩ := h
    exact ⟨n, s', t, hexec, hroot, hsketch, hmade.mono hAB⟩
  | error e =>
    obtain ⟨he, s', hexec, hframe⟩ := h
    exact ⟨he, s', hexec, hframe.mono hAB⟩

/-- An operation on one operand. -/
theorem unary (h : Yields A H s a x) (hop : isUnary op) :
    Yields A H s (do operation op (← a) none) (do return .node op none .missing (← x)) := by
  cases x with
  | error e =>
    obtain ⟨he, s', hexec, hframe⟩ := h
    exact ⟨he, s', exec_bind_of_error hexec _, hframe⟩
  | ok e =>
    obtain ⟨n, s', t, hexec, hroot, rfl, hmade⟩ := h
    obtain ⟨s₂, hnode, hn⟩ := (Shape.Made.missing hmade.frame).node hmade op none
      (fun he => by simp [hroot] at he) fun hleaf => absurd hleaf (isUnary_not_leaf hop)
    refine ⟨_, s₂, _, ?_, rfl, rfl, hn⟩
    rw [exec_bind_of_ok hexec, operation, if_pos hop, ← hroot]
    exact hnode

/-- A negation is put on top of what a call makes. -/
theorem neg (h : Yields A H s a x) : Yields A H s (Term.neg a) (Term.neg x) := h.unary (by decide)

/-- A function is put on top of what a call makes. -/
theorem app (h : Yields A H s a x) (f : Fn) : Yields A H s (Term.app f a) (Term.app f x) :=
  h.unary (isUnary_name f)

/-- An operation on two operands that do not want the same nodes. -/
theorem bin (ha : Yields A H s a x) (hb : ∀ s₁, s.Frame A H s₁ → Yields B H s₁ b y) (op : BinOp)
    (hdisj : ∀ m ∈ A, m ∉ B) (hB : ∀ m ∈ B, m < s.length) :
    Yields (A ∪ B) H s (Term.bin op a b) (Term.bin op x y) := by
  cases x with
  | error e =>
    obtain ⟨he, s', hexec, hframe⟩ := ha
    exact ⟨he, s', exec_bind_of_error hexec _, hframe.mono Set.subset_union_left⟩
  | ok e =>
    obtain ⟨n, s₁, l, hexec, hroot, rfl, hl⟩ := ha
    have hy := hb s₁ hl.frame
    cases y with
    | error e =>
      obtain ⟨he, s', hexec', hframe⟩ := hy
      refine ⟨he, s', ?_, (hl.frame.mono Set.subset_union_left).trans hframe fun m hm => .inl (.inr hm)⟩
      exact (exec_bind_of_ok hexec _).trans (exec_bind_of_error hexec' _)
    | ok e' =>
      obtain ⟨m, s₂, r, hexec', hroot', rfl, hr⟩ := hy
      obtain ⟨hl, hr, hne⟩ := hl.both hr hdisj hB
      obtain ⟨s₃, hnode, hn⟩ := hl.node hr op.symbol none hne fun hleaf =>
        absurd hleaf (not_isLeafOp_symbol op)
      refine ⟨_, s₃, _, ?_, rfl, rfl, hn⟩
      refine (exec_bind_of_ok hexec _).trans ((exec_bind_of_ok hexec' _).trans ?_)
      rw [operation, if_pos (isBinary_symbol op), ← hroot, ← hroot']
      exact hnode

end Yields

/-! ## new nodes -/

/-- New nodes for a sketch, which may be missing. -/
theorem exec_plant? (hs : s.Linked) {e : Sketch α} (he : e.Bare) :
    ∃ (s' : Store α) (t : Shape α), exec (plant? e) s = (.ok t.root?, s') ∧ t.sketch = e ∧
      t.Made ∅ ∅ s s' := by
  induction e generalizing s with
  | missing => exact ⟨s, .missing, rfl, rfl, .missing (.start hs)⟩
  | node op value l r ihl ihr =>
    obtain ⟨hleaf, hbl, hbr⟩ := he
    obtain ⟨s₁, tl, hexecl, rfl, hl⟩ := ihl hs hbl
    obtain ⟨s₂, tr, hexecr, rfl, hr⟩ := ihr hl.frame.linked hbr
    obtain ⟨hl, hr, hne⟩ := hl.both hr nofun nofun
    obtain ⟨s₃, hnode, hn⟩ := hl.node hr op value hne fun hop =>
      ⟨Shape.sketch_eq_missing (hleaf hop).1, Shape.sketch_eq_missing (hleaf hop).2⟩
    refine ⟨s₃, _, ?_, rfl, hn.mono (Set.union_self ∅).subset⟩
    rw [plant?, exec_bind_of_ok hexecl, exec_bind_of_ok hexecr, exec_bind_of_ok hnode]
    rfl

/-- New nodes are made for a sketch. -/
theorem yields_plant (hs : s.Linked) {e : Sketch α} (he : e.Bare) (hne : e ≠ .missing) :
    Yields ∅ ∅ s (plant e) (.ok e) := by
  obtain ⟨s', t, hexec, rfl, hmade⟩ := exec_plant? hs he
  cases t with
  | missing => exact absurd rfl hne
  | node => exact ⟨_, s', _, exec_bind_of_ok hexec _, rfl, rfl, hmade⟩

/-- Copies of all nodes of a shape. -/
theorem yields_copy (hs : s.Linked) {t : Shape α} {p : Option NodeId} (h : t.StandsIn s p)
    (hnodup : t.nodes.Nodup) (hroot : t.root? = some n) :
    Yields ∅ ∅ s (copy n) (.ok t.sketch) := by
  have hplant := yields_plant hs (h.bare hs) fun he => by
    simp [Shape.sketch_eq_missing he] at hroot
  rwa [← h.sketch_eq hnodup hroot] at hplant ⊢

end

end Storing

/-! ## the nodes of an expression -/

namespace Sketch

/-- An expression is never missing. -/
theorem ofExpr_ne_missing (e : Expr α) : ofExpr e ≠ missing := by
  cases e <;> nofun

/-- Nothing stands below the numbers and names of an expression. -/
theorem bare_ofExpr (e : Expr α) : (ofExpr e).Bare := by
  induction e with
  | num v => exact ⟨fun _ => ⟨rfl, rfl⟩, trivial, trivial⟩
  | var x => exact ⟨fun _ => ⟨rfl, rfl⟩, trivial, trivial⟩
  | bin op a b iha ihb =>
    exact ⟨fun hleaf => absurd hleaf (Storing.not_isLeafOp_symbol op), iha, ihb⟩
  | neg a ih =>
    exact ⟨fun hleaf => absurd hleaf Storing.not_isLeafOp_neg, trivial, ih⟩
  | app f a ih =>
    exact ⟨fun hleaf => absurd hleaf (Storing.not_isLeafOp_name f), trivial, ih⟩

end Sketch

end Fluxion

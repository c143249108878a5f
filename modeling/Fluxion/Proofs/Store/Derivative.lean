import Fluxion.Proofs.Store.Plant
import Fluxion.Store.Derivative

/-!
# Fluxion.Proofs.Store.Derivative

The nodes of a derivative and of a substitution.

Both make new nodes only, so whatever of them is made first leaves the source for the rest to look
at (`Storing.Grows`).  A rule of differentiation makes one operation after the other; that it uses an
operand twice does no harm, as the operand is a call that makes nodes anew.

* `Storing.grows_derivative`: the nodes made for a derivative are those of the derived sketch;
* `Storing.grows_substitute`: likewise for a value put for a name.
-/

namespace Fluxion.Storing

open Store

variable {α β : Type} {s s₀ : Store α}

/-- In a store that has the nodes of another one, and perhaps more, a call makes new nodes for a
sketch, or fails as the sketch does. -/
def Grows (s₀ : Store α) (call : Storing α NodeId) (result : Except NodeError (Sketch α)) : Prop :=
  ∀ s, s₀.Frame ∅ ∅ s → Yields ∅ ∅ s call result

/-- In every such store a question has the same answer, unless something is missing. -/
def Answers (s₀ : Store α) (call : Storing α β) (answer : Except NodeError β) : Prop :=
  ∀ s, s₀.Frame ∅ ∅ s → exec call s = (answer, s) ∧ ∀ e, answer = .error e → e.IsLack

section

variable {a b l r dl dr : Storing α NodeId} {x y l' r' dl' dr' : Except NodeError (Sketch α)}

/-- A failure for want of something. -/
theorem grows_throw {e : NodeError} (he : e.IsLack) : Grows s₀ (throw e) (.error e) := fun _ hs =>
  yields_throw (.start hs.linked) he

theorem grows_num (v : α) : Grows s₀ (Term.num v) (Term.num v) := fun _ hs =>
  yields_num (.start hs.linked) v

theorem Grows.neg (h : Grows s₀ a x) : Grows s₀ (Term.neg a) (Term.neg x) := fun s hs => (h s hs).neg

theorem Grows.app (h : Grows s₀ a x) (f : Fn) : Grows s₀ (Term.app f a) (Term.app f x) :=
  fun s hs => (h s hs).app f

/-- New nodes are made for both operands. -/
theorem Grows.bin (ha : Grows s₀ a x) (hb : Grows s₀ b y) (op : BinOp) :
    Grows s₀ (Term.bin op a b) (Term.bin op x y) := fun s hs => by
  have hbin := (ha s hs).bin (fun s₁ h₁ => hb s₁ (hs.trans h₁ nofun)) op nofun nofun
  rwa [Set.union_self] at hbin

/-- A question, and what grows for its answer. -/
theorem Grows.bind {q : Storing α β} {c : β} {f : β → Storing α NodeId} (hq : Answers s₀ q (.ok c))
    (hf : Grows s₀ (f c) x) : Grows s₀ (q >>= f) x := fun s hs => by
  have hfs := hf s hs
  cases x with
  | ok e =>
    obtain ⟨n, s', t, hexec, ht⟩ := hfs
    exact ⟨n, s', t, (exec_bind_of_ok (hq s hs).1 f).trans hexec, ht⟩
  | error e =>
    obtain ⟨he, s', hexec, hframe⟩ := hfs
    exact ⟨he, s', (exec_bind_of_ok (hq s hs).1 f).trans hexec, hframe⟩

/-- Which nodes are made depends on an answer. -/
theorem Grows.ite {q : Storing α Bool} {c : Except NodeError Bool} (hq : Answers s₀ q c)
    (ha : Grows s₀ a x) (hb : Grows s₀ b y) :
    Grows s₀ (do if ← q then a else b) (do if ← c then x else y) := by
  cases c with
  | error e =>
    exact fun s hs => ⟨(hq s hs).2 e rfl, s, exec_bind_of_error (hq s hs).1 _, .start hs.linked⟩
  | ok c =>
    refine Grows.bind hq ?_
    cases c
    · exact hb
    · exact ha

/-! ## rules of differentiation -/

variable [Arith α]

/-- A literal grows from nothing. -/
theorem grows_literal (v : α) : Grows s₀ (Term.literal v) (Term.literal v) := by
  unfold Term.literal
  split
  · exact grows_num _
  · exact (grows_num _).neg

theorem grows_unit : Grows s₀ (Term.unit : Storing α NodeId) Term.unit := grows_num _

/-- A square grows from what its base grows from. -/
theorem Grows.square (h : Grows s₀ a x) : Grows s₀ (Term.square a) (Term.square x) :=
  h.bin (grows_num _) _

/-- An inverse grows from what its operand grows from. -/
theorem Grows.inverse (h : Grows s₀ a x) : Grows s₀ (Term.inverse a) (Term.inverse x) :=
  grows_unit.bin h _

/-- The derivative of a function grows from copies of its operand. -/
theorem Grows.outerDerivative (h : Grows s₀ a x) (f : Fn) :
    Grows s₀ (Term.outerDerivative f a) (Term.outerDerivative f x) := by
  cases f with
  | sin => exact h.app _
  | cos => exact (h.app _).neg
  | tan => exact (h.app _).square.inverse
  | cot => exact (h.app _).square.inverse.neg
  | arcsin => exact ((grows_unit.bin h.square _).app _).inverse
  | arccos => exact ((grows_unit.bin h.square _).app _).inverse.neg
  | arctan => exact (grows_unit.bin h.square _).inverse
  | arccot => exact (grows_unit.bin h.square _).inverse.neg
  | sqrt => exact ((grows_num _).bin (h.app _) _).inverse
  | ln => exact h.inverse

/-- A rule makes new nodes if its operands and their derivatives do. -/
theorem grows_derivativeRule (op : String) {cl cr : Storing α Bool} {cl' cr' : Except NodeError Bool}
    (hcl : Answers s₀ cl cl') (hcr : Answers s₀ cr cr') (hl : Grows s₀ l l') (hr : Grows s₀ r r')
    (hdl : Grows s₀ dl dl') (hdr : Grows s₀ dr dr') :
    Grows s₀ (derivativeRule op cl cr l r dl dr) (derivativeRule op cl' cr' l' r' dl' dr') := by
  unfold derivativeRule
  split
  · exact hdl.bin hdr _
  · exact hdl.bin hdr _
  · exact (hdl.bin hr _).bin (hl.bin hdr _) _
  · exact ((hdl.bin hr _).bin (hl.bin hdr _) _).bin hr.square _
  · refine .ite hcl (((hl.app _).bin (hl.bin hr _) _).bin hdr _) (.ite hcr ?_ ?_)
    · exact (hr.bin (hl.bin (hr.bin grows_unit _) _) _).bin hdl _
    · exact (hl.bin hr _).bin ((hdr.bin (hl.app _) _).bin ((hr.bin hdl _).bin hl _) _) _
  · split
    · exact hdr.neg
    · split
      · exact (hr.outerDerivative _).bin hdr _
      · exact grows_throw trivial

end

/-! ## what stands below a node -/

variable {x : String} {n : NodeId} {p : Option NodeId} {u w : Shape α}

/-- A source stands where it stood. -/
theorem stands_of_frame (h : u.StandsIn s₀ p) (hs : s₀.Frame ∅ ∅ s) : u.StandsIn s p :=
  h.congr fun m hm => hs.cell m (h.lt hm) nofun nofun

/-- A node that is there answers with its cell. -/
theorem answers_cell {c : Cell α} (h : s₀[n]? = some c) : Answers s₀ (cell n) (.ok c) := by
  intro s hs
  refine ⟨exec_cell_of_some ?_, nofun⟩
  rw [hs.cell n (List.getElem?_eq_some_iff.mp h).1 nofun nofun, h]

/-- The nodes below a node say whether it depends on the variable. -/
theorem answers_isConst? (h : u.StandsIn s₀ p) (hnodup : u.nodes.Nodup) :
    Answers s₀ (isConst? x u.root?) (u.sketch.isConst? x) := by
  intro s hs
  cases u with
  | missing =>
    refine ⟨rfl, ?_⟩
    rintro _ ⟨⟩
    trivial
  | node n op value freed l r =>
    rw [Shape.root?_node, isConst?, exec_ask, (stands_of_frame h hs).sketch_eq hnodup rfl]
    exact ⟨rfl, nofun⟩

/-- A copy grows of what is there. -/
theorem grows_copy? (h : u.StandsIn s₀ p) (hnodup : u.nodes.Nodup) :
    Grows s₀ (copy? u.root?) u.sketch.present := by
  intro s hs
  cases u with
  | missing => exact grows_throw (e := .missing "copy") trivial s hs
  | node n op value freed l r => exact yields_copy hs.linked (stands_of_frame h hs) hnodup rfl

/-- The nodes that are made for a derivative are those of the derived sketch. -/
theorem grows_derivative [Arith α] (h : u.StandsIn s₀ p) (hnodup : u.nodes.Nodup) {depth : Nat}
    (hdepth : u.nodes.length ≤ depth) :
    Grows s₀ (derivative x depth u.root?) (u.sketch.derivative x) := by
  induction u generalizing p depth with
  | missing => cases depth <;> exact grows_throw (e := .missing "is_const") trivial
  | node n op value freed l r ihl ihr =>
    have hconst : Answers s₀ (isConst? x (some n))
      (.ok ((Sketch.node op value l.sketch r.sketch).isConst x)) := answers_isConst? h hnodup
    simp only [Shape.nodes, List.length_cons, List.length_append] at hdepth
    simp only [Shape.nodes, List.nodup_cons, List.nodup_append] at hnodup
    obtain ⟨depth, rfl⟩ : ∃ d, depth = d + 1 := ⟨depth - 1, by omega⟩
    rw [Shape.root?_node, derivative, Shape.sketch, Sketch.derivative]
    have hdl := ihl h.2.1 hnodup.2.1 (show l.nodes.length ≤ depth by omega)
    have hdr := ihr h.2.2 hnodup.2.2.1 (show r.nodes.length ≤ depth by omega)
    refine .bind hconst ?_
    split
    · exact grows_num _
    · refine .bind (answers_cell h.1) ?_
      split
      · exact grows_unit
      · exact grows_derivativeRule op (answers_isConst? h.2.1 hnodup.2.1)
          (answers_isConst? h.2.2 hnodup.2.2.1) (grows_copy? h.2.1 hnodup.2.1)
          (grows_copy? h.2.2 hnodup.2.2.1) hdl hdr

/-- A new node for a part, put into its place below a node that is new as well. -/
theorem exec_putFrom {s s₁ : Store α} {m : NodeId} {op : String} {value : Option (Value α)}
    {freed : Bool} {l r : Shape α} (hm : (Shape.node m op value freed l r).Made ∅ ∅ s s₁)
    (slot : Slot) (make : NodeId → Storing α NodeId) (e : Sketch α) (hempty : slot.pick l r = .missing)
    (hleaf : IsLeafOp op → u = .missing) (hmissing : u = .missing → e = .missing)
    (hmake : ∀ c, u.root? = some c → Yields ∅ ∅ s₁ (make c) (.ok e)) :
    ∃ (s₂ : Store α) (y : Shape α), exec (putFrom m slot u.root? make) s₁ = (.ok ⟨⟩, s₂) ∧
      y.sketch = e ∧ ((Shape.node m op value freed l r).put slot y).Made ∅ ∅ s s₂ := by
  cases hc : u.root? with
  | none =>
    obtain rfl := hmissing (Shape.missing_of_root? hc)
    exact ⟨s₁, .missing, rfl, rfl, (Shape.put_missing hempty).symm ▸ hm⟩
  | some c =>
    obtain ⟨k, s₂, y, hexec, hk, rfl, hy⟩ := hmake c hc
    obtain ⟨hm, hy, hne⟩ := hm.both hy nofun nofun
    rw [Set.union_self] at hm hy
    have hym : y.root? ≠ some m := fun he => by simp [hne he] at hk
    obtain ⟨s₃, hput, hm, -⟩ := hm.put hy slot hym hempty fun hop => by
      simp [hleaf hop] at hc
    refine ⟨s₃, y, ?_, rfl, hm⟩
    rw [hk] at hput
    exact (exec_bind_of_ok hexec _).trans hput

/-- The nodes that are made for a substitution are those of the sketch with the value in it. -/
theorem grows_substitute (hs₀ : s₀.Linked) (hw : w.StandsIn s₀ none) {value : NodeId}
    (hvalue : w.root? = some value) (h : u.StandsIn s₀ p) {depth : Nat}
    (hdepth : u.nodes.length ≤ depth) (hroot : u.root? = some n) :
    Grows s₀ (substitute x value depth n) (.ok (Sketch.subst x w.sketch u.sketch)) := by
  induction u generalizing p depth n with
  | missing => cases hroot
  | node k op val freed l r ihl ihr =>
    obtain rfl : k = n := Option.some.inj hroot
    simp only [Shape.nodes, List.length_cons, List.length_append] at hdepth
    obtain ⟨depth, rfl⟩ : ∃ d, depth = d + 1 := ⟨depth - 1, by omega⟩
    rw [substitute, Shape.sketch, Sketch.subst]
    refine .bind (answers_cell h.1) fun s hs => ?_
    split
    · exact yields_copy hs.linked (stands_of_frame hw hs) (hw.nodup_of_root hs₀) hvalue
    · have hleft : IsLeafOp op → l = .missing := fun hop =>
        Shape.sketch_eq_missing ((h.bare hs₀).1 hop).1
      have hright : IsLeafOp op → r = .missing := fun hop =>
        Shape.sketch_eq_missing ((h.bare hs₀).1 hop).2
      have hnode := Shape.Made.alloc (.start hs.linked) op val
      obtain ⟨s₂, y, hexecl, hy, hnode⟩ := exec_putFrom hnode .left (substitute x value depth)
        (Sketch.subst x w.sketch l.sketch) rfl hleft (fun he => by rw [he]; rfl)
        fun c hc => ihl h.2.1 (by omega) hc _ (hs.trans hnode.frame fun _ => .inl)
      obtain ⟨s₃, z, hexecr, hz, hnode⟩ := exec_putFrom hnode .right (substitute x value depth)
        (Sketch.subst x w.sketch r.sketch) rfl hright (fun he => by rw [he]; rfl)
        fun c hc => ihr h.2.2 (by omega) hc _ (hs.trans hnode.frame fun _ => .inl)
      refine ⟨_, s₃, _, ?_, rfl, ?_, hnode⟩
      · rw [exec_bind_of_ok (exec_alloc op val), exec_bind_of_ok hexecl, exec_bind_of_ok hexecr,
          exec_pure]
      · simp [Shape.put, Shape.sketch, hy, hz]

end Fluxion.Storing

import Fluxion.Proofs.Store.Acyclic

/-!
# Fluxion.Proofs.Store.Shape

What stands below a node, with the numbers of the nodes.

A shape is a tree that says which node stands where.  It stands in a store if the cells of its nodes
are those that it says (`Shape.StandsIn`); that depends on these cells only, so a change of other
cells leaves it standing (`Shape.StandsIn.congr`).

* `Store.Linked.exists_shape`: below a root something stands that is a tree;
* `Shape.StandsIn.nodup`: no node stands in it twice;
* `Shape.StandsIn.sketch_eq`: its sketch is the sketch of its root.
-/

namespace Fluxion

open Relation

variable {α : Type}

/-- The part in a place. -/
def Slot.pick {β : Type} (slot : Slot) (l r : β) : β :=
  match slot with
  | .left => l
  | .right => r

/-- A tree of nodes. -/
inductive Shape (α : Type) where
  | missing
  | node (n : NodeId) (op : String) (value : Option (Value α)) (freed : Bool)
      (left right : Shape α)

namespace Shape

/-- The node at the top. -/
def root? : Shape α → Option NodeId
  | missing => none
  | node n _ _ _ _ _ => some n

/-- All nodes, those at the top first. -/
def nodes : Shape α → List NodeId
  | missing => []
  | node n _ _ _ l r => n :: (l.nodes ++ r.nodes)

/-- The sketch of a tree of nodes. -/
def sketch : Shape α → Sketch α
  | missing => .missing
  | node _ op value _ l r => .node op value l.sketch r.sketch

/-- A shape with another part in a place below its root. -/
def put (t : Shape α) (slot : Slot) (x : Shape α) : Shape α :=
  match t, slot with
  | missing, _ => missing
  | node n op value freed _ r, .left => node n op value freed x r
  | node n op value freed l _, .right => node n op value freed l x

/-- No node was given up. -/
def Alive : Shape α → Prop
  | missing => True
  | node _ _ _ freed l r => freed = false ∧ l.Alive ∧ r.Alive

/-- The cells of a store say that a tree of nodes stands there, below a parent. -/
def StandsIn (s : Store α) : Option NodeId → Shape α → Prop
  | _, missing => True
  | p, node n op value freed l r =>
    s[n]? = some ⟨op, value, l.root?, r.root?, p, freed⟩ ∧ StandsIn s (some n) l ∧
      StandsIn s (some n) r

variable {s s' : Store α} {p : Option NodeId} {t l r : Shape α} {n m c : NodeId} {slot : Slot}
  {op : String} {value : Option (Value α)} {freed : Bool}

@[simp] theorem root?_missing : (missing : Shape α).root? = none := rfl

@[simp] theorem root?_node : (node n op value freed l r).root? = some n := rfl

/-- The root of a shape is one of its nodes. -/
theorem root?_mem (h : t.root? = some n) : n ∈ t.nodes := by
  cases t with
  | missing => cases h
  | node => simp_all [root?, nodes]

theorem missing_of_root? (h : t.root? = none) : t = missing := by
  cases t with
  | missing => rfl
  | node => cases h

theorem exists_root_of_ne (h : t ≠ missing) : ∃ n, t.root? = some n :=
  Option.ne_none_iff_exists'.mp fun hroot => h (missing_of_root? hroot)

/-- A shape with a node has a root. -/
theorem exists_root (h : m ∈ t.nodes) : ∃ n, t.root? = some n := by
  cases t with
  | missing => cases h
  | node n => exact ⟨n, rfl⟩

namespace StandsIn

/-- What stands in a store is a matter of its own cells. -/
theorem congr (h : t.StandsIn s p) (hs : ∀ m ∈ t.nodes, s'[m]? = s[m]?) : t.StandsIn s' p := by
  induction t generalizing p with
  | missing => trivial
  | node n op value freed l r ihl ihr =>
    refine ⟨(hs n (by simp [nodes])).trans h.1, ihl h.2.1 fun m hm => ?_, ihr h.2.2 fun m hm => ?_⟩
    · exact hs m (by simp [nodes, hm])
    · exact hs m (by simp [nodes, hm])

/-- The nodes of a shape that stands are there. -/
theorem lt (h : t.StandsIn s p) (hm : m ∈ t.nodes) : m < s.length := by
  induction t generalizing p with
  | missing => cases hm
  | node n op value freed l r ihl ihr =>
    simp only [nodes, List.mem_cons, List.mem_append] at hm
    rcases hm with rfl | hm | hm
    · exact (List.getElem?_eq_some_iff.mp h.1).1
    · exact ihl h.2.1 hm
    · exact ihr h.2.2 hm

/-- The root of a shape has the parent below which it stands. -/
theorem parent? (h : t.StandsIn s p) (hn : t.root? = some n) : s.parent? n = p := by
  cases t with
  | missing => cases hn
  | node =>
    cases hn
    simp [Store.parent?, h.1]

/-- The operands of a node stand below it. -/
theorem pick (h : (node n op value freed l r).StandsIn s p) (slot : Slot) :
    (slot.pick l r).StandsIn s (some n) := by
  cases slot
  · exact h.2.1
  · exact h.2.2

/-- The children of a node are the roots of its operands. -/
theorem child? (h : (node n op value freed l r).StandsIn s p) (slot : Slot) :
    s.child? n slot = (slot.pick l r).root? := by
  cases slot <;> simp [Store.child?, h.1, Cell.child, Slot.pick]

/-- What stands below a node of a shape is in the shape. -/
theorem mem_of_holds (h : t.StandsIn s p) (hm : m ∈ t.nodes) (hc : s.Holds m c) : c ∈ t.nodes := by
  induction t generalizing p with
  | missing => cases hm
  | node n op value freed l r ihl ihr =>
    simp only [nodes, List.mem_cons, List.mem_append] at hm ⊢
    rcases hm with rfl | hm | hm
    · obtain ⟨slot, hc⟩ := hc
      cases slot with
      | left => exact .inr (.inl (root?_mem (h.child? .left ▸ hc)))
      | right => exact .inr (.inr (root?_mem (h.child? .right ▸ hc)))
    · exact .inr (.inl (ihl h.2.1 hm))
    · exact .inr (.inr (ihr h.2.2 hm))

/-- What is below a node of a shape belongs to it. -/
theorem mem_of_below (h : t.StandsIn s p) (hm : m ∈ t.nodes) (hc : s.Below m c) : c ∈ t.nodes := by
  induction hc with
  | refl => exact hm
  | tail _ hc ih => exact h.mem_of_holds ih hc

/-- The nodes of a shape are below its root. -/
theorem below_of_mem (h : t.StandsIn s p) (hn : t.root? = some n) (hm : m ∈ t.nodes) :
    s.Below n m := by
  induction t generalizing p n with
  | missing => cases hn
  | node n op value freed l r ihl ihr =>
    cases hn
    simp only [nodes, List.mem_cons, List.mem_append] at hm
    rcases hm with rfl | hm | hm
    · exact .refl
    · obtain ⟨c, hl⟩ := exists_root hm
      exact .head ⟨.left, (h.child? .left).trans hl⟩ (ihl h.2.1 hl hm)
    · obtain ⟨c, hr⟩ := exists_root hm
      exact .head ⟨.right, (h.child? .right).trans hr⟩ (ihr h.2.2 hr hm)

/-- The nodes of a shape are those below its root. -/
theorem mem_iff (h : t.StandsIn s p) (hn : t.root? = some n) : m ∈ t.nodes ↔ s.Below n m :=
  ⟨h.below_of_mem hn, h.mem_of_below (root?_mem hn)⟩

/-- No node stands in two places of a shape. -/
theorem nodup (h : t.StandsIn s p) (hs : s.Linked) (hroot : ∀ n ∈ t.root?, s.Rooted n) :
    t.nodes.Nodup := by
  induction t generalizing p with
  | missing => exact List.nodup_nil
  | node n op value freed l r ihl ihr =>
    have hn : s.Rooted n := hroot n rfl
    have hl : ∀ c ∈ l.root?, s.child? n .left = some c := fun c hc => (h.child? .left).trans hc
    have hr : ∀ c ∈ r.root?, s.child? n .right = some c := fun c hc => (h.child? .right).trans hc
    -- a node that is below one of its children would be on a circle
    have hbelow : ∀ c, s.Holds n c → ¬s.Below c n := fun c hc hcn =>
      hs.paired.not_transGen hn (.head' hc hcn)
    simp only [nodes, List.nodup_cons, List.mem_append, List.nodup_append]
    refine ⟨?_, ihl h.2.1 fun c hc => hn.child ⟨_, hl c hc⟩,
      ihr h.2.2 fun c hc => hn.child ⟨_, hr c hc⟩, ?_⟩
    · rintro (hm | hm)
      · obtain ⟨c, hc⟩ := exists_root hm
        exact hbelow c ⟨_, hl c hc⟩ (h.2.1.below_of_mem hc hm)
      · obtain ⟨c, hc⟩ := exists_root hm
        exact hbelow c ⟨_, hr c hc⟩ (h.2.2.below_of_mem hc hm)
    · rintro x hxl _ hxr rfl
      obtain ⟨c, hc⟩ := exists_root hxl
      obtain ⟨d, hd⟩ := exists_root hxr
      have hcd : c = d := by
        rcases hs.paired.below_total (h.2.1.below_of_mem hc hxl) (h.2.2.below_of_mem hd hxr) with hb | hb
        · exact hs.paired.eq_of_siblings hn ⟨_, hl c hc⟩ ⟨_, hr d hd⟩ hb
        · exact (hs.paired.eq_of_siblings hn ⟨_, hr d hd⟩ ⟨_, hl c hc⟩ hb).symm
      subst hcd
      exact absurd (hs.held_once n _ n _ c (hl c hc) (hr c hd)).2 (by decide)

/-- Different roots have nothing in common. -/
theorem disjoint {x : Shape α} (hs : s.Linked) (ht : t.StandsIn s none) (hx : x.StandsIn s none)
    (hne : t.root? ≠ x.root?) (hm : m ∈ t.nodes) : m ∉ x.nodes := by
  intro hmx
  obtain ⟨n, hn⟩ := exists_root hm
  obtain ⟨c, hc⟩ := exists_root hmx
  refine hne (hn.trans (.trans (congrArg some ?_) hc.symm))
  exact hs.paired.eq_of_roots (ht.parent? hn) (hx.parent? hc) (ht.below_of_mem hn hm)
    (hx.below_of_mem hc hmx)

/-- A shape without a parent stands below a root. -/
theorem nodup_of_root (h : t.StandsIn s none) (hs : s.Linked) : t.nodes.Nodup :=
  h.nodup hs fun _ hn => Store.rooted_of_parent (h.parent? hn)

/-- A shape without repetitions is no larger than the store. -/
theorem length_nodes_le (h : t.StandsIn s p) (hnodup : t.nodes.Nodup) :
    t.nodes.length ≤ s.length := by
  have hsub : t.nodes ⊆ List.range s.length := fun m hm => List.mem_range.mpr (h.lt hm)
  simpa using (hnodup.subperm hsub).length_le

/-- What is seen below a root is what stands there. -/
theorem sketchTo_eq (h : t.StandsIn s p) {d : Nat} (hd : t.nodes.length ≤ d) :
    s.sketchTo (fun _ => none) d t.root? = t.sketch := by
  induction t generalizing p d with
  | missing => cases d <;> rfl
  | node n op value freed l r ihl ihr =>
    simp only [nodes, List.length_cons, List.length_append] at hd
    obtain ⟨d, rfl⟩ : ∃ d', d = d' + 1 := ⟨d - 1, by omega⟩
    simp only [root?_node, Store.sketchTo, h.1, sketch]
    rw [ihl h.2.1 (d := d) (by omega), ihr h.2.2 (d := d) (by omega)]

/-- The sketch of what stands below a node. -/
theorem sketch_eq (h : t.StandsIn s p) (hnodup : t.nodes.Nodup) (hn : t.root? = some n) :
    s.sketch n = t.sketch := by
  cases t with
  | missing => cases hn
  | node n op value freed l r =>
    cases hn
    have hle := h.length_nodes_le hnodup
    simp only [nodes, List.length_cons, List.length_append] at hle
    simp only [Store.sketch, Store.outlined, h.1, sketch]
    rw [h.2.1.sketchTo_eq (d := List.length s) (by omega),
      h.2.2.sketchTo_eq (d := List.length s) (by omega)]

end StandsIn

end Shape

/-- Below a root something stands that is a tree. -/
theorem Store.Linked.exists_shape {s : Store α} {n : NodeId} (hs : s.Linked) (h : s.Rooted n)
    (hn : n < s.length) : ∃ t : Shape α, t.root? = some n ∧ t.StandsIn s (s.parent? n) := by
  induction hk : s.rank n using Nat.strong_induction_on generalizing n with
  | _ k ih =>
    subst hk
    obtain ⟨c, hc⟩ : ∃ c, s[n]? = some c := ⟨_, List.getElem?_eq_getElem hn⟩
    have hpart : ∀ o : Option NodeId, (∀ m ∈ o, s.Holds n m) →
        ∃ t : Shape α, t.root? = o ∧ t.StandsIn s (some n) := by
      intro o ho
      cases o with
      | none => exact ⟨.missing, rfl, trivial⟩
      | some m =>
        have hm : s.Holds n m := ho m rfl
        have := ih _ (hs.paired.rank_child h hm) (h.child hm) (hs.paired.holds_lt hm).2 rfl
        rwa [hs.paired.holds_iff.mp hm] at this
    obtain ⟨l, hl, hstandsl⟩ := hpart c.left fun m hm => ⟨.left, by simpa [child?, hc, Cell.child] using hm⟩
    obtain ⟨r, hr, hstandsr⟩ := hpart c.right fun m hm => ⟨.right, by simpa [child?, hc, Cell.child] using hm⟩
    refine ⟨.node n c.op c.value c.freed l r, rfl, ?_, hstandsl, hstandsr⟩
    simp [hc, hl, hr, parent?]

end Fluxion

import Fluxion.Proofs.Store.Shape

/-!
# Fluxion.Proofs.Store.Order

Nodes in order, to the right and to the left.

Both ways of going through the nodes are one way with the sides exchanged (`Store.beside`).  It leads
from each node of a shape to the next one in the list of all (`Shape.StandsIn.leads`), so going on
comes to an end.
-/

namespace Fluxion

variable {α : Type}

/-- The other place. -/
def Slot.other : Slot → Slot
  | .left => .right
  | .right => .left

/-- The nodes of a shape in order, towards one side. -/
def Shape.towards (slot : Slot) : Shape α → List NodeId
  | .missing => []
  | .node n _ _ _ l r =>
    match slot with
    | .right => l.towards slot ++ n :: r.towards slot
    | .left => r.towards slot ++ n :: l.towards slot

namespace Store

variable {s : Store α} {n m c : NodeId} {slot : Slot} {o : Option NodeId} {ns ms : List NodeId}

/-- The node beside a node in order, towards one side. -/
def beside (s : Store α) (slot : Slot) (n : NodeId) : Option NodeId :=
  match s.child? n slot with
  | some c => some (s.outermost slot.other s.length c)
  | none => s.climb slot (s.length + 1) n

theorem next?_eq (s : Store α) (n : NodeId) : s.next? n = s.beside .right n := rfl

theorem prev?_eq (s : Store α) (n : NodeId) : s.prev? n = s.beside .left n := rfl

/-- Each node of a list is beside the one before it, and after the last one comes another or
none. -/
def Leads (s : Store α) (slot : Slot) (o : Option NodeId) : List NodeId → Prop
  | [] => True
  | n :: ns => s.beside slot n = ns.head?.or o ∧ Leads s slot o ns

/-- A way through some nodes is one through the first ones and then the others. -/
theorem leads_append :
    s.Leads slot o (ns ++ ms) ↔ s.Leads slot (ms.head?.or o) ns ∧ s.Leads slot o ms := by
  induction ns with
  | nil => simp [Leads]
  | cons n ns ih => cases ns <;> simp_all [Leads, and_assoc]

/-- Going on from a node of a list that leads nowhere comes to an end. -/
theorem Leads.acc (h : s.Leads slot none ns) (hn : n ∈ ns) :
    Acc (fun m n => s.beside slot n = some m) n := by
  induction ns generalizing n with
  | nil => cases hn
  | cons k ns ih =>
    rcases List.mem_cons.mp hn with rfl | hn
    · refine ⟨_, fun m hm => ih h.2 ?_⟩
      rw [h.1, Option.or_none] at hm
      exact List.mem_of_mem_head? hm
    · exact ih h.2 hn

end Store

namespace Shape

open Store

variable {s : Store α} {t : Shape α} {p : Option NodeId} {n m : NodeId} {slot : Slot}

theorem towards_node {op : String} {value : Option (Value α)} {freed : Bool} {l r : Shape α} :
    (node n op value freed l r).towards slot =
      (slot.other.pick l r).towards slot ++ n :: (slot.pick l r).towards slot := by
  cases slot <;> rfl

/-- In every direction all nodes are visited. -/
theorem mem_towards : m ∈ t.towards slot ↔ m ∈ t.nodes := by
  induction t with
  | missing => simp [towards, nodes]
  | node n op value freed l r ihl ihr =>
    cases slot <;> simp [towards, nodes, ihl, ihr] <;> tauto

theorem length_pick_le (slot : Slot) (l r : Shape α) :
    (slot.pick l r).nodes.length ≤ l.nodes.length + r.nodes.length := by
  cases slot <;> simp [Slot.pick]

/-- No child stands on both sides. -/
theorem pick_root?_iff {op : String} {value : Option (Value α)} {freed : Bool} {l r : Shape α}
    (hnodup : (node n op value freed l r).nodes.Nodup) {side : Slot}
    (hm : (side.pick l r).root? = some m) :
    (slot.pick l r).root? = some m ↔ side = slot := by
  simp only [nodes, List.nodup_cons, List.nodup_append] at hnodup
  obtain ⟨-, -, -, hdisj⟩ := hnodup
  constructor
  · intro h
    by_contra hne
    cases side <;> cases slot
    · exact hne rfl
    · exact hdisj m (root?_mem hm) m (root?_mem h) rfl
    · exact hdisj m (root?_mem h) m (root?_mem hm) rfl
    · exact hne rfl
  · intro h
    rw [← h, hm]

namespace StandsIn

variable {op : String} {value : Option (Value α)} {freed : Bool} {l r : Shape α}

/-- The first node in order stands at the end of the way to the other side. -/
theorem head?_towards (h : t.StandsIn s p) (hn : t.root? = some n) {k : Nat}
    (hk : t.nodes.length ≤ k) : (t.towards slot).head? = some (s.outermost slot.other k n) := by
  induction k generalizing t p n with
  | zero =>
    have := root?_mem hn
    simp_all
  | succ k ih =>
    cases t with
    | missing => cases hn
    | node n op value freed l r =>
      cases hn
      have hle := length_pick_le slot.other l r
      simp only [nodes, List.length_cons, List.length_append] at hk
      rw [towards_node, Store.outermost, h.child?]
      cases hc : (slot.other.pick l r).root? with
      | none => simp [missing_of_root? hc, towards]
      | some c => simp [ih (h.pick slot.other) hc (by omega)]

/-- The nodes of a shape lead from one to the next, and the last one leads where the way up from the
root does. -/
theorem leads (h : t.StandsIn s p) (hnodup : t.nodes.Nodup) (hn : t.root? = some n) {k : Nat}
    {o : Option NodeId} (hclimb : ∀ l, k ≤ l → s.climb slot l n = o)
    (hk : k + t.nodes.length ≤ s.length + 1) : s.Leads slot o (t.towards slot) := by
  induction t generalizing p n k o with
  | missing => trivial
  | node n op value freed l r ihl ihr =>
    cases hn
    simp only [nodes, List.length_cons, List.length_append] at hk
    obtain ⟨-, hl, hr, -⟩ := by simpa only [nodes, List.nodup_cons, List.nodup_append] using hnodup
    -- the way up from a child goes on above its parent, or ends there
    have hside : ∀ side : Slot,
        s.Leads slot (if side = slot then o else some n) ((side.pick l r).towards slot) := by
      intro side
      cases hc : (side.pick l r).root? with
      | none => simp [missing_of_root? hc, towards, Leads]
      | some c =>
        have hup : ∀ m, k + 1 ≤ m → s.climb slot m c = if side = slot then o else some n := by
          intro m hm
          obtain ⟨m, rfl⟩ : ∃ m', m = m' + 1 := ⟨m - 1, by omega⟩
          rw [climb, (h.pick side).parent? hc]
          simp only [h.child?, pick_root?_iff hnodup hc, hclimb m (by omega)]
        cases side
        · exact ihl h.2.1 hl hc hup (by omega)
        · exact ihr h.2.2 hr hc hup (by omega)
    rw [towards_node, leads_append]
    refine ⟨?_, ?_, ?_⟩
    · have hother : slot.other ≠ slot := by cases slot <;> decide
      simpa [hother] using hside slot.other
    · rw [beside, h.child?]
      cases hc : (slot.pick l r).root? with
      | none => simp [missing_of_root? hc, towards, hclimb (s.length + 1) (by omega)]
      | some c =>
        have := length_pick_le slot l r
        simp [(h.pick slot).head?_towards hc (k := s.length) (by omega)]
    · simpa using hside slot

/-- Without a parent the last node leads nowhere. -/
theorem leads_none (h : t.StandsIn s none) (hnodup : t.nodes.Nodup) :
    s.Leads slot none (t.towards slot) := by
  cases hn : t.root? with
  | none => simp [missing_of_root? hn, towards, Leads]
  | some n =>
    have hclimb : ∀ l, 0 ≤ l → s.climb slot l n = none := by
      intro l _
      cases l <;> simp [climb, h.parent? hn]
    have := h.length_nodes_le hnodup
    exact h.leads hnodup hn hclimb (by omega)

end StandsIn

end Shape

end Fluxion

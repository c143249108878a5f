import Fluxion.Proofs.Store.Order
import Fluxion.Store.Tree

/-!
# Fluxion.Proofs.Store.Iteration

Going through the nodes of a tree, from the first to the last and back.

The way to the next node knows no stack: it goes down through children and up through parents.  It
visits the nodes of a shape in the order that a recursion over the shape gives (`Shape.inOrder`), and
the way to the node before visits them the other way round.

* `Visits`: a loop from each node to the next one, which ends;
* `Tree.iterates_inOrder`: both ways through a tree, whatever its shape.
-/

namespace Fluxion

open Store

variable {α : Type} {s : Store α} {n m : NodeId} {slot : Slot} {ns : List NodeId}

/-- A loop that goes on from each node by a step visits these nodes, and ends after the last one. -/
inductive Visits (step : NodeId → Option NodeId) : Option NodeId → List NodeId → Prop where
  | done : Visits step none []
  | visit {n : NodeId} {ns : List NodeId} (h : Visits step (step n) ns) :
      Visits step (some n) (n :: ns)

/-- A bound on the number of steps cuts the loop short or does not matter. -/
theorem Visits.following {o : Option NodeId} (h : Visits s.next? o ns) (k : Nat) :
    s.following k o = ns.take k := by
  induction h generalizing k with
  | done => cases k <;> simp [Store.following]
  | visit _ ih => cases k <;> simp [Store.following, ih]

namespace Store.Leads

/-- A way that leads to nothing visits its nodes to the end. -/
theorem visits (h : s.Leads slot none ns) : Visits (s.beside slot) ns.head? ns := by
  induction ns with
  | nil => exact .done
  | cons n ns ih =>
    have hstep : s.beside slot n = ns.head? := by simpa using h.1
    exact .visit (hstep ▸ ih h.2)

/-- A node is beside another one exactly if it comes right after it in the list. -/
theorem beside_iff (h : s.Leads slot none ns) (hn : n ∈ ns) :
    s.beside slot n = some m ↔ [n, m] <:+: ns := by
  constructor
  · intro hm
    obtain ⟨before, after, rfl⟩ := List.append_of_mem hn
    have hstep := (leads_append.mp h).2.1
    rw [hm, Option.or_none] at hstep
    cases after with
    | nil => simp at hstep
    | cons c after =>
      obtain rfl : m = c := by simpa using hstep
      exact ⟨before, after, by simp⟩
  · rintro ⟨before, after, rfl⟩
    rw [List.append_assoc] at h
    simpa using (leads_append.mp h).2.1

end Store.Leads

/-! ## the recursion over a shape -/

namespace Shape

variable {t : Shape α}

/-- The nodes of a shape in order: what is below a node on the left, the node itself, what is below
it on the right. -/
def inOrder : Shape α → List NodeId
  | missing => []
  | node n _ _ _ l r => l.inOrder ++ n :: r.inOrder

@[simp] theorem inOrder_missing : (missing : Shape α).inOrder = [] := rfl

/-- Going to the right visits the nodes in order. -/
theorem towards_right (t : Shape α) : t.towards .right = t.inOrder := by
  induction t with
  | missing => rfl
  | node n op value freed l r ihl ihr => simp [towards, inOrder, ihl, ihr]

/-- Going to the left visits the nodes in reverse order. -/
theorem towards_left (t : Shape α) : t.towards .left = t.inOrder.reverse := by
  induction t with
  | missing => rfl
  | node n op value freed l r ihl ihr => simp [towards, inOrder, ihl, ihr]

/-- In order, all nodes are there, and no others. -/
theorem inOrder_perm (t : Shape α) : t.inOrder.Perm t.nodes := by
  induction t with
  | missing => rfl
  | node n op value freed l r ihl ihr =>
    exact List.perm_middle.trans ((ihl.append ihr).cons n)

/-- As many nodes are visited as are seen. -/
theorem size_sketch (t : Shape α) : t.sketch.size = t.inOrder.length := by
  induction t with
  | missing => rfl
  | node n op value freed l r ihl ihr =>
    simp [sketch, Sketch.size, inOrder, ihl, ihr]
    omega

/-- The end of the way down on one side is the first node towards the other side. -/
theorem StandsIn.outermost_root (h : t.StandsIn s none) (hnodup : t.nodes.Nodup) (slot : Slot) :
    t.root?.map (s.outermost slot.other s.length) = (t.towards slot).head? := by
  cases hn : t.root? with
  | none => simp [missing_of_root? hn, towards]
  | some n => exact (h.head?_towards hn (h.length_nodes_le hnodup)).symm

end Shape

/-! ## both ways through a tree -/

namespace Tree

/-- Going through the nodes of a tree visits these nodes, and the same nodes the other way round. -/
structure Iterates (s : Store α) (t : Tree) (ns : List NodeId) : Prop where
  /-- from the first node on to the next ones -/
  forward : Visits s.next? (t.first? s) ns
  /-- from the last node back to the ones before -/
  backward : Visits s.prev? (t.last? s) ns.reverse
  /-- no node is visited twice -/
  once : ns.Nodup
  /-- the way back from the next node -/
  prev : ∀ n ∈ ns, ∀ m, s.next? n = some m → m ∈ ns ∧ s.prev? m = some n
  /-- the way on from the node before -/
  next : ∀ n ∈ ns, ∀ m, s.prev? n = some m → m ∈ ns ∧ s.next? m = some n
  /-- all nodes as the tree lists them -/
  inOrder : t.inOrder s = ns
  /-- the size of a tree is the number of nodes visited -/
  size : (t.sketch s).size = ns.length

section

variable {u : Shape α} {t : Tree}

/-- The loop over the nodes of a tree visits those of its shape in order. -/
theorem visits_first (h : u.StandsIn s none) (hnodup : u.nodes.Nodup) (hroot : t.root = u.root?) :
    Visits s.next? (t.first? s) u.inOrder := by
  have hright : s.Leads .right none u.inOrder := u.towards_right ▸ h.leads_none hnodup
  have hfirst : t.first? s = u.inOrder.head? := by
    rw [first?, hroot, ← u.towards_right]
    exact h.outermost_root hnodup .right
  exact hfirst ▸ hright.visits

/-- From the last node the way back visits all nodes. -/
theorem visits_last (h : u.StandsIn s none) (hnodup : u.nodes.Nodup) (hroot : t.root = u.root?) :
    Visits s.prev? (t.last? s) u.inOrder.reverse := by
  have hleft : s.Leads .left none u.inOrder.reverse := u.towards_left ▸ h.leads_none hnodup
  have hlast : t.last? s = u.inOrder.reverse.head? := by
    rw [last?, hroot, ← u.towards_left]
    exact h.outermost_root hnodup .left
  exact hlast ▸ hleft.visits

/-- What is seen of a tree is what stands at its root. -/
theorem sketch_eq (h : u.StandsIn s none) (hnodup : u.nodes.Nodup) (hroot : t.root = u.root?) :
    t.sketch s = u.sketch := by
  rw [sketch, hroot]
  cases hn : u.root? with
  | none => simp [Shape.missing_of_root? hn, Shape.sketch]
  | some n => exact h.sketch_eq hnodup hn

/-- **Iteration is complete both ways.**  In a tree of any shape, without a parent above its root and
with links in pairs, going on from the first node visits all nodes in the order of the recursion and
ends, going back from the last one visits them in the opposite order, and each step has its step
back. -/
theorem iterates_inOrder (h : u.StandsIn s none) (hnodup : u.nodes.Nodup)
    (hroot : t.root = u.root?) : t.Iterates s u.inOrder := by
  have hright : s.Leads .right none u.inOrder := u.towards_right ▸ h.leads_none hnodup
  have hleft : s.Leads .left none u.inOrder.reverse := u.towards_left ▸ h.leads_none hnodup
  have hforward : Visits s.next? (t.first? s) u.inOrder := visits_first h hnodup hroot
  -- two nodes stand side by side in a list if they do so in the reversed list
  have hside : ∀ n m, [n, m] <:+: u.inOrder ↔ [m, n] <:+: u.inOrder.reverse := by
    intro n m
    rw [← List.reverse_infix]
    simp
  have hlength : u.inOrder.length ≤ s.length :=
    u.inOrder_perm.length_eq ▸ h.length_nodes_le hnodup
  refine ⟨hforward, visits_last h hnodup hroot, u.inOrder_perm.nodup_iff.mpr hnodup, ?_, ?_, ?_, ?_⟩
  · intro n hn m hm
    rw [next?_eq, hright.beside_iff hn] at hm
    have hmem : m ∈ u.inOrder := hm.subset (by simp)
    rw [prev?_eq, hleft.beside_iff (by simpa using hmem)]
    exact ⟨hmem, (hside n m).mp hm⟩
  · intro n hn m hm
    rw [prev?_eq, hleft.beside_iff (by simpa using hn)] at hm
    have hmem : m ∈ u.inOrder.reverse := hm.subset (by simp)
    rw [List.mem_reverse] at hmem
    rw [next?_eq, hright.beside_iff hmem]
    exact ⟨hmem, (hside m n).mpr hm⟩
  · rw [Tree.inOrder, hforward.following, List.take_of_length_le hlength]
  · rw [sketch_eq h hnodup hroot, u.size_sketch]

end

/-- A node with an operand on the left only, above one with an operand on the right only. -/
theorem iterates_inOrder_zigzag :
    let s : Store Float :=
      reached [.name "x", .node "neg" none none (some 0), .node "neg" none (some 1) none]
    s.parent? 2 = none ∧ (⟨some 2, []⟩ : Tree).Iterates s [1, 0, 2] := by
  intro s
  let leaf : Shape Float := .node 0 "@" (some (.name "x")) false .missing .missing
  let u : Shape Float := .node 2 "neg" none false (.node 1 "neg" none false .missing leaf) .missing
  have hstands : u.StandsIn s none := ⟨rfl, ⟨rfl, trivial, rfl, trivial, trivial⟩, trivial⟩
  exact ⟨rfl, iterates_inOrder hstands (by decide) rfl⟩

end Tree

end Fluxion

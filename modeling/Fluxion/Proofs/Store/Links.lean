import Fluxion.Proofs.Stateful
import Fluxion.Store.Sketch
import Mathlib.Data.List.Basic
import Mathlib.Tactic.ByContra

/-!
# Fluxion.Proofs.Store.Links

Links come in pairs, whatever calls are made.

Each primitive change of a store is described by the links after it, and keeps the links paired
(`Store.Paired`) and the leaves without children (`Store.Linked`).  What a call does is said by one
lemma (`exec_setChild`, `exec_free`); that it keeps the links consistent then follows step by step.
-/

namespace Fluxion

variable {α : Type}

namespace Store

variable {s : Store α} {n m c : NodeId} {slot slot' : Slot}

/-! ## the links after a change -/

/-- A node with a parent is there. -/
theorem lt_of_parent (h : s.parent? n = some m) : n < s.length := by
  by_contra hn
  simp [parent?, List.getElem?_eq_none (Nat.le_of_not_lt hn)] at h

/-- A node with a child is there. -/
theorem lt_of_child (h : s.child? n slot = some m) : n < s.length := by
  by_contra hn
  simp [child?, List.getElem?_eq_none (Nat.le_of_not_lt hn)] at h

@[simp] theorem length_setParent (p : Option NodeId) : (s.setParent n p).length = s.length := by
  simp [setParent]

@[simp] theorem length_setChild (p : Option NodeId) : (s.setChild n slot p).length = s.length := by
  simp [setChild]

@[simp] theorem length_giveUp : (s.giveUp n).length = s.length := by simp [giveUp]

@[simp] theorem length_attach : (s.attach n slot c).length = s.length := by
  unfold attach
  cases s.child? n slot <;> simp

@[simp] theorem length_detach : (s.detach n).length = s.length := by
  unfold detach
  cases s.parent? n <;> simp

/-- The cell of a node after one was changed. -/
theorem getElem?_modify (f : Cell α → Cell α) :
    (List.modify s n f)[m]? = if m = n then (s[m]?).map f else s[m]? := by
  rw [List.getElem?_modify]
  by_cases h : n = m
  · simp [h]
  · simp [h, Ne.symm h]

@[simp] theorem child?_setParent (p : Option NodeId) :
    (s.setParent n p).child? m slot = s.child? m slot := by
  rw [child?, setParent, getElem?_modify, child?]
  split
  · cases s[m]? <;> cases slot <;> rfl
  · rfl

@[simp] theorem child?_giveUp : (s.giveUp n).child? m slot = s.child? m slot := by
  rw [child?, giveUp, getElem?_modify, child?]
  split
  · cases s[m]? <;> cases slot <;> rfl
  · rfl

@[simp] theorem parent?_setChild (p : Option NodeId) :
    (s.setChild n slot p).parent? m = s.parent? m := by
  rw [parent?, setChild, getElem?_modify, parent?]
  split
  · cases s[m]? <;> cases slot <;> rfl
  · rfl

/-- The parent of one node is set. -/
theorem parent?_setParent (hn : n < s.length) (p : Option NodeId) :
    (s.setParent n p).parent? m = if m = n then p else s.parent? m := by
  rw [parent?, setParent, getElem?_modify, parent?]
  by_cases h : m = n
  · subst h
    simp [hn, Cell.withParent]
  · simp [h]

/-- A node that is in no store does not have a parent before or after. -/
theorem parent?_setParent_none :
    (s.setParent n none).parent? m = if m = n then none else s.parent? m := by
  rw [parent?, setParent, getElem?_modify, parent?]
  by_cases h : m = n
  · subst h
    cases s[m]? <;> simp [Cell.withParent]
  · simp [h]

/-- One child of one node is set. -/
theorem child?_setChild (hn : n < s.length) (p : Option NodeId) :
    (s.setChild n slot p).child? m slot' =
      if m = n ∧ slot' = slot then p else s.child? m slot' := by
  rw [child?, setChild, getElem?_modify, child?]
  by_cases h : m = n
  · subst h
    cases slot <;> cases slot' <;> simp [hn, Cell.child, Cell.withChild]
  · simp [h]

/-- A node that is given up has no parent. -/
theorem parent?_giveUp : (s.giveUp n).parent? m = if m = n then none else s.parent? m := by
  rw [parent?, giveUp, getElem?_modify, parent?]
  by_cases h : m = n
  · subst h
    cases s[m]? <;> simp [Cell.givenUp]
  · simp [h]

/-- A node that is attached is a child in its place. -/
theorem child?_attach (hn : n < s.length) :
    (s.attach n slot c).child? m slot' =
      if m = n ∧ slot' = slot then some c else s.child? m slot' := by
  unfold attach
  cases s.child? n slot <;> simp [child?_setChild, hn]

/-- A node that is attached has a parent, and what stood in its place has none any more. -/
theorem parent?_attach (hc : c < s.length) :
    (s.attach n slot c).parent? m =
      if m = c then some n else if s.child? n slot = some m then none else s.parent? m := by
  unfold attach
  cases h : s.child? n slot with
  | none => simp [parent?_setParent, hc]
  | some old => simp [parent?_setParent, parent?_setParent_none, hc, eq_comm]

/-- A node that is taken out leaves its place empty. -/
theorem child?_detach (hn : s.parent? n = some m) (hm : m < s.length) :
    (s.detach n).child? c slot =
      if c = m ∧ slot = s.slotIn m n then none else s.child? c slot := by
  unfold detach
  rw [hn]
  simp [child?_setChild, hm]

/-- A node that is taken out has no parent. -/
theorem parent?_detach : (s.detach n).parent? m = if m = n then none else s.parent? m := by
  unfold detach
  cases h : s.parent? n with
  | none =>
      by_cases hm : m = n
      · simp [hm, h]
      · simp [hm]
  | some p => simp [parent?_setParent_none]

/-! ## the cells after a change -/

/-- Only the node that is given up changes. -/
theorem getElem?_giveUp :
    (s.giveUp n)[m]? = if m = n then (s[m]?).map Cell.givenUp else s[m]? := getElem?_modify _

/-- Putting a node into an empty place changes the holder and the node. -/
theorem getElem?_attach (h : s.child? n slot = none) (hne : n ≠ c) :
    (s.attach n slot c)[m]? =
      if m = c then (s[m]?).map (·.withParent (some n))
      else if m = n then (s[m]?).map (·.withChild slot (some c)) else s[m]? := by
  rw [attach, h, setParent, getElem?_modify, setChild, getElem?_modify]
  by_cases hm : m = n
  · simp [hm, hne]
  · simp [hm]

/-- Taking a node from its parent changes both. -/
theorem getElem?_detach (hp : s.parent? n = some m) (hne : m ≠ n) :
    (s.detach n)[c]? =
      if c = n then (s[c]?).map (·.withParent none)
      else if c = m then (s[c]?).map (·.withChild (s.slotIn m n) none) else s[c]? := by
  rw [detach, hp]
  simp only [setParent, getElem?_modify, setChild]
  by_cases hc : c = m
  · simp [hc, hne]
  · simp [hc]

/-- Nodes that have no part in it stay when a node is attached in an empty place. -/
theorem getElem?_attach_of_ne (h : s.child? n slot = none) (hn : m ≠ n) (hc : m ≠ c) :
    (s.attach n slot c)[m]? = s[m]? := by
  rw [attach, h, setParent, getElem?_modify, if_neg hc, setChild, getElem?_modify, if_neg hn]

/-- Nodes other than a node and its parent stay when the node is taken out. -/
theorem getElem?_detach_of_ne (hc : c ≠ n) (hp : s.parent? n ≠ some c) :
    (s.detach n)[c]? = s[c]? := by
  unfold detach
  cases h : s.parent? n with
  | none => rfl
  | some m =>
    have hm : c ≠ m := fun he => hp (he ▸ h)
    simp only [setParent, setChild, getElem?_modify, if_neg hc, if_neg hm]

/-- A new cell has no links, so all links are as before. -/
@[simp] theorem child?_append (op : String) (value : Option (Value α)) :
    child? (s ++ [⟨op, value, none, none, none, false⟩]) m slot = s.child? m slot := by
  unfold child?
  rcases Nat.lt_trichotomy m s.length with hm | rfl | hm
  · rw [List.getElem?_append_left hm]
  · cases slot <;> simp [Cell.child]
  · rw [List.getElem?_eq_none (by simp; omega), List.getElem?_eq_none (by omega)]

@[simp] theorem parent?_append (op : String) (value : Option (Value α)) :
    parent? (s ++ [⟨op, value, none, none, none, false⟩]) m = s.parent? m := by
  unfold parent?
  rcases Nat.lt_trichotomy m s.length with hm | rfl | hm
  · rw [List.getElem?_append_left hm]
  · simp
  · rw [List.getElem?_eq_none (by simp; omega), List.getElem?_eq_none (by omega)]

/-! ## leaves -/

/-- A node is a number or a variable. -/
def isLeaf (s : Store α) (n : NodeId) : Bool := (s[n]?).any (·.isLeaf)

/-- A change that keeps the operation of a node keeps what is a leaf. -/
theorem isLeaf_modify {f : Cell α → Cell α} (hf : ∀ c, (f c).op = c.op) :
    isLeaf (List.modify s n f) m = s.isLeaf m := by
  rw [isLeaf, getElem?_modify, isLeaf]
  by_cases h : m = n
  · cases s[m]? <;> simp [h, Cell.isLeaf, hf]
  · simp [h]

@[simp] theorem isLeaf_setParent (p : Option NodeId) : (s.setParent n p).isLeaf m = s.isLeaf m :=
  isLeaf_modify fun _ => rfl

@[simp] theorem isLeaf_setChild (p : Option NodeId) :
    (s.setChild n slot p).isLeaf m = s.isLeaf m :=
  isLeaf_modify fun _ => by cases slot <;> rfl

@[simp] theorem isLeaf_giveUp : (s.giveUp n).isLeaf m = s.isLeaf m := isLeaf_modify fun _ => rfl

@[simp] theorem isLeaf_attach : (s.attach n slot c).isLeaf m = s.isLeaf m := by
  unfold attach
  cases s.child? n slot <;> simp

@[simp] theorem isLeaf_detach : (s.detach n).isLeaf m = s.isLeaf m := by
  unfold detach
  cases s.parent? n <;> simp

/-! ## links in pairs -/

/-- Links come in pairs. -/
structure Paired (s : Store α) : Prop where
  /-- what stands in a place below a node has that node as its parent, and the other way round -/
  child_iff : ∀ n c, (∃ slot, s.child? n slot = some c) ↔ s.parent? c = some n
  /-- no node stands in two places -/
  held_once : ∀ n slot m slot' c, s.child? n slot = some c → s.child? m slot' = some c →
    n = m ∧ slot = slot'

/-- The links of a store are consistent. -/
structure Linked (s : Store α) : Prop where
  /-- what stands in a place below a node has that node as its parent, and the other way round -/
  child_iff : ∀ n c, (∃ slot, s.child? n slot = some c) ↔ s.parent? c = some n
  /-- no node stands in two places -/
  held_once : ∀ n slot m slot' c, s.child? n slot = some c → s.child? m slot' = some c →
    n = m ∧ slot = slot'
  /-- nothing stands below a leaf -/
  leaf : ∀ n slot, s.isLeaf n → s.child? n slot = none

/-- Consistent links come in pairs. -/
theorem Linked.paired (h : s.Linked) : s.Paired := ⟨h.child_iff, h.held_once⟩

namespace Paired

/-- A child knows its parent. -/
theorem parent (h : s.Paired) (hc : s.child? n slot = some c) : s.parent? c = some n :=
  (h.child_iff n c).mp ⟨slot, hc⟩

/-- A node stands where its parent is taken to hold it. -/
theorem child_slotIn (h : s.Paired) (hc : s.parent? c = some n) :
    s.child? n (s.slotIn n c) = some c := by
  obtain ⟨slot, hslot⟩ := (h.child_iff n c).mpr hc
  unfold slotIn
  split
  · assumption
  · cases slot
    · contradiction
    · exact hslot

/-- A child is found in the place in which it stands. -/
theorem slotIn_eq (h : s.Paired) (hc : s.child? n slot = some c) : s.slotIn n c = slot :=
  (h.held_once n _ n slot c (h.child_slotIn (h.parent hc)) hc).2

/-- In a store with links in pairs nothing is left where a node was taken out. -/
theorem child?_detach (h : s.Paired) :
    (s.detach n).child? m slot = if s.child? m slot = some n then none else s.child? m slot := by
  cases hp : s.parent? n with
  | none =>
      have hne : s.child? m slot ≠ some n := fun hc => by
        simp [h.parent hc] at hp
      simp [detach, hp, hne]
  | some p =>
      have hc := h.child_slotIn hp
      rw [Store.child?_detach hp (lt_of_child hc)]
      by_cases hm : s.child? m slot = some n
      · obtain ⟨rfl, rfl⟩ := h.held_once _ _ _ _ _ hm hc
        simp [hm]
      · have : ¬(m = p ∧ slot = s.slotIn p n) := by
          rintro ⟨rfl, rfl⟩
          exact hm hc
        simp [hm, this]

/-- Nothing holds a node without a parent. -/
theorem child?_ne (h : s.Paired) (hc : s.parent? c = none) : s.child? n slot ≠ some c := by
  intro hn
  simp [h.parent hn] at hc

/-- Links stay in pairs when a node is taken out. -/
protected theorem detach (h : s.Paired) : (s.detach n).Paired where
  child_iff m d := by
    simp only [h.child?_detach, parent?_detach]
    grind [h.child_iff m d]
  held_once := by
    simp only [h.child?_detach]
    grind [h.held_once]

/-- Links stay in pairs when a node without a parent is given up. -/
protected theorem giveUp (h : s.Paired) (hparent : s.parent? n = none) : (s.giveUp n).Paired where
  child_iff m d := by
    simp only [child?_giveUp, parent?_giveUp, h.child_iff]
    grind
  held_once := by simpa using h.held_once

end Paired

namespace Linked

protected theorem nil : Linked ([] : Store α) where
  child_iff := by simp [child?, parent?]
  held_once := by simp [child?]
  leaf := by simp [child?]

/-- Links stay consistent when a node is added. -/
protected theorem append (h : s.Linked) (op : String) (value : Option (Value α)) :
    Linked (s ++ [⟨op, value, none, none, none, false⟩]) where
  child_iff := by simpa using h.child_iff
  held_once := by simpa using h.held_once
  leaf := by
    intro n slot hn
    rw [child?_append]
    by_cases hlt : n < s.length
    · refine h.leaf n slot ?_
      rwa [isLeaf, List.getElem?_append_left hlt] at hn
    · rw [child?, List.getElem?_eq_none (Nat.le_of_not_lt hlt)]
      rfl

/-- Links stay consistent when a node is attached that has no parent. -/
protected theorem attach (h : s.Linked) (hn : n < s.length) (hc : c < s.length)
    (hfree : s.parent? c = none) (hleaf : s.isLeaf n = false) : (s.attach n slot c).Linked where
  child_iff m d := by
    have hiff := h.child_iff m d
    have hne : s.child? m slot ≠ some c := h.paired.child?_ne hfree
    simp only [child?_attach hn, parent?_attach hc]
    grind [h.held_once, h.paired.child?_ne hfree]
  held_once := by
    simp only [child?_attach hn]
    grind [h.held_once, h.paired.child?_ne hfree]
  leaf m slot' hm := by
    rw [isLeaf_attach] at hm
    have hne : m ≠ n := fun he => by simp [he, hleaf] at hm
    simp [child?_attach hn, hne, h.leaf m slot' hm]

/-- Links stay consistent when a node is taken out. -/
protected theorem detach (h : s.Linked) : (s.detach n).Linked where
  child_iff := h.paired.detach.child_iff
  held_once := h.paired.detach.held_once
  leaf m slot hm := by
    rw [isLeaf_detach] at hm
    simp [h.paired.child?_detach, h.leaf m slot hm]

/-- Links stay consistent when a node without a parent is given up. -/
protected theorem giveUp (h : s.Linked) (hparent : s.parent? n = none) : (s.giveUp n).Linked where
  child_iff := (h.paired.giveUp hparent).child_iff
  held_once := (h.paired.giveUp hparent).held_once
  leaf := by simpa using h.leaf

end Linked

/-- A node may be put below another one. -/
structure Accepts (s : Store α) (n c : NodeId) : Prop where
  child : c < s.length
  free : s.parent? c = none
  holder : n < s.length
  inner : s.isLeaf n = false

end Store

/-! ## what calls do -/

namespace Storing

open Store

variable {s : Store α} {n m c : NodeId} {slot : Slot}

/-- A node that is there is looked up. -/
theorem exec_cell_of_some {x : Cell α} (h : s[n]? = some x) : exec (cell n) s = (.ok x, s) := by
  rw [cell, exec_bind, exec_get]
  simp [h]

/-- A node that is not there is not found. -/
theorem exec_cell_of_none (h : s[n]? = none) :
    exec (cell n : Storing α _) s = (.error .noNode, s) := by
  rw [cell, exec_bind, exec_get]
  simp [h]

@[simp] theorem exec_alloc (op : String) (value : Option (Value α)) :
    exec (alloc op value) s = (.ok s.length, s ++ [⟨op, value, none, none, none, false⟩]) := rfl

@[simp] theorem exec_ask {β : Type} (f : Store α → β) : exec (ask f) s = (.ok (f s), s) := rfl

@[simp] theorem exec_detach : exec (detach n) s = (.ok ⟨⟩, s.detach n) := rfl

/-- A node that can be accepted passes the tests. -/
theorem exec_requireFree (h : s.Accepts n c) : exec (requireFree n c) s = (.ok ⟨⟩, s) := by
  obtain ⟨child, hc⟩ : ∃ x, s[c]? = some x := ⟨_, List.getElem?_eq_getElem h.child⟩
  obtain ⟨holder, hn⟩ : ∃ x, s[n]? = some x := ⟨_, List.getElem?_eq_getElem h.holder⟩
  have hfree : child.parent = none := by simpa [parent?, hc] using h.free
  have hinner : holder.isLeaf = false := by simpa [isLeaf, hn] using h.inner
  simp [requireFree, exec_bind, exec_cell_of_some hc, exec_cell_of_some hn, hfree, hinner]

/-- Asking whether a node may be put below another one changes nothing. -/
theorem exec_requireFree_of_not (h : ¬s.Accepts n c) :
    ∃ e, exec (requireFree n c) s = (.error e, s) := by
  cases hc : s[c]? with
  | none => exact ⟨.noNode, by rw [requireFree, exec_bind_of_error (exec_cell_of_none hc)]⟩
  | some child =>
    rw [requireFree, exec_bind_of_ok (exec_cell_of_some hc)]
    cases hfree : child.parent with
    | some p => exact ⟨.owned, rfl⟩
    | none =>
      cases hn : s[n]? with
      | none => exact ⟨.noNode, by simp [exec_bind, exec_cell_of_none hn]⟩
      | some holder =>
        have hleaf : holder.isLeaf = true := by
          by_contra hleaf
          refine h ⟨(List.getElem?_eq_some_iff.mp hc).1, ?_, (List.getElem?_eq_some_iff.mp hn).1, ?_⟩
          · simp [parent?, hc, hfree]
          · simpa [isLeaf, hn] using hleaf
        exact ⟨.leaf, by simp [exec_bind, exec_cell_of_some hn, hleaf]⟩

/-- A node that can be accepted is attached, and what stood in its place is the result. -/
theorem exec_setChild (h : s.Accepts n c) (slot : Slot) :
    exec (setChild n slot c) s = (.ok (s.child? n slot), s.attach n slot c) := by
  rw [setChild, exec_bind_of_ok (exec_requireFree h)]
  rfl

/-- A node that cannot be accepted is refused, and nothing changes. -/
theorem exec_setChild_of_not (h : ¬s.Accepts n c) (slot : Slot) :
    ∃ e, exec (setChild n slot c) s = (.error e, s) := by
  obtain ⟨e, he⟩ := exec_requireFree_of_not h
  exact ⟨e, by rw [setChild, exec_bind_of_error he]⟩

/-- A node without children is given up. -/
theorem exec_free (hn : n < s.length) (h : ∀ slot, s.child? n slot = none) :
    exec (free n) s = (.ok ⟨⟩, s.giveUp n) := by
  obtain ⟨x, hx⟩ : ∃ x, s[n]? = some x := ⟨_, List.getElem?_eq_getElem hn⟩
  have hleft : x.left = none := by simpa [Store.child?, hx, Cell.child] using h .left
  have hright : x.right = none := by simpa [Store.child?, hx, Cell.child] using h .right
  simp [free, exec_bind, exec_cell_of_some hx, Cell.children, hleft, hright]

/-- A node that still has children is not given up, and nothing changes. -/
theorem exec_free_of_not (h : ¬(n < s.length ∧ ∀ slot, s.child? n slot = none)) :
    ∃ e, exec (free n) s = (.error e, s) := by
  cases hx : s[n]? with
  | none => exact ⟨.noNode, by rw [free, exec_bind_of_error (exec_cell_of_none hx)]⟩
  | some x =>
    refine ⟨.hasChildren x.op, ?_⟩
    have hchildren : x.children ≠ [] := by
      intro hempty
      refine h ⟨(List.getElem?_eq_some_iff.mp hx).1, fun slot => ?_⟩
      cases slot <;> cases hl : x.left <;> cases hr : x.right <;>
        simp_all [Cell.children, Store.child?, Cell.child]
    simp [free, exec_bind, exec_cell_of_some hx, hchildren]

/-! ## rules for calls -/

section

variable {P R : Store α → Prop}

/-- A question changes nothing. -/
theorem triple_ask {β : Type} {f : Store α → β} {Q : β → Store α → Prop}
    (h : ∀ s, P s → Q (f s) s) : Triple P (ask f) Q R where
  ok := by
    intro s b s' hs hx
    cases hx
    exact h s hs
  error _ hx := nomatch hx

/-- A new node is added at the end. -/
theorem triple_alloc {op : String} {value : Option (Value α)} {Q : NodeId → Store α → Prop}
    (h : ∀ s, P s → Q s.length (s ++ [⟨op, value, none, none, none, false⟩])) :
    Triple P (alloc op value) Q R where
  ok := by
    intro s b s' hs hx
    cases hx
    exact h s hs
  error _ hx := nomatch hx

/-- A node is attached, or nothing changes. -/
theorem triple_setChild {Q : Option NodeId → Store α → Prop}
    (hok : ∀ s, P s → s.Accepts n c → Q (s.child? n slot) (s.attach n slot c))
    (herror : ∀ s, P s → R s) : Triple P (setChild n slot c) Q R where
  ok := by
    intro s b s' hs hx
    by_cases ha : s.Accepts n c
    · rw [exec_setChild ha] at hx
      cases hx
      exact hok s hs ha
    · obtain ⟨e, he⟩ := exec_setChild_of_not ha slot
      rw [he] at hx
      cases hx
  error := by
    intro s e s' hs hx
    by_cases ha : s.Accepts n c
    · rw [exec_setChild ha] at hx
      cases hx
    · obtain ⟨e, he⟩ := exec_setChild_of_not ha slot
      rw [he] at hx
      cases hx
      exact herror s hs

/-- A node is given up, or nothing changes. -/
theorem triple_free {Q : PUnit → Store α → Prop}
    (hok : ∀ s, P s → (∀ slot, s.child? n slot = none) → Q ⟨⟩ (s.giveUp n))
    (herror : ∀ s, P s → R s) : Triple P (free n) Q R where
  ok := by
    intro s b s' hs hx
    by_cases h : n < s.length ∧ ∀ slot, s.child? n slot = none
    · rw [exec_free h.1 h.2] at hx
      cases hx
      exact hok s hs h.2
    · obtain ⟨e, he⟩ := exec_free_of_not h
      rw [he] at hx
      cases hx
  error := by
    intro s e s' hs hx
    by_cases h : n < s.length ∧ ∀ slot, s.child? n slot = none
    · rw [exec_free h.1 h.2] at hx
      cases hx
    · obtain ⟨e, he⟩ := exec_free_of_not h
      rw [he] at hx
      cases hx
      exact herror s hs

end

end Storing

end Fluxion

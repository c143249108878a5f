import Fluxion.Proofs.Store.Shape
import Mathlib.Data.Set.Basic

/-!
# Fluxion.Proofs.Store.Growth

Nodes put together and taken from each other, while the rest of the store stays as it is.

A call works on some nodes of a store and on new ones.  `Store.Frame` says what it leaves alone, and
`Shape.Made` that a shape stands by itself and is made of nothing else.  Shapes that are made stay
made when others are put together (`Shape.Made.after`), so a call is followed step by step with a
shape for each node that it has at hand.

* `Shape.Made.cut`, `Shape.Made.put`: a part taken from a shape, and put into it;
* `Shape.Made.node`: a new node.
-/

namespace Fluxion

open Store

variable {α : Type} {s s' s₁ s₂ : Store α} {A B H : Set NodeId}

/-! ## what is left alone -/

namespace Store

/-- From one store to another the nodes `A` could be moved, and children among these taken from the
nodes `H`.  All else is as it was. -/
structure Frame (A H : Set NodeId) (s s' : Store α) : Prop where
  linked : s'.Linked
  length_le : s.length ≤ s'.length
  cell : ∀ m < s.length, m ∉ A → m ∉ H → s'[m]? = s[m]?
  holder_lt : ∀ m ∈ H, m < s.length
  holder_parent : ∀ m ∈ H, s'.parent? m = s.parent? m
  holder_child : ∀ m ∈ H, ∀ slot c, c < s.length → c ∉ A → s.child? m slot = some c →
    s'.child? m slot = some c

namespace Frame

protected theorem refl (hs : s.Linked) (hH : ∀ m ∈ H, m < s.length) : s.Frame A H s where
  linked := hs
  length_le := le_rfl
  cell _ _ _ _ := rfl
  holder_lt := hH
  holder_parent _ _ := rfl
  holder_child _ _ _ _ _ _ hc := hc

/-- Nothing has been moved yet. -/
theorem start (hs : s.Linked) : s.Frame ∅ ∅ s := .refl hs nofun

/-- What the second change moves is new or could be moved before. -/
protected theorem trans (h₁ : s.Frame A H s₁) (h₂ : s₁.Frame B H s₂)
    (hB : ∀ m ∈ B, m ∈ A ∨ s.length ≤ m) : s.Frame A H s₂ where
  linked := h₂.linked
  length_le := h₁.length_le.trans h₂.length_le
  cell m hm hA hH := by
    have hmB : m ∉ B := fun hmB => (hB m hmB).elim hA (Nat.not_le_of_lt hm)
    rw [h₂.cell m (hm.trans_le h₁.length_le) hmB hH, h₁.cell m hm hA hH]
  holder_lt := h₁.holder_lt
  holder_parent m hm := (h₂.holder_parent m hm).trans (h₁.holder_parent m hm)
  holder_child m hm slot c hc hA hchild := by
    have hcB : c ∉ B := fun hcB => (hB c hcB).elim hA (Nat.not_le_of_lt hc)
    exact h₂.holder_child m hm slot c (hc.trans_le h₁.length_le) hcB
      (h₁.holder_child m hm slot c hc hA hchild)

protected theorem mono (h : s.Frame A H s') (hAB : A ⊆ B) : s.Frame B H s' :=
  { h with
    cell := fun m hm hB => h.cell m hm fun hA => hB (hAB hA)
    holder_child := fun m hm slot c hc hB => h.holder_child m hm slot c hc fun hA => hB (hAB hA) }

/-- Holders are as good as moved when the children taken from them no longer matter. -/
theorem release (h : s.Frame A H s') : s.Frame (A ∪ H) ∅ s' where
  linked := h.linked
  length_le := h.length_le
  cell m hm hAH _ := h.cell m hm (fun hA => hAH (.inl hA)) fun hH => hAH (.inr hH)
  holder_lt := nofun
  holder_parent := nofun
  holder_child := nofun

/-- Cells are changed, but no new ones made. -/
theorem of_cells (hs : s'.Linked) (hlength : s'.length = s.length)
    (hcell : ∀ m, m ∉ A → s'[m]? = s[m]?) (hH : ∀ m ∈ H, m < s.length ∧ m ∉ A) :
    s.Frame A H s' where
  linked := hs
  length_le := hlength.ge
  cell m _ hA _ := hcell m hA
  holder_lt m hm := (hH m hm).1
  holder_parent m hm := by rw [parent?, hcell m (hH m hm).2, parent?]
  holder_child m hm slot c _ _ hc := by rwa [child?, hcell m (hH m hm).2, ← child?]

theorem append (hs : s.Linked) (hH : ∀ m ∈ H, m < s.length) (op : String)
    (value : Option (Value α)) : s.Frame A H (s ++ [⟨op, value, none, none, none, false⟩]) where
  linked := hs.append op value
  length_le := by simp
  cell m hm _ _ := List.getElem?_append_left hm
  holder_lt := hH
  holder_parent m _ := parent?_append op value
  holder_child m _ slot c _ _ hc := by rwa [child?_append]

end Frame

end Store

/-- The operation of a number or a variable. -/
def IsLeafOp (op : String) : Prop := op = Cell.numberOp ∨ op = Cell.nameOp

/-! ## parts put into their places and taken from them -/

namespace Shape

variable {n m : NodeId} {op : String} {value : Option (Value α)} {freed : Bool} {t l r x : Shape α}
  {slot : Slot}

theorem mem_nodes_put (h : m ∈ (t.put slot x).nodes) : m ∈ t.nodes ∨ m ∈ x.nodes := by
  cases t with
  | missing => cases h
  | node n op value freed l r =>
    cases slot <;> simp only [put, nodes, List.mem_cons, List.mem_append] at h ⊢ <;> tauto

/-- A part can be put where one was taken away. -/
theorem exists_put_missing (n : NodeId) (op : String) (value : Option (Value α)) (freed : Bool)
    (l r : Shape α) (slot : Slot) : ∃ l' r', slot.pick l' r' = missing ∧
      (node n op value freed l r).put slot missing = node n op value freed l' r' ∧
      ∀ x, (node n op value freed l' r').put slot x = (node n op value freed l r).put slot x := by
  cases slot
  · exact ⟨missing, r, rfl, rfl, fun _ => rfl⟩
  · exact ⟨l, missing, rfl, rfl, fun _ => rfl⟩

theorem put_missing (h : slot.pick l r = missing) :
    (node n op value freed l r).put slot missing = node n op value freed l r := by
  cases slot <;> exact h ▸ rfl

theorem pick_nodes_sublist (slot : Slot) :
    (slot.pick l r).nodes.Sublist (node n op value freed l r).nodes := by
  cases slot
  · exact (List.sublist_append_left _ _).cons _
  · exact (List.sublist_append_right _ _).cons _

/-- The node at the top stands in none of the parts below it. -/
theorem not_mem_pick (h : (node n op value freed l r).nodes.Nodup) (slot : Slot) :
    n ∉ (slot.pick l r).nodes := by
  have hn := (List.nodup_cons.mp h).1
  cases slot
  · exact fun hm => hn (List.mem_append_left _ hm)
  · exact fun hm => hn (List.mem_append_right _ hm)

theorem disjoint_parts (h : (node n op value freed l r).nodes.Nodup) :
    List.Disjoint l.nodes r.nodes := List.disjoint_of_nodup_append (List.nodup_cons.mp h).2

theorem Alive.put (ht : t.Alive) (hx : x.Alive) : (t.put slot x).Alive := by
  cases t with
  | missing => trivial
  | node n op value freed l r =>
    cases slot
    · exact ⟨ht.1, hx, ht.2.2⟩
    · exact ⟨ht.1, ht.2.1, hx⟩

theorem Alive.pick (h : (node n op value freed l r).Alive) : (slot.pick l r).Alive := by
  cases slot
  · exact h.2.1
  · exact h.2.2

end Shape

namespace Shape.StandsIn

variable {n c : NodeId} {op : String} {value : Option (Value α)} {freed : Bool} {l r x : Shape α}
  {slot : Slot} {p : Option NodeId}

/-- A shape put into an empty place of another one. -/
theorem attach (hs : s.Linked) (h : (node n op value freed l r).StandsIn s none)
    (hx : x.StandsIn s none) (hc : x.root? = some c) (hne : n ≠ c)
    (hempty : slot.pick l r = missing) :
    ((node n op value freed l r).put slot x).StandsIn (s.attach n slot c) none := by
  have hchild : s.child? n slot = none := by rw [h.child?, hempty, root?_missing]
  have hnodup := h.nodup_of_root hs
  have hxnodup := hx.nodup_of_root hs
  have hdisj : ∀ m ∈ (node n op value freed l r).nodes, m ∉ x.nodes := fun m hm =>
    disjoint hs h hx (by simp [hc, hne]) hm
  -- of the two shapes only the cells of their roots change
  have hkept : ∀ m, m ≠ n → m ≠ c → (s.attach n slot c)[m]? = s[m]? := fun m =>
    getElem?_attach_of_ne hchild
  have hcell : (s.attach n slot c)[n]? =
      some ((⟨op, value, l.root?, r.root?, none, freed⟩ : Cell α).withChild slot (some c)) := by
    rw [getElem?_attach hchild hne, if_neg hne, if_pos rfl, h.1]
    rfl
  have hxstands : x.StandsIn (s.attach n slot c) (some n) := by
    cases x with
    | missing => trivial
    | node k op' value' freed' l' r' =>
      obtain rfl : k = c := Option.some.inj hc
      have hn : n ∉ (node k op' value' freed' l' r').nodes := hdisj n (by simp [nodes])
      simp only [nodes, List.mem_cons, List.mem_append, List.nodup_cons] at hn hxnodup
      refine ⟨?_, hx.2.1.congr fun m hm => hkept m ?_ ?_, hx.2.2.congr fun m hm => hkept m ?_ ?_⟩
      · rw [getElem?_attach hchild hne, if_pos rfl, hx.1]
        rfl
      all_goals
        rintro rfl
        tauto
  have hother : ∀ t : Shape α, t.StandsIn s (some n) → (∀ m ∈ t.nodes, m ∈ l.nodes ∨ m ∈ r.nodes) →
      t.StandsIn (s.attach n slot c) (some n) := by
    intro t ht hsub
    simp only [nodes, List.nodup_cons, List.mem_append] at hnodup
    refine ht.congr fun m hm => hkept m ?_ ?_
    · rintro rfl
      exact hnodup.1 (hsub m hm)
    · rintro rfl
      exact hdisj m (by simp [nodes, hsub m hm]) (root?_mem hc)
  cases slot with
  | left => exact ⟨by rw [hcell, ← hc]; rfl, hxstands, hother r h.2.2 fun m hm => .inr hm⟩
  | right => exact ⟨by rw [hcell, ← hc]; rfl, hother l h.2.1 fun m hm => .inl hm, hxstands⟩

/-- The root of a shape taken from its parent. -/
theorem detach_root (hx : x.StandsIn s p) (hnodup : x.nodes.Nodup) (hc : x.root? = some c)
    (hp : ∀ n ∈ p, n ∉ x.nodes) : x.StandsIn (s.detach c) none := by
  cases hpar : p with
  | none =>
    subst hpar
    rwa [Store.detach, hx.parent? hc]
  | some n =>
    subst hpar
    have hne : n ≠ c := fun he => hp n rfl (he ▸ root?_mem hc)
    cases x with
    | missing => trivial
    | node k op' value' freed' l' r' =>
      obtain rfl : k = c := Option.some.inj hc
      have hn := hp n rfl
      simp only [nodes, List.mem_cons, List.mem_append, List.nodup_cons] at hnodup hn
      have hkept : ∀ m, m ≠ k → m ≠ n → (s.detach k)[m]? = s[m]? := fun m hk hn =>
        getElem?_detach_of_ne hk (by simpa [hx.parent? rfl] using hn.symm)
      refine ⟨?_, hx.2.1.congr fun m hm => hkept m ?_ ?_, hx.2.2.congr fun m hm => hkept m ?_ ?_⟩
      · rw [getElem?_detach (hx.parent? rfl) hne, if_pos rfl, hx.1]
        rfl
      all_goals
        rintro rfl
        tauto

/-- What is left of a shape from which a part is taken. -/
theorem detach_part (hs : s.Linked) (h : (node n op value freed l r).StandsIn s p)
    (hnodup : (node n op value freed l r).nodes.Nodup) (hc : (slot.pick l r).root? = some c) :
    ((node n op value freed l r).put slot missing).StandsIn (s.detach c) p := by
  have hchild : s.child? n slot = some c := (h.child? slot).trans hc
  have hparent : s.parent? c = some n := hs.paired.parent hchild
  have hmem : c ∈ (slot.pick l r).nodes := root?_mem hc
  have hne : n ≠ c := fun he => not_mem_pick hnodup slot (he ▸ hmem)
  have hcell : (s.detach c)[n]? =
      some ((⟨op, value, l.root?, r.root?, p, freed⟩ : Cell α).withChild slot none) := by
    rw [getElem?_detach hparent hne, if_neg hne, if_pos rfl, h.1, hs.paired.slotIn_eq hchild]
    rfl
  have hother : ∀ t : Shape α, t.StandsIn s (some n) → n ∉ t.nodes → c ∉ t.nodes →
      t.StandsIn (s.detach c) (some n) := by
    intro t ht hn hc
    refine ht.congr fun m hm => getElem?_detach_of_ne (fun he => hc (he ▸ hm)) fun hp => hn ?_
    rwa [Option.some.inj (hparent.symm.trans hp)]
  cases slot with
  | left =>
    exact ⟨hcell, trivial, hother r h.2.2 (not_mem_pick hnodup .right) (disjoint_parts hnodup hmem)⟩
  | right =>
    exact ⟨hcell, hother l h.2.1 (not_mem_pick hnodup .left)
      fun hl => disjoint_parts hnodup hl hmem, trivial⟩

end Shape.StandsIn

/-! ## shapes that are made -/

namespace Shape

/-- From one store to another a shape was made of nodes that were moved and of new ones. -/
structure Made (A H : Set NodeId) (s s' : Store α) (t : Shape α) : Prop where
  frame : s.Frame A H s'
  stands : t.StandsIn s' none
  alive : t.Alive
  mem : ∀ m ∈ t.nodes, (m ∈ A ∨ s.length ≤ m) ∧ m ∉ H

namespace Made

variable {n c : NodeId} {op : String} {value : Option (Value α)} {freed : Bool} {l r x y : Shape α}
  {slot : Slot}

/-- What is made stays while other nodes move. -/
theorem after (hy : y.Made A H s s₁) (h : s₁.Frame B H s₂) (hB : ∀ m ∈ B, m ∈ A ∨ s.length ≤ m)
    (hdisj : ∀ m ∈ y.nodes, m ∉ B) : y.Made A H s s₂ where
  frame := hy.frame.trans h hB
  stands := hy.stands.congr fun m hm => h.cell m (hy.stands.lt hm) (hdisj m hm) (hy.mem m hm).2
  alive := hy.alive
  mem := hy.mem

/-- What is made after a first change is made over both. -/
theorem trans (h : s.Frame A H s₁) (hx : x.Made B H s₁ s₂) (hB : ∀ m ∈ B, m ∈ A ∨ s.length ≤ m) :
    x.Made A H s s₂ where
  frame := h.trans hx.frame hB
  stands := hx.stands
  alive := hx.alive
  mem m hm := ⟨(hx.mem m hm).1.elim (hB m) fun hle => .inr (h.length_le.trans hle), (hx.mem m hm).2⟩

theorem mono (hx : x.Made A H s s') (hAB : A ⊆ B) : x.Made B H s s' :=
  ⟨hx.frame.mono hAB, hx.stands, hx.alive, fun m hm => ⟨(hx.mem m hm).1.imp_left (@hAB m),
    (hx.mem m hm).2⟩⟩

theorem release (hx : x.Made A H s s') : x.Made (A ∪ H) ∅ s s' :=
  ⟨hx.frame.release, hx.stands, hx.alive, fun m hm => ⟨(hx.mem m hm).1.imp_left .inl, nofun⟩⟩

/-- What stands by itself can be moved. -/
theorem self (hs : s.Linked) (hx : x.StandsIn s none) (halive : x.Alive) :
    x.Made {m | m ∈ x.nodes} ∅ s s := ⟨.refl hs nofun, hx, halive, fun _ hm => ⟨.inl hm, nofun⟩⟩

theorem missing (h : s.Frame A H s') : Shape.missing.Made A H s s' := ⟨h, trivial, trivial, nofun⟩

/-- Two shapes that are made have different nodes. -/
theorem disjoint (hx : x.Made A H s s') (hy : y.Made A H s s') (hne : x.root? ≠ y.root?) :
    ∀ m ∈ x.nodes, m ∉ y.nodes := fun _ hm =>
  StandsIn.disjoint hx.frame.linked hx.stands hy.stands hne hm

/-- A new node without children. -/
theorem alloc (h : s.Frame A H s₁) (op : String) (value : Option (Value α)) :
    (node s₁.length op value false .missing .missing).Made A H s
      (s₁ ++ [⟨op, value, none, none, none, false⟩]) where
  frame := h.trans (Frame.append (A := ∅) h.linked
    (fun m hm => (h.holder_lt m hm).trans_le h.length_le) op value) nofun
  stands := ⟨by simp, trivial, trivial⟩
  alive := ⟨rfl, trivial, trivial⟩
  mem m hm := by
    obtain rfl : m = s₁.length := by simpa [nodes] using hm
    exact ⟨.inr h.length_le, fun hH =>
      Nat.lt_irrefl _ ((h.holder_lt _ hH).trans_le h.length_le)⟩

theorem after_alloc (hy : y.Made A H s s₁) (op : String) (value : Option (Value α)) :
    y.Made A H s (s₁ ++ [⟨op, value, none, none, none, false⟩]) :=
  hy.after (Frame.append (A := ∅) hy.frame.linked
    (fun m hm => (hy.frame.holder_lt m hm).trans_le hy.frame.length_le) op value) nofun nofun

/-- A change to no other nodes than those of a shape. -/
theorem frame_of_cells (h : x.Made A H s s₁) (hs : s₂.Linked) (hlength : s₂.length = s₁.length)
    (hcell : ∀ m, m ∉ x.nodes → s₂[m]? = s₁[m]?) : s₁.Frame {m | m ∈ x.nodes} H s₂ :=
  .of_cells hs hlength hcell fun m hm =>
    ⟨(h.frame.holder_lt m hm).trans_le h.frame.length_le, fun hx => (h.mem m hx).2 hm⟩

/-- A part taken from its place. -/
theorem cut (h : (node n op value freed l r).Made A H s s₁) (hc : (slot.pick l r).root? = some c) :
    ((node n op value freed l r).put slot .missing).Made A H s (s₁.detach c) ∧
      (slot.pick l r).Made A H s (s₁.detach c) ∧ n ∉ (slot.pick l r).nodes := by
  have hs := h.frame.linked
  have hnodup := h.stands.nodup_of_root hs
  have hchild : s₁.child? n slot = some c := (h.stands.child? slot).trans hc
  have hsub : ∀ m ∈ (slot.pick l r).nodes, m ∈ (Shape.node n op value freed l r).nodes :=
    fun m hm => (pick_nodes_sublist slot).subset hm
  have hn : n ∉ (slot.pick l r).nodes := not_mem_pick hnodup slot
  have hframe : s.Frame A H (s₁.detach c) := by
    refine h.frame.trans (h.frame_of_cells hs.detach length_detach fun m hm => ?_)
      fun m hm => (h.mem m hm).1
    refine getElem?_detach_of_ne (fun he => hm (he ▸ hsub c (root?_mem hc))) fun hp => hm ?_
    obtain rfl : n = m := Option.some.inj ((hs.paired.parent hchild).symm.trans hp)
    exact root?_mem rfl
  refine ⟨⟨hframe, h.stands.detach_part hs hnodup hc, h.alive.put trivial, fun m hm => ?_⟩,
    ⟨hframe, ?_, h.alive.pick, fun m hm => h.mem m (hsub m hm)⟩, hn⟩
  · exact (mem_nodes_put hm).elim (h.mem m) nofun
  · refine (h.stands.pick slot).detach_root (hnodup.sublist (pick_nodes_sublist slot)) hc ?_
    rintro _ ⟨⟩
    exact hn

/-- A part, if there is one, put into an empty place. -/
theorem put (h : (node n op value freed l r).Made A H s s₁) (hx : x.Made A H s s₁) (slot : Slot)
    (hne : x.root? ≠ some n) (hempty : slot.pick l r = .missing)
    (hleaf : IsLeafOp op → x = .missing) :
    ∃ s₂, exec (Storing.setChild? n slot x.root?) s₁ = (.ok ⟨⟩, s₂) ∧
      ((node n op value freed l r).put slot x).Made A H s s₂ ∧
      ∀ y : Shape α, y.Made A H s s₁ → y.root? ≠ some n → (y.root? = x.root? → y = .missing) →
        y.Made A H s s₂ := by
  cases hc : x.root? with
  | none =>
    obtain rfl := missing_of_root? hc
    exact ⟨s₁, rfl, (put_missing hempty).symm ▸ h, fun y hy _ _ => hy⟩
  | some c =>
    have hs := h.frame.linked
    have hnc : n ≠ c := fun he => hne (he ▸ hc)
    have hchild : s₁.child? n slot = none := by rw [h.stands.child?, hempty, root?_missing]
    have hop : ¬IsLeafOp op := fun hop => by simp [hleaf hop] at hc
    have haccepts : s₁.Accepts n c := by
      refine ⟨hx.stands.lt (root?_mem hc), hx.stands.parent? hc, h.stands.lt (root?_mem rfl), ?_⟩
      simpa [isLeaf, h.stands.1, Cell.isLeaf, IsLeafOp] using hop
    have hframe : s₁.Frame {n, c} H (s₁.attach n slot c) := by
      refine .of_cells (hs.attach haccepts.holder haccepts.child haccepts.free haccepts.inner)
        length_attach (fun m hm => ?_) fun m hm =>
          ⟨(h.frame.holder_lt m hm).trans_le h.frame.length_le, ?_⟩
      · exact getElem?_attach_of_ne hchild (fun he => hm (.inl he)) fun he => hm (.inr he)
      · rintro (rfl | rfl)
        · exact (h.mem _ (root?_mem rfl)).2 hm
        · exact (hx.mem _ (root?_mem hc)).2 hm
    have hold : ∀ m ∈ ({n, c} : Set NodeId), m ∈ A ∨ s.length ≤ m := by
      rintro m (rfl | rfl)
      · exact (h.mem _ (root?_mem rfl)).1
      · exact (hx.mem _ (root?_mem hc)).1
    refine ⟨s₁.attach n slot c, exec_bind_of_ok (Storing.exec_setChild haccepts slot) _, ?_, ?_⟩
    · refine ⟨h.frame.trans hframe hold, h.stands.attach hs hx.stands hc hnc hempty,
        h.alive.put hx.alive, fun m hm => ?_⟩
      exact (mem_nodes_put hm).elim (h.mem m) (hx.mem m)
    · intro y hy hyn hyc
      refine hy.after hframe hold fun m hm => ?_
      rintro (rfl | rfl)
      · exact hy.disjoint h hyn _ hm (root?_mem rfl)
      · refine hy.disjoint hx (fun he => ?_) _ hm (root?_mem hc)
        rw [hyc (he.trans hc)] at hm
        cases hm

/-- A new node and the parts below it. -/
theorem node (hl : l.Made A H s s₁) (hr : r.Made A H s s₁) (op : String)
    (value : Option (Value α)) (hne : r.root? = l.root? → r = .missing)
    (hleaf : IsLeafOp op → l = .missing ∧ r = .missing) :
    ∃ s₂, exec (Storing.node op value l.root? r.root?) s₁ = (.ok s₁.length, s₂) ∧
      (Shape.node s₁.length op value false l r).Made A H s s₂ := by
  have hnew : ∀ {y : Shape α}, y.Made A H s s₁ → y.root? ≠ some s₁.length := fun hy hroot =>
    Nat.lt_irrefl _ (hy.stands.lt (root?_mem hroot))
  obtain ⟨s₂, hleft, hn, hkept⟩ := (alloc hl.frame op value).put
    (hl.after_alloc op value) .left (hnew hl) rfl fun hop => (hleaf hop).1
  obtain ⟨s₃, hright, hn, -⟩ := hn.put
    (hkept r (hr.after_alloc op value) (hnew hr) hne) .right (hnew hr) rfl fun hop => (hleaf hop).2
  refine ⟨s₃, ?_, hn⟩
  rw [Storing.node, exec_bind_of_ok (Storing.exec_alloc op value), exec_bind_of_ok hleft,
    exec_bind_of_ok hright, exec_pure]

end Made

end Shape

end Fluxion

import Fluxion.Proofs.Store.Plant
import Fluxion.Proofs.Term.Linear

/-!
# Fluxion.Proofs.Store.Draft

Drafts are terms that own the nodes of their parts.

A draft stands for its sketch, and each part of it owns what stands in its place (`Draft.Ready`).  So
the rules of simplification do to drafts what they do to sketches, and use no node twice
(`Draft.linear`).  When a draft is carried out each part is still where it stood, as the parts before
it had other nodes (`Draft.yields_make`).
-/

namespace Fluxion

open Store

variable {α : Type}

/-- Every negation of a sketch has an operand. -/
def Sketch.Solid : Sketch α → Prop
  | .missing => True
  | .node op _ l r => (op = Expr.negName → r ≠ .missing) ∧ l.Solid ∧ r.Solid

theorem Sketch.node_ne_missing {op : String} {value : Option (Value α)} {l r : Sketch α} :
    Sketch.node op value l r ≠ .missing := nofun

namespace Draft

variable {s₀ s s₁ : Store α} {n m c : NodeId} {A B : Set NodeId} {d a : Draft α} {p : Site α}

/-- A node that is not missing stands in a place below another one, with nodes `A` of its own. -/
structure Holding (s : Store α) (A : Set NodeId) (holder : NodeId) (slot : Slot) (t : Shape α) :
    Prop where
  child : s.child? holder slot = t.root?
  present : t ≠ .missing
  stands : t.StandsIn s (some holder)
  nodup : t.nodes.Nodup
  apart : holder ∉ t.nodes
  owned : ∀ m ∈ t.nodes, m ∈ A
  solid : t.sketch.Solid
  alive : t.Alive

/-- The parts of a draft stand in places below `n` or below each other, and the draft owns `A`, of
which each of two operands has its own share. -/
def Ready (s : Store α) (n : NodeId) (A : Set NodeId) : Draft α → Prop
  | part p => p.store = s ∧ (p.holder = n ∨ p.holder ∈ A) ∧ ∃ t, Holding s A p.holder p.slot t
  | num _ => True
  | bin _ a b => ∃ B C, Disjoint B C ∧ B ∪ C ⊆ A ∧ Ready s n B a ∧ Ready s n C b
  | neg a | app _ a => Ready s n A a

/-- More nodes may be said to move. -/
theorem Holding.mono {t : Shape α} {h : NodeId} {slot : Slot} (ht : Holding s A h slot t)
    (hAB : A ⊆ B) : Holding s B h slot t :=
  { ht with owned := fun m hm => hAB (ht.owned m hm) }

/-- A draft that may move some nodes may move more. -/
theorem Ready.mono (h : Ready s n A d) (hAB : A ⊆ B) : Ready s n B d := by
  induction d generalizing A B with
  | part p =>
    obtain ⟨hstore, hholder, t, ht⟩ := h
    exact ⟨hstore, hholder.imp_right (@hAB _), t, ht.mono hAB⟩
  | num => trivial
  | bin op a b =>
    obtain ⟨C, D, hdisj, hsub, hab⟩ := h
    exact ⟨C, D, hdisj, hsub.trans hAB, hab⟩
  | neg a ih => exact ih h hAB
  | app f a ih => exact ih h hAB

/-- The sketch of a part. -/
theorem Holding.sketch_eq {t : Shape α} (ht : Holding p.store A p.holder p.slot t) :
    p.sketch = t.sketch := by
  obtain ⟨c, hc⟩ := Shape.exists_root_of_ne ht.present
  rw [Site.sketch, ht.child, hc]
  exact ht.stands.sketch_eq ht.nodup hc

/-- What stands on the right of a part. -/
theorem Holding.right {h : NodeId} {slot : Slot} {op : String} {value : Option (Value α)}
    {freed : Bool} {l r : Shape α} (ht : Holding s A h slot (.node c op value freed l r))
    (hr : r ≠ .missing) : Holding s A c .right r where
  child := ht.stands.child? .right
  present := hr
  stands := ht.stands.2.2
  nodup := ht.nodup.sublist (Shape.pick_nodes_sublist .right)
  apart := Shape.not_mem_pick ht.nodup .right
  owned m hm := ht.owned m (by simp [Shape.nodes, hm])
  solid := ht.solid.2.2
  alive := ht.alive.2.2

theorem viewOf_map {β γ : Type} (f : β → γ) (op : String) (value : Option (Value α)) (x : β) :
    Sketch.viewOf op value (f x) = (Sketch.viewOf op value x).map f := by
  unfold Sketch.viewOf
  split
  · split <;> rfl
  · split <;> rfl

theorem viewOf_eq_negation {β : Type} {op : String} {value : Option (Value α)} {x y : β}
    (h : Sketch.viewOf op value x = .negation y) : op = Expr.negName ∧ y = x := by
  unfold Sketch.viewOf at h
  split at h
  · split at h <;> cases h
  · split at h
    · cases h
      exact ⟨‹_›, rfl⟩
    · cases h

/-- What a rule sees of a part is what it sees of the sketch, and the operand of a negation is owned
by the part. -/
theorem Ready.viewPart (h : Ready s n A (part p)) :
    (part p).sketch.view = (viewPart p).map Draft.sketch ∧
      ∀ x, viewPart p = .negation x → Ready s n A x := by
  obtain ⟨rfl, -, t, ht⟩ := h
  cases t with
  | missing => exact absurd rfl ht.present
  | node c op value freed l r =>
    have hview : Draft.viewPart p = Sketch.viewOf op value (part ⟨p.store, c, .right⟩) := by
      simp [Draft.viewPart, ht.child, ht.stands.1]
    have hsketch : (part ⟨p.store, c, .right⟩ : Draft α).sketch = r.sketch := by
      by_cases hr : r = .missing
      · simp [Draft.sketch, Site.sketch, ht.stands.child? .right, Slot.pick, hr, Shape.sketch]
      · exact (ht.right hr).sketch_eq
    rw [hview]
    constructor
    · rw [Draft.sketch, ht.sketch_eq, ← viewOf_map, hsketch]
      rfl
    · intro x hx
      obtain ⟨hop, rfl⟩ := viewOf_eq_negation hx
      have hr : r ≠ .missing := fun hr => ht.solid.1 hop (by rw [hr]; rfl)
      exact ⟨rfl, .inr (ht.owned c (by simp [Shape.nodes])), r, ht.right hr⟩

/-- Drafts are put together as their sketches are. -/
theorem linear [BEq α] (s : Store α) (n : NodeId) : Term.Linear Draft.sketch (Ready s n) where
  map_num _ := rfl
  map_bin _ _ _ := rfl
  map_neg _ := rfl
  map_app _ _ := rfl
  same_eq _ _ := rfl
  view_eq := by
    intro A a h
    cases a with
    | part p => exact h.viewPart.1
    | num v => rfl
    | bin op a b => cases op <;> rfl
    | neg a => rfl
    | app f a => cases f <;> rfl
  operand := by
    intro A a x h hv
    cases a with
    | part p => exact h.viewPart.2 x hv
    | num v => cases hv
    | bin op a b => cases hv
    | neg a =>
      cases hv
      exact h
    | app f a => cases hv
  mono := Ready.mono
  num _ := trivial
  bin _ ha hb hdisj := ⟨_, _, hdisj, subset_rfl, ha, hb⟩
  neg h := h
  app _ h := h

/-! ## drafts carried out -/

/-- Taking a part from its place makes it a root. -/
theorem yields_part (h : Ready s₀ n A (part p)) (hn : n ∉ A) (hlt : ∀ m ∈ A, m < s₀.length)
    (hs : s₀.Frame B {n} s) (hdisj : ∀ m ∈ A, m ∉ B) :
    Storing.Yields A {n} s (part p).make (.ok (part p).sketch) := by
  obtain ⟨rfl, hholder, t, ht⟩ := h
  obtain ⟨c, hc⟩ := Shape.exists_root_of_ne ht.present
  have hcA : c ∈ A := ht.owned c (Shape.root?_mem hc)
  -- the part is still where it stood
  have hcell : ∀ m ∈ A, s[m]? = p.store[m]? := fun m hm =>
    hs.cell m (hlt m hm) (hdisj m hm) fun he => hn (he ▸ hm)
  have hstands : t.StandsIn s (some p.holder) := ht.stands.congr fun m hm => hcell m (ht.owned m hm)
  have hchild : s.child? p.holder p.slot = some c := by
    rcases hholder with hholder | hholder
    · have := hs.holder_child n rfl p.slot c (hlt c hcA) (hdisj c hcA)
      rw [← hholder, ht.child] at this
      exact this hc
    · rw [child?, hcell _ hholder, ← child?, ht.child, hc]
  have hparent : s.parent? c = some p.holder := hstands.parent? hc
  refine ⟨c, s.detach c, t, ?_, hc, ht.sketch_eq.symm, ?_⟩
  · rw [make, Storing.take, exec_bind_of_ok (Storing.exec_ask _), hchild]
    rfl
  · refine ⟨⟨hs.linked.detach, length_detach.ge, fun m _ hmA hmn => ?_, fun m hm => ?_,
      fun m hm => ?_, fun m hm slot k _ hk hchild => ?_⟩, hstands.detach_root ht.nodup hc ?_, ht.alive,
      fun m hm => ⟨.inl (ht.owned m hm), fun he => hn (he ▸ ht.owned m hm)⟩⟩
    · refine getElem?_detach_of_ne (fun he => hmA (he ▸ hcA)) fun hp => ?_
      obtain rfl : p.holder = m := Option.some.inj (hparent.symm.trans hp)
      exact hholder.elim hmn hmA
    · exact (hs.holder_lt m hm).trans_le hs.length_le
    · rw [parent?_detach, if_neg]
      rintro rfl
      exact hn (hm ▸ hcA)
    · rw [hs.linked.paired.child?_detach, if_neg, hchild]
      rw [hchild]
      rintro ⟨⟩
      exact hk hcA
    · rintro _ ⟨⟩
      exact ht.apart

/-- A draft can be carried out as long as only other nodes have moved.  It moves the nodes that it
owns, and comes to the nodes of its sketch. -/
theorem yields_make (h : d.Ready s₀ n A) (hn : n ∉ A) (hlt : ∀ m ∈ A, m < s₀.length)
    (hs : s₀.Frame B {n} s) (hdisj : ∀ m ∈ A, m ∉ B) :
    Storing.Yields A {n} s d.make (.ok d.sketch) := by
  induction d generalizing A B s with
  | part p => exact yields_part h hn hlt hs hdisj
  | num v =>
    refine Storing.yields_num (.refl hs.linked ?_) v
    exact fun m hm => (hs.holder_lt m hm).trans_le hs.length_le
  | bin op a b iha ihb =>
    obtain ⟨C, D, hCD, hsub, ha, hb⟩ := h
    have hC : ∀ m ∈ C, m ∈ A := fun m hm => hsub (.inl hm)
    have hD : ∀ m ∈ D, m ∈ A := fun m hm => hsub (.inr hm)
    have hCD : ∀ m ∈ C, m ∉ D := fun m hm => Set.disjoint_left.mp hCD hm
    have hleft := iha ha (fun hm => hn (hC n hm)) (fun m hm => hlt m (hC m hm)) hs
      fun m hm => hdisj m (hC m hm)
    have hright : ∀ s₁, s.Frame C {n} s₁ → Storing.Yields D {n} s₁ b.make (.ok b.sketch) := by
      intro s₁ h₁
      refine ihb hb (fun hm => hn (hD n hm)) (fun m hm => hlt m (hD m hm)) (B := B ∪ C) ?_ ?_
      · exact (hs.mono Set.subset_union_left).trans h₁ fun m hm => .inl (.inr hm)
      · rintro m hm (hmB | hmC)
        · exact hdisj m (hD m hm) hmB
        · exact hCD m hmC hm
    have hbin : Storing.Yields (C ∪ D) {n} s (Term.bin op a.make b.make)
        (Term.bin op (.ok a.sketch) (.ok b.sketch)) :=
      hleft.bin hright op hCD fun m hm => (hlt m (hD m hm)).trans_le hs.length_le
    exact hbin.mono hsub
  | neg a ih => exact (ih h hn hlt hs hdisj).neg
  | app f a ih => exact (ih h hn hlt hs hdisj).app f

end Draft

end Fluxion

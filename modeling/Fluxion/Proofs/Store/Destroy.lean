import Fluxion.Proofs.Store.Acyclic

/-!
# Fluxion.Proofs.Store.Destroy

What is left of a store when a node is taken apart with all below it.

Nodes are given up one after the other, and when it is a node's turn all below it have had theirs
(`Store.Orderly`).  So each has no children left when it is given up, and no call fails.  The order
is the reverse of that in which a loop with a stack meets the nodes (`Store.Unstacks`).  Links may
go round in a circle: a node that was taken from its parent is on none.

* `Store.Clears`: a store after some of its nodes were given up;
* `Storing.exec_destroy`: taking a node apart always succeeds, and gives up the nodes below it;
* `Storing.destroy_takesApart`: the loop ends, and the links that are left are the other ones.
-/

namespace Fluxion

open Relation

variable {α : Type}

namespace Store

variable {s s' s₁ : Store α} {n m : NodeId} {slot : Slot} {D : Set NodeId}

/-- A store is another one after some of its nodes were given up: the links to and from them are
gone, and cells without such links are as before. -/
structure Clears (s₁ s : Store α) (D : Set NodeId) : Prop where
  paired : s.Paired
  length : s.length = s₁.length
  child_iff : ∀ n slot c, s.child? n slot = some c ↔ s₁.child? n slot = some c ∧ c ∉ D
  parent_iff : ∀ n p, s.parent? n = some p ↔ s₁.parent? n = some p ∧ n ∉ D
  cell : ∀ n, n ∉ D → (∀ slot c, s₁.child? n slot = some c → c ∉ D) → s[n]? = s₁[n]?

theorem clears_empty (h : s.Paired) : s.Clears s ∅ where
  paired := h
  length := rfl
  child_iff := by simp
  parent_iff := by simp
  cell _ _ _ := rfl

/-- One more node is given up, after its children. -/
theorem Clears.insert (h : s₁.Clears s D) (hn : ∀ slot c, s₁.child? n slot = some c → c ∈ D) :
    s₁.Clears ((s.detach n).giveUp n) (insert n D) where
  paired := h.paired.detach.giveUp (by simp [parent?_detach])
  length := by simp [h.length]
  child_iff m slot c := by
    rw [child?_giveUp, h.paired.child?_detach]
    have := h.child_iff m slot c
    grind
  parent_iff m p := by
    rw [parent?_giveUp, parent?_detach]
    have := h.parent_iff m p
    grind
  cell m hm hchild := by
    have hmn : m ≠ n := fun he => hm (he ▸ Set.mem_insert n D)
    have hkept : s[m]? = s₁[m]? :=
      h.cell m (fun hD => hm (.inr hD)) fun slot c hc hD => hchild slot c hc (.inr hD)
    rw [getElem?_giveUp, if_neg hmn]
    cases hp : s.parent? n with
    | none => simpa [detach, hp] using hkept
    | some p =>
      have hchildp := (h.child_iff p _ n).mp (h.paired.child_slotIn hp)
      have hpn : p ≠ n := fun he => hchildp.2 (hn _ n (he ▸ hchildp.1))
      have hmp : m ≠ p := fun he => hchild _ n (he ▸ hchildp.1) (.inl rfl)
      rw [getElem?_detach hp hpn, if_neg hmn, if_neg hmp, hkept]

/-- Each node of a list comes before its children. -/
def Orderly (s : Store α) : List NodeId → Prop
  | [] => True
  | n :: ns => n < s.length ∧ (∀ slot c, s.child? n slot = some c → c ∈ ns) ∧ Orderly s ns

theorem Orderly.append {ns ms : List NodeId} (hn : s.Orderly ns) (hm : s.Orderly ms) :
    s.Orderly (ns ++ ms) := by
  induction ns with
  | nil => exact hm
  | cons n ns ih =>
    exact ⟨hn.1, fun slot c hc => List.mem_append_left _ (hn.2.1 slot c hc), ih hn.2.2⟩

/-- All nodes below a node are listed, each before its children. -/
theorem Paired.below_spec (hs : s.Paired) {depth : Nat} (h : s.Rooted n) (hn : n < s.length)
    (hdepth : s.rank n ≤ depth) :
    s.Orderly (s.below depth n) ∧ ∀ m, m ∈ s.below depth n ↔ s.Below n m := by
  induction depth generalizing n with
  | zero =>
    have hnone := hs.child?_of_rank_le h hdepth
    refine ⟨⟨hn, fun slot c hc => by simp [hnone] at hc, trivial⟩, fun m => ?_⟩
    rw [Below, ReflTransGen.cases_head_iff]
    simp [below, Holds, hnone, eq_comm]
  | succ depth ih =>
    have hpart : ∀ slot : Slot,
        s.Orderly (((s.child? n slot).map (s.below depth)).getD []) ∧
        ∀ m, m ∈ ((s.child? n slot).map (s.below depth)).getD [] ↔
          ∃ c, s.child? n slot = some c ∧ s.Below c m := by
      intro slot
      cases hc : s.child? n slot with
      | none => simp [Orderly]
      | some c =>
        have hrank := hs.rank_child h ⟨slot, hc⟩
        simpa using ih (h.child ⟨slot, hc⟩) (hs.holds_lt ⟨slot, hc⟩).2 (by omega)
    refine ⟨⟨hn, fun slot c hc => ?_, (hpart .right).1.append (hpart .left).1⟩, fun m => ?_⟩
    · have hmem := ((hpart slot).2 c).mpr ⟨c, hc, .refl⟩
      cases slot
      · exact List.mem_append_right _ hmem
      · exact List.mem_append_left _ hmem
    · rw [Below, ReflTransGen.cases_head_iff]
      simp only [below, List.mem_cons, List.mem_append, (hpart _).2, Holds]
      constructor
      · rintro (rfl | ⟨c, hc, hm⟩ | ⟨c, hc, hm⟩)
        · exact .inl rfl
        · exact .inr ⟨c, ⟨_, hc⟩, hm⟩
        · exact .inr ⟨c, ⟨_, hc⟩, hm⟩
      · rintro (rfl | ⟨c, ⟨_ | _, hc⟩, hm⟩)
        · exact .inl rfl
        · exact .inr (.inr ⟨c, hc, hm⟩)
        · exact .inr (.inl ⟨c, hc, hm⟩)

/-- A loop that takes a node from a stack, and then puts its left and its right child on the stack,
ends after it has taken these nodes. -/
inductive Unstacks (s : Store α) : List NodeId → List NodeId → Prop where
  | done : Unstacks s [] []
  | take {n : NodeId} {stack order : List NodeId}
      (h : Unstacks s ((s.child? n .right).toList ++ ((s.child? n .left).toList ++ stack)) order) :
      Unstacks s (n :: stack) (n :: order)

/-- The loop takes what is below a node before it goes on with the rest of the stack. -/
theorem Paired.unstacks_below (hs : s.Paired) {depth : Nat} (h : s.Rooted n)
    (hdepth : s.rank n ≤ depth) {stack order : List NodeId} (hrest : s.Unstacks stack order) :
    s.Unstacks (n :: stack) (s.below depth n ++ order) := by
  induction depth generalizing n stack order with
  | zero => exact .take (by simpa [hs.child?_of_rank_le h hdepth] using hrest)
  | succ depth ih =>
    have hpart : ∀ slot {stack order}, s.Unstacks stack order →
        s.Unstacks ((s.child? n slot).toList ++ stack)
          (((s.child? n slot).map (s.below depth)).getD [] ++ order) := by
      intro slot stack order hrest
      cases hc : s.child? n slot with
      | none => simpa using hrest
      | some c =>
        have hrank := hs.rank_child h ⟨slot, hc⟩
        simpa using ih (h.child ⟨slot, hc⟩) (by omega) hrest
    exact .take (by simpa [below] using hpart .right (hpart .left hrest))

/-- A node was taken apart with all below it. -/
structure TakenApart (s : Store α) (n : NodeId) (s' : Store α) : Prop where
  /-- what is below the node once it is taken from its parent has no links left -/
  freed : ∀ m, (s.detach n).Below n m → s'.parent? m = none ∧ ∀ slot, s'.child? m slot = none
  /-- the place of the node below its parent is empty -/
  place : ∀ p slot, s.child? p slot = some n → s'.child? p slot = none
  /-- all other links are as before -/
  kept : ∀ m, ¬(s.detach n).Below n m → s'.parent? m = s.parent? m ∧
    ∀ slot, s.child? m slot ≠ some n → s'.child? m slot = s.child? m slot

theorem Clears.takenApart (hs : s.Paired) (h : (s.detach n).Clears s' {m | (s.detach n).Below n m}) :
    s.TakenApart n s' where
  freed m hm := by
    refine ⟨Option.eq_none_iff_forall_ne_some.mpr fun p hp => ?_, fun slot =>
      Option.eq_none_iff_forall_ne_some.mpr fun c hc => ?_⟩
    · exact ((h.parent_iff m p).mp hp).2 hm
    · obtain ⟨hchild, hbelow⟩ := (h.child_iff m slot c).mp hc
      exact hbelow (hm.tail ⟨slot, hchild⟩)
  place p slot hp := by
    refine Option.eq_none_iff_forall_ne_some.mpr fun c hc => ?_
    have hchild := ((h.child_iff p slot c).mp hc).1
    simp [hs.child?_detach, hp] at hchild
  kept m hm := by
    have hmn : m ≠ n := fun he => hm (he ▸ .refl)
    refine ⟨Option.ext fun p => ?_, fun slot hslot => Option.ext fun c => ?_⟩
    · rw [h.parent_iff, parent?_detach, if_neg hmn]
      exact and_iff_left hm
    · rw [h.child_iff, hs.child?_detach, if_neg hslot]
      refine and_iff_left_of_imp fun hc hbelow => ?_
      -- what holds a node below the one taken apart is below that one itself
      have hholds : (s.detach n).Holds m c := ⟨slot, by rw [hs.child?_detach, if_neg hslot, hc]⟩
      rcases hbelow.cases_tail with rfl | ⟨p, hp, hpc⟩
      · exact hslot hc
      · exact hm (hs.detach.holder_unique hpc hholds ▸ hp)

end Store

namespace Storing

open Store

variable {s s₁ : Store α} {n : NodeId}

/-- Nodes given up one after the other, children before their parents. -/
theorem exec_giveUp_all {ns : List NodeId} (hs : s.Paired) (h : s.Orderly ns) :
    ∃ s', exec (ns.reverse.forM fun m => do detach m; free m) s = (.ok ⟨⟩, s') ∧
      s.Clears s' {m | m ∈ ns} := by
  induction ns with
  | nil => exact ⟨s, rfl, by simpa using clears_empty hs⟩
  | cons n ns ih =>
    obtain ⟨s', hexec, hclears⟩ := ih h.2.2
    have hchild : ∀ slot, (s'.detach n).child? n slot = none := by
      intro slot
      rw [hclears.paired.child?_detach]
      cases hc : s'.child? n slot with
      | none => simp
      | some c =>
        have := (hclears.child_iff n slot c).mp hc
        exact absurd (h.2.1 slot c this.1) this.2
    have hlt : n < (s'.detach n).length := by simpa [hclears.length] using h.1
    have hset : {m | m ∈ n :: ns} = insert n {m | m ∈ ns} := by
      ext m
      simp
    refine ⟨(s'.detach n).giveUp n, ?_, hset ▸ hclears.insert h.2.1⟩
    rw [List.forM_eq_forM] at hexec
    rw [List.forM_eq_forM, List.reverse_cons, List.forM_append, exec_bind_of_ok hexec]
    simp [exec_bind, exec_free hlt hchild]

/-- Taking a node apart always succeeds. -/
theorem exec_destroy (hs : s.Paired) (hn : n < s.length) :
    ∃ s', exec (destroy n) s = (.ok ⟨⟩, s') ∧
      (s.detach n).Clears s' {m | (s.detach n).Below n m} := by
  have hroot : (s.detach n).Rooted n := rooted_of_parent (by simp [parent?_detach])
  have hlt : n < (s.detach n).length := by simpa using hn
  obtain ⟨horderly, hmem⟩ := hs.detach.below_spec hroot hlt rank_le
  obtain ⟨s', hexec, hclears⟩ := exec_giveUp_all hs.detach horderly
  have hset : {m | m ∈ (s.detach n).below (s.detach n).length n} = {m | (s.detach n).Below n m} :=
    Set.ext hmem
  refine ⟨s', ?_, hset ▸ hclears⟩
  rw [destroy, exec_bind_of_ok exec_detach, exec_bind_of_ok (exec_ask _)]
  exact hexec

/-- **Taking a node apart always ends, and takes apart what is below it and nothing else.**  This
holds in every store with links in pairs, also if some of them go round in a circle. -/
theorem destroy_takesApart (hs : s.Paired) (hn : n < s.length) :
    ∃ s', exec (destroy n) s = (.ok ⟨⟩, s') ∧
      (s.detach n).Unstacks [n] ((s.detach n).below (s.detach n).length n) ∧ s.TakenApart n s' := by
  obtain ⟨s', hexec, hclears⟩ := exec_destroy hs hn
  have hroot : (s.detach n).Rooted n := rooted_of_parent (by simp [parent?_detach])
  refine ⟨s', hexec, ?_, hclears.takenApart hs⟩
  simpa using hs.detach.unstacks_below hroot rank_le .done

/-- A node on a circle with another one. -/
theorem destroy_takesApart_circle :
    let s : Store Float := reached [.node "neg" none none none, .node "neg" none none (some 0),
      .setChild 0 .right 1]
    s.Holds 0 1 ∧ s.Holds 1 0 ∧ ∃ s', exec (destroy 1) s = (.ok ⟨⟩, s') ∧
      (s.detach 1).Unstacks [1] ((s.detach 1).below (s.detach 1).length 1) ∧ s.TakenApart 1 s' :=
  ⟨⟨.right, rfl⟩, ⟨.right, rfl⟩, destroy_takesApart (linked_reached _).paired (by decide)⟩

/-- Taking a root apart leaves all as it is that does not stand below it. -/
theorem exec_destroy_root (hs : s.Linked) (hn : n < s.length) (hroot : s.parent? n = none) :
    ∃ s', exec (destroy n) s = (.ok ⟨⟩, s') ∧ s'.Linked ∧ s'.length = s.length ∧
      ∀ m, ¬s.Below n m → s'[m]? = s[m]? := by
  have hdetach : s.detach n = s := by simp [Store.detach, hroot]
  obtain ⟨s', hexec, hclears⟩ := exec_destroy hs.paired hn
  have hlinked := (keeps_destroy stable_linked n).exec hs
  rw [hexec] at hlinked
  rw [hdetach] at hclears
  refine ⟨s', hexec, hlinked, hclears.length, fun m hm => hclears.cell m hm ?_⟩
  -- what holds a node below the root is below the root itself
  intro slot c hc hbelow
  rcases hbelow.cases_tail with rfl | ⟨p, hp, hpc⟩
  · simp [hs.paired.parent hc] at hroot
  · exact hm (hs.paired.holder_unique hpc ⟨slot, hc⟩ ▸ hp)

end Storing

end Fluxion

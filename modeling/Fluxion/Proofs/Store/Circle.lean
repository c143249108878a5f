import Fluxion.Proofs.Store.Order

/-!
# Fluxion.Proofs.Store.Circle

Whether links go round in a circle, and what comes to an end if they do not.

A node without a parent can be put below any node that is no leaf, itself and those below it
included, so a circle can be closed (`circle_reached`).  A store stays free of circles exactly as long
as no call does that, and then every recursion over children and every way through the nodes comes to
an end (`acyclic_reached`).
-/

namespace Fluxion

open Relation Store

variable {α : Type} {s : Store α}

namespace Store

/-- Recursions and loops over the links of a store come to an end. -/
structure Terminates (s : Store α) : Prop where
  /-- going from a node to its children -/
  down : WellFounded fun c n => s.Holds n c
  /-- going from a node to its parent -/
  up : WellFounded fun p n => s.parent? n = some p
  /-- a way down on one side is complete after as many steps as there are nodes -/
  outermost : ∀ slot n, s.child? (s.outermost slot s.length n) slot = none
  /-- what stands below a node is seen in full at a depth of as many nodes as there are -/
  sketch : ∀ n, n < s.length → ∀ depth, s.length ≤ depth →
    s.sketchTo (fun _ => none) depth (some n) = s.sketch n
  /-- going from a node to the next one in order -/
  next : WellFounded fun m n => s.next? n = some m
  /-- going from a node to the one before it in order -/
  prev : WellFounded fun m n => s.prev? n = some m

theorem Linked.acc_beside (hs : s.Linked) {n : NodeId} (h : s.Rooted n) (hn : n < s.length)
    (slot : Slot) : Acc (fun m n => s.beside slot n = some m) n := by
  obtain ⟨r, hr, hbelow⟩ := h
  have hlt : r < s.length := by
    rcases hbelow.cases_head with rfl | ⟨c, hc, -⟩
    · exact hn
    · exact (hs.paired.holds_lt hc).1
  obtain ⟨t, ht, hstands⟩ := hs.exists_shape (rooted_of_parent hr) hlt
  rw [hr] at hstands
  exact (hstands.leads_none (hstands.nodup_of_root hs)).acc
    (Shape.mem_towards.mpr ((hstands.mem_iff ht).mpr hbelow))

theorem Acyclic.wellFounded_beside (hs : s.Linked) (h : s.Acyclic) (slot : Slot) :
    WellFounded fun m n => s.beside slot n = some m := by
  refine ⟨fun n => ?_⟩
  by_cases hn : n < s.length
  · exact hs.acc_beside (h.rooted hs.paired n) hn slot
  · have hcell : s[n]? = none := List.getElem?_eq_none (Nat.le_of_not_lt hn)
    have hnone : s.beside slot n = none := by simp [beside, child?, climb, parent?, hcell]
    exact ⟨_, fun m hm => by simp [hnone] at hm⟩

/-- Without circles recursions and loops come to an end. -/
theorem Acyclic.terminates (hs : s.Linked) (h : s.Acyclic) : s.Terminates where
  down := h.wellFounded_holds hs.paired
  up := h.wellFounded_parent hs.paired
  outermost slot n := hs.paired.child?_outermost slot (h.rooted hs.paired n) rank_le
  sketch n hn depth hdepth := by
    obtain ⟨t, ht, hstands⟩ := hs.exists_shape (h.rooted hs.paired n) hn
    have hnodup := hstands.nodup hs fun m _ => h.rooted hs.paired m
    rw [hstands.sketch_eq hnodup ht, ← ht]
    exact hstands.sketchTo_eq ((hstands.length_nodes_le hnodup).trans hdepth)
  next := by simpa only [next?_eq] using h.wellFounded_beside hs .right
  prev := by simpa only [prev?_eq] using h.wellFounded_beside hs .left

end Store

/-- The stores that calls lead through are all without circles exactly if no call puts a node below
itself; and in a store without circles recursions and loops come to an end. -/
theorem acyclic_reached (calls : List (Call α)) :
    ((∀ before, before <+: calls → (reached before).Acyclic) ↔
      ∀ before call, before ++ [call] <+: calls → ¬(reached before).Closes call) ∧
    ((reached calls).Acyclic → (reached calls).Terminates) := by
  have hlinked : ∀ before : List (Call α), (reached before).Linked :=
    reached_induction .nil fun _ call h => h.after call
  have hstep : ∀ before call, (reached (before ++ [call]) : Store α) = (reached before).after call :=
    fun before call => by simp [reached, List.foldl_append]
  refine ⟨⟨fun h before call hcalls => ?_, fun h before => ?_⟩, (·.terminates (hlinked calls))⟩
  · have hbefore := h before ((List.prefix_append before [call]).trans hcalls)
    have hafter := h _ hcalls
    rw [hstep] at hafter
    exact (acyclic_after_iff (hlinked before) hbefore call).mp hafter
  · induction before using List.reverseRecOn with
    | nil => exact fun _ => acyclic_nil
    | append_singleton before call ih =>
      intro hcalls
      have hbefore := ih ((List.prefix_append before [call]).trans hcalls)
      rw [hstep]
      exact (acyclic_after_iff (hlinked before) hbefore call).mpr (h before call hcalls)

/-- A node can be put below itself. -/
theorem circle_reached :
    ¬(reached [.node "neg" none none none, .setChild 0 .right 0] : Store Float).Acyclic := by
  have hself : (reached [.node "neg" none none none, .setChild 0 .right 0] : Store Float).Holds 0 0 :=
    ⟨.right, rfl⟩
  exact fun h => h 0 (.single hself)

end Fluxion

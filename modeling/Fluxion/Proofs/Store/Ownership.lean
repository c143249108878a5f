import Fluxion.Failure
import Fluxion.Proofs.Store.Derivative
import Fluxion.Proofs.Store.Rewriting

/-!
# Fluxion.Proofs.Store.Ownership

What rewriting does to the nodes of a tree: nothing.

Derivatives, substitutions and simplified forms are trees of new nodes.  None of the calls that make
them fails for the way in which nodes are linked, and none leaves a mark on a node that was there
before, whether it fails or not.

* `Tree.WellFormed`: a tree of nodes that nobody else owns;
* `Tree.discreet_differentiate`, `Tree.discreet_substitute`, `Tree.discreet_simplify`: the calls that
  rewrite a tree.
-/

namespace Fluxion

open Relation Store

variable {α : Type} {s s' s₁ : Store α} {t : Tree} {n : NodeId}

/-- A tree whose root nobody owns, in a store with links in pairs that do not go round in a circle
below the root. -/
structure Tree.WellFormed (s : Store α) (t : Tree) (n : NodeId) : Prop where
  linked : s.Linked
  root : t.root = some n
  root_lt : n < s.length
  unowned : s.parent? n = none
  acyclic : ∀ m, s.Below n m → ¬TransGen s.Holds m m

/-- A call on a tree leaves all nodes that there are alone.  It does not fail for the way in which
nodes are linked, and the tree that it comes to is well-formed and consists of new nodes, none of
which was given up. -/
structure Discreet (s : Store α) (outcome : Except Failure Tree) (s' : Store α) : Prop where
  failure : ∀ f, outcome = .error f → f.kind ≠ .structural
  linked : s'.Linked
  kept : ∀ m < s.length, s'[m]? = s[m]?
  result : ∀ t, outcome = .ok t → ∃ n, t.WellFormed s' n ∧
    ∀ m, s'.Below n m → s.length ≤ m ∧ ∃ c, s'[m]? = some c ∧ c.freed = false

/-- Nodes that are made before a call on others are new as well. -/
theorem Discreet.trans {outcome : Except Failure Tree} (h : Discreet s₁ outcome s')
    (hs : s.Frame ∅ ∅ s₁) : Discreet s outcome s' where
  failure := h.failure
  linked := h.linked
  kept m hm := (h.kept m (hm.trans_le hs.length_le)).trans (hs.cell m hm nofun nofun)
  result t ht := (h.result t ht).imp fun _ hn =>
    ⟨hn.1, fun m hm => ⟨hs.length_le.trans (hn.2 m hm).1, (hn.2 m hm).2⟩⟩

/-- No node of a living shape was given up. -/
theorem Shape.StandsIn.not_freed {u : Shape α} {p : Option NodeId} (h : u.StandsIn s p)
    (halive : u.Alive) {m : NodeId} (hm : m ∈ u.nodes) : ∃ c, s[m]? = some c ∧ c.freed = false := by
  induction u generalizing p with
  | missing => cases hm
  | node k op value freed l r ihl ihr =>
    simp only [nodes, List.mem_cons, List.mem_append] at hm
    rcases hm with rfl | hm | hm
    · exact ⟨_, h.1, halive.1⟩
    · exact ihl h.2.1 halive.2.1 hm
    · exact ihr h.2.2 halive.2.2 hm

/-- A tree whose nodes stand below a root that nobody owns. -/
theorem Tree.wellFormed_of_stands (hs : s.Linked) {u : Shape α} (hu : u.StandsIn s none)
    (hn : u.root? = some n) (ht : t.root = some n) : t.WellFormed s n where
  linked := hs
  root := ht
  root_lt := hu.lt (Shape.root?_mem hn)
  unowned := hu.parent? hn
  acyclic _ hm := hs.paired.not_transGen ⟨n, hu.parent? hn, hm⟩

/-- A tree of nodes that were made. -/
theorem discreet_of_made {u : Shape α} (hu : u.Made ∅ ∅ s s') (hn : u.root? = some n) (t : Tree) :
    Discreet s (.ok { t with root := some n }) s' where
  failure := nofun
  linked := hu.frame.linked
  kept m hm := hu.frame.cell m hm nofun nofun
  result := by
    rintro _ ⟨⟩
    refine ⟨n, Tree.wellFormed_of_stands hu.frame.linked hu.stands hn rfl, fun m hm => ?_⟩
    have hmem := (hu.stands.mem_iff hn).mpr hm
    exact ⟨(hu.mem m hmem).1.resolve_left nofun, hu.stands.not_freed hu.alive hmem⟩

/-- A failure that is not one of links, after which no node is changed. -/
theorem discreet_of_error {f : Failure} (hs : s.Frame ∅ ∅ s') (hf : f.kind ≠ .structural) :
    Discreet s (.error f) s' where
  failure := by
    rintro _ ⟨⟩
    exact hf
  linked := hs.linked
  kept m hm := hs.cell m hm nofun nofun
  result := nofun

/-- To lack something is not a failure of links. -/
theorem NodeError.IsLack.kind_ne {e : NodeError} (h : e.IsLack) :
    (Failure.ofNode e).kind ≠ .structural := by
  cases e <;> first | exact h.elim | exact nofun

/-- A rewriting that lacks something, or is degenerate, is not a failure of links. -/
theorem RewriteError.IsLack.kind_ne [Numeral α] {e : RewriteError α (Sketch α)} (h : e.IsLack) :
    (Failure.ofSketch e).kind ≠ .structural := by
  cases e with
  | node e => exact NodeError.IsLack.kind_ne h
  | simplify e => cases e with
    | degenerate d => exact nofun
    | fault f => cases f <;> exact nofun

namespace Tree

/-! ## what is made -/

/-- Below the root of a well-formed tree something stands that is a tree. -/
theorem WellFormed.exists_shape (h : t.WellFormed s n) : ∃ u : Shape α, u.root? = some n ∧
    u.StandsIn s none ∧ u.nodes.Nodup ∧ u.nodes.length ≤ s.length ∧ s.sketch n = u.sketch := by
  obtain ⟨u, hu, hstands⟩ := h.linked.exists_shape (rooted_of_parent h.unowned) h.root_lt
  rw [h.unowned] at hstands
  have hnodup := hstands.nodup_of_root h.linked
  exact ⟨u, hu, hstands, hnodup, hstands.length_nodes_le hnodup, hstands.sketch_eq hnodup hu⟩

theorem exec_onNodes_of_ok {β : Type} {call : Storing α β} {b : β} (h : exec call s = (.ok b, s')) :
    exec (onNodes call) s = (.ok b, s') := by
  rw [onNodes, exec_adapt, h]
  rfl

/-- A node that nobody owns can be the root of a tree. -/
theorem exec_setRoot (t : Tree) {u : Shape α} (hu : u.StandsIn s none) (hn : u.root? = some n) :
    exec (t.setRoot n : Storing α Tree) s = (.ok { t with root := some n }, s) := by
  cases u with
  | missing => cases hn
  | node k op value freed l r =>
    obtain rfl : k = n := Option.some.inj hn
    rw [setRoot, exec_bind_of_ok (Storing.exec_cell_of_some hu.1)]
    rfl

/-- A tree with the nodes that a call makes. -/
theorem exec_withRoot (t : Tree) {call : Storing α NodeId} {e : Sketch α}
    (h : Storing.Yields ∅ ∅ s call (.ok e)) :
    ∃ (m : NodeId) (s' : Store α) (u : Shape α),
      exec (onNodes call >>= t.withRoot) s = (.ok { t with root := some m }, s') ∧
        u.root? = some m ∧ u.sketch = e ∧ u.Made ∅ ∅ s s' := by
  obtain ⟨m, s', u, hexec, hm, he, hu⟩ := h
  refine ⟨m, s', u, ?_, hm, he, hu⟩
  rw [exec_bind_of_ok (exec_onNodes_of_ok hexec), withRoot,
    exec_onNodes_of_ok (t.exec_setRoot hu.stands hm)]

/-- A variable of the table is known. -/
theorem exec_requireVar_of_mem (t : Tree) {x : String} (hx : x ∈ t.vars) :
    exec (t.requireVar x : Growing α Unit) s = (.ok ⟨⟩, s) := by
  simp [requireVar, hx]

/-- Another variable is refused, and nothing changes. -/
theorem exec_requireVar_of_not_mem (t : Tree) {x : String} (hx : x ∉ t.vars) :
    exec (t.requireVar x : Growing α Unit) s =
      (.error (.calculus (.unknownVariable x t.vars)), s) := by
  simp [requireVar, hx]

/-- New nodes are made for what stands below the root, with a value for a variable. -/
theorem yields_substitute (h : t.WellFormed s n) (x : String) {k : NodeId} {w : Shape α}
    (hk : w.root? = some k) (hw : w.Made ∅ ∅ s s₁) :
    Storing.Yields ∅ ∅ s₁ (Storing.substitute x k s.length n)
      (.ok (Sketch.subst x w.sketch (s.sketch n))) := by
  obtain ⟨u, hu, hstands, hnodup, hdepth, hsketch⟩ := h.exists_shape
  rw [hsketch]
  exact Storing.grows_substitute hw.frame.linked hw.stands hk
    (Storing.stands_of_frame hstands hw.frame) hdepth hu s₁ (.start hw.frame.linked)

section

variable [Arith α]

/-- New nodes are made for the derivative of what stands below the root. -/
theorem yields_derivative (h : t.WellFormed s n) (x : String) :
    Storing.Yields ∅ ∅ s (Storing.derivative x s.length t.root) ((s.sketch n).derivative x) := by
  obtain ⟨u, hu, hstands, hnodup, hdepth, hsketch⟩ := h.exists_shape
  rw [h.root, ← hu, hsketch]
  exact Storing.grows_derivative hstands hnodup hdepth s (.start h.linked)

/-- Before a substitution its value is made. -/
theorem exec_literal (hs : s.Linked) (v : α) : ∃ (k : NodeId) (s₁ : Store α) (w : Shape α),
    exec (onNodes (Term.literal v : Storing α NodeId)) s = (.ok k, s₁) ∧ w.root? = some k ∧
      w.sketch = Term.literal v ∧ w.Made ∅ ∅ s s₁ := by
  have hliteral := Storing.grows_literal v s (.start hs)
  have hok : (Term.literal v : Except NodeError (Sketch α)) = .ok (Term.literal v) := by
    unfold Term.literal
    split <;> rfl
  rw [hok] at hliteral
  obtain ⟨k, s₁, w, hexec, hw⟩ := hliteral
  exact ⟨k, s₁, w, exec_onNodes_of_ok hexec, hw⟩

/-- The simplification of a tree is that of what stands below its root. -/
theorem performs_simplify (h : t.WellFormed s n) (st : Strictness) (limit : Nat) :
    Rewriting.Performs (s.Frame ∅ ∅) s (t.simplify st limit)
      (untilSettled (Sketch.pass st) limit (s.sketch n)) fun t' e s' =>
        ∃ (m : NodeId) (u : Shape α), t' = { t with root := some m } ∧ u.root? = some m ∧
          u.sketch = e.1 ∧ u.Made ∅ ∅ s s' := by
  obtain ⟨u, hu, hstands, hnodup, -, hsketch⟩ := h.exists_shape
  obtain ⟨k, s₁, w, hcopy, hk, hw, hmade⟩ := Storing.yields_copy h.linked hstands hnodup hu
  rw [simplify, h.root, hsketch, ← hw]
  refine Rewriting.Performs.step hcopy ((Rewriting.performs_passes st limit hk hmade).then ?_)
  rintro m e s' ⟨v, hm, hv, hmade⟩
  exact ⟨_, s', ⟨m, v, rfl, hm, hv, hmade⟩,
    Rewriting.exec_onNodes (t.exec_setRoot hmade.stands hm)⟩

end

/-! ## what is left alone -/

variable [Numeral α]

/-- A call that makes nodes, and a tree of them. -/
theorem discreet_withRoot (t : Tree) {call : Storing α NodeId} {r : Except NodeError (Sketch α)}
    (h : Storing.Yields ∅ ∅ s call r) :
    Discreet s ((exec (onNodes call >>= t.withRoot) s).1.mapError .ofTree)
      (exec (onNodes call >>= t.withRoot) s).2 := by
  cases r with
  | ok e =>
    obtain ⟨m, s', u, hexec, hm, -, hu⟩ := t.exec_withRoot h
    rw [hexec]
    exact discreet_of_made hu hm t
  | error e =>
    obtain ⟨he, s', hexec, hs'⟩ := h
    have honNodes : exec (onNodes call) s = (.error (.node e), s') := by
      rw [onNodes, exec_adapt, hexec]
      rfl
    rw [exec_bind_of_error honNodes]
    exact discreet_of_error hs' he.kind_ne

/-- A name that is not in the table is reported before anything is done. -/
theorem discreet_requireVar (t : Tree) (x : String) {rest : Growing α Tree} (hs : s.Linked)
    (h : Discreet s ((exec rest s).1.mapError .ofTree) (exec rest s).2) :
    Discreet s ((exec (t.requireVar x >>= fun _ => rest) s).1.mapError .ofTree)
      (exec (t.requireVar x >>= fun _ => rest) s).2 := by
  by_cases hx : x ∈ t.vars
  · rwa [exec_bind_of_ok (t.exec_requireVar_of_mem hx)]
  · rw [exec_bind_of_error (t.exec_requireVar_of_not_mem hx)]
    exact discreet_of_error (.start hs) nofun

variable [Arith α]

/-- Differentiation leaves all nodes alone. -/
theorem discreet_differentiate (h : t.WellFormed s n) (x : String) :
    Discreet s ((exec (t.differentiate x) s).1.mapError .ofTree) (exec (t.differentiate x) s).2 := by
  refine t.discreet_requireVar x h.linked ?_
  rw [exec_bind_of_ok exec_get]
  exact t.discreet_withRoot (yields_derivative h x)

/-- Substitution leaves all nodes alone. -/
theorem discreet_substitute (h : t.WellFormed s n) (x : String) (v : α) :
    Discreet s ((exec (t.substitute x v) s).1.mapError .ofTree) (exec (t.substitute x v) s).2 := by
  obtain ⟨k, s₁, w, hexec, hk, -, hw⟩ := exec_literal h.linked v
  refine t.discreet_requireVar x h.linked ?_
  rw [exec_bind_of_ok exec_get, exec_bind_of_ok hexec, h.root]
  exact (t.discreet_withRoot (yields_substitute h x hk hw)).trans hw.frame

/-- Simplification leaves all nodes alone. -/
theorem discreet_simplify (h : t.WellFormed s n) (st : Strictness) (limit : Nat)
    (notes : List (Diagnostic α (Sketch α))) :
    Discreet s ((exec (t.simplify st limit) ⟨s, notes⟩).1.mapError .ofSketch)
      (exec (t.simplify st limit) ⟨s, notes⟩).2.store := by
  have hsimplify := performs_simplify h st limit notes
  cases hx : (untilSettled (Sketch.pass st) limit (s.sketch n)).result with
  | error e =>
    rw [hx] at hsimplify
    obtain ⟨s', hexec, hs'⟩ := hsimplify
    rw [hexec]
    exact discreet_of_error hs' ((ends_untilSettled (Sketch.ends_pass st) _ _).error e hx).kind_ne
  | ok c =>
    rw [hx] at hsimplify
    obtain ⟨t', s', hexec, m, u, rfl, hm, -, hu⟩ := hsimplify
    rw [hexec]
    exact discreet_of_made hu hm t

end Tree

end Fluxion

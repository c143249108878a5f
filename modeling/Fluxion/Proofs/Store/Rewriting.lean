import Fluxion.Proofs.Store.Destroy
import Fluxion.Proofs.Store.Draft
import Fluxion.Store.Simplify

/-!
# Fluxion.Proofs.Store.Rewriting

Simplification of nodes is simplification of what stands below them.

A step on nodes does what a step on sketches says, with the same notes and failures, and moves no
other nodes than those of its subtree (`Rewriting.Performs`).  What is left of a node that a rule
replaces is a root without the operands that were taken from it, so that it can be taken apart.

* `Rewriting.performs_pass`: one pass from the leaves up;
* `Rewriting.performs_passes`: any number of passes.
-/

namespace Fluxion

open Store

variable {α β γ : Type}

/-! ## rules on drafts -/

/-- The rules for an operation use each operand once. -/
theorem Term.Linear.reduce {ι : Type} [Arith α] [Term α β] [Term α γ] {φ : β → γ}
    {Owns : Set ι → β → Prop} (h : Term.Linear φ Owns) {A B : Set ι} {l r : β} (st : Strictness)
    (op : String) (value : Option (Value α)) (absent : Bool)
    (hl : absent = false → Storing.isBinary op → Owns A l) (hr : absent = false → ¬IsLeafOp op → Owns B r)
    (hdisj : Disjoint A B) :
    Term.Gives φ Owns (RewriteError.map φ) (A ∪ B) (Fluxion.reduce st op value absent l r)
      (Fluxion.reduce st op value absent (φ l) (φ r)) := by
  have hnone : Term.Gives φ Owns (RewriteError.map φ) (A ∪ B)
      (pure none : Noted (Diagnostic α β) (RewriteError α β) (Option β)) (pure none) :=
    Term.offers_none.gives
  unfold Fluxion.reduce
  split
  · split
    · exact (h.reduceNum _).gives
    · exact hnone
  · split
    · exact hnone
    · have hop : ¬IsLeafOp op := by
        rintro (hop | hop) <;> contradiction
      split
      · exact Term.gives_fail _
      · have hr' := h.right (A := A) (hr (by simp_all) hop)
        split
        · rename_i hbin
          refine (h.reduceBin (hl (by simp_all) ?_) (hr (by simp_all) hop) hdisj).mapError
            fun _ => rfl
          simp [Storing.isBinary, hbin]
        · split
          · exact (h.reduceNeg hr').gives
          · split
            · exact (h.reduceApp _ hr').mapError fun _ => rfl
            · exact hnone

/-- An operation whose rules come to a result has the operands that they need. -/
theorem present_of_reduce [Arith α] [Term α β] {st : Strictness} {op : String}
    {value : Option (Value α)} {absent : Bool} {l r : β} {o : Option β}
    (h : (reduce st op value absent l r).result = .ok o) (hop : ¬IsLeafOp op) : absent = false := by
  rw [IsLeafOp, not_or] at hop
  cases absent
  · rfl
  · unfold reduce at h
    rw [if_neg hop.1, if_neg hop.2, if_pos rfl] at h
    cases h

/-- A draft that can be carried out has a sketch with all that is needed in it. -/
theorem Draft.Ready.solid {s : Store α} {n : NodeId} {A : Set NodeId} {d : Draft α}
    (h : d.Ready s n A) : d.sketch.Solid ∧ d.sketch ≠ .missing := by
  induction d generalizing A with
  | part p =>
    obtain ⟨rfl, -, t, ht⟩ := h
    rw [sketch, ht.sketch_eq]
    exact ⟨ht.solid, fun he => ht.present (Shape.sketch_eq_missing he)⟩
  | num v => exact ⟨⟨fun hop => absurd hop (by decide), trivial, trivial⟩, Sketch.node_ne_missing⟩
  | bin op a b iha ihb =>
    obtain ⟨B, C, -, -, ha, hb⟩ := h
    exact ⟨⟨fun _ => (ihb hb).2, (iha ha).1, (ihb hb).1⟩, Sketch.node_ne_missing⟩
  | neg a ih => exact ⟨⟨fun _ => (ih h).2, trivial, (ih h).1⟩, Sketch.node_ne_missing⟩
  | app f a ih => exact ⟨⟨fun _ => (ih h).2, trivial, (ih h).1⟩, Sketch.node_ne_missing⟩

namespace Rewriting

/-! ## steps on nodes and on sketches -/

/-- A step on nodes does what a step on sketches says: it notes the same, and comes to a result that
belongs to the other one in the store that is left, or to the same failure. -/
def Performs (R : Store α → Prop) (s : Store α) (call : Rewriting α β) (x : Sketch.Sketching α γ)
    (Q : β → γ → Store α → Prop) : Prop :=
  ∀ notes, match x.result with
    | .ok c => ∃ b s', exec call ⟨s, notes⟩ = (.ok b, ⟨s', notes ++ x.notes⟩) ∧ Q b c s'
    | .error e => ∃ s', exec call ⟨s, notes⟩ = (.error e, ⟨s', notes ++ x.notes⟩) ∧ R s'

section

variable {δ ε : Type} {R : Store α → Prop} {s s' : Store α} {call : Rewriting α β}
  {x : Sketch.Sketching α γ} {Q : β → γ → Store α → Prop} {T : δ → ε → Store α → Prop}

theorem performs_pure {b : β} {c : γ} (h : Q b c s) : Performs R s (pure b) (pure c) Q := by
  intro notes
  exact ⟨b, s, by simp, h⟩

theorem Performs.bind {f : β → Rewriting α δ} {g : γ → Sketch.Sketching α ε}
    (h : Performs R s call x Q)
    (hf : ∀ b c s', x.result = .ok c → Q b c s' → Performs R s' (f b) (g c) T) :
    Performs R s (call >>= f) (x >>= g) T := by
  intro notes
  have hcall := h notes
  cases hx : x.result with
  | error e =>
    rw [hx] at hcall
    obtain ⟨s', hexec, hs'⟩ := hcall
    rw [Noted.bind_result_of_error hx, Noted.bind_notes_of_error hx]
    exact ⟨s', exec_bind_of_error hexec f, hs'⟩
  | ok c =>
    rw [hx] at hcall
    obtain ⟨b, s₁, hexec, hb⟩ := hcall
    have hrest := hf b c s₁ hx hb (notes ++ x.notes)
    rw [Noted.bind_result_of_ok hx, Noted.bind_notes_of_ok hx, exec_bind_of_ok hexec,
      ← List.append_assoc]
    exact hrest

/-- A call on nodes with a result. -/
theorem exec_onNodes {call : Storing α β} {b : β} (h : exec call s = (.ok b, s'))
    (notes : List (Diagnostic α (Sketch α))) :
    exec (onNodes call) ⟨s, notes⟩ = (.ok b, ⟨s', notes⟩) := by
  have hrun : call.run.run s = (.ok b, s') := h
  simp only [onNodes, exec_bind, exec_get, hrun, exec_set, exec_pure]

/-- A call on nodes of which sketches know nothing. -/
theorem Performs.step {call : Storing α β} {b : β} (h : exec call s = (.ok b, s'))
    {f : β → Rewriting α δ} {y : Sketch.Sketching α ε} (hf : Performs R s' (f b) y T) :
    Performs R s (onNodes call >>= f) y T := by
  intro notes
  rw [exec_bind_of_ok (exec_onNodes h notes)]
  exact hf notes

/-- A step followed by calls on nodes of which sketches know nothing. -/
theorem Performs.then {f : β → Rewriting α δ} {T : δ → γ → Store α → Prop}
    (h : Performs R s call x Q)
    (hf : ∀ b c s', Q b c s' → ∃ d s'', T d c s'' ∧
      ∀ notes, exec (f b) ⟨s', notes⟩ = (.ok d, ⟨s'', notes⟩)) :
    Performs R s (call >>= f) x T := by
  intro notes
  have hcall := h notes
  cases hx : x.result with
  | error e =>
    rw [hx] at hcall
    obtain ⟨s', hexec, hs'⟩ := hcall
    exact ⟨s', exec_bind_of_error hexec f, hs'⟩
  | ok c =>
    rw [hx] at hcall
    obtain ⟨b, s₁, hexec, hb⟩ := hcall
    obtain ⟨d, s₂, hd, hrest⟩ := hf b c s₁ hb
    exact ⟨d, s₂, by rw [exec_bind_of_ok hexec, hrest], hd⟩

theorem Performs.mono {R' : Store α → Prop} {Q' : β → γ → Store α → Prop}
    (h : Performs R s call x Q) (hR : ∀ s', R s' → R' s') (hQ : ∀ b c s', Q b c s' → Q' b c s') :
    Performs R' s call x Q' := by
  intro notes
  have hcall := h notes
  cases hx : x.result with
  | error e =>
    rw [hx] at hcall
    obtain ⟨s', hexec, hs'⟩ := hcall
    exact ⟨s', hexec, hR s' hs'⟩
  | ok c =>
    rw [hx] at hcall
    obtain ⟨b, s', hexec, hb⟩ := hcall
    exact ⟨b, s', hexec, hQ b c s' hb⟩

end

/-! ## one node -/

variable {s₀ s s' : Store α} {A : Set NodeId} {n : NodeId} {op : String}
  {value : Option (Value α)} {freed : Bool} {l r t : Shape α} {d : Draft α}

/-- The draft of what stands in a place of a node. -/
theorem sketch_part (h : (Shape.node n op value freed l r).StandsIn s none)
    (hnodup : (Shape.node n op value freed l r).nodes.Nodup) (slot : Slot) :
    (Draft.part ⟨s, n, slot⟩).sketch = (slot.pick l r).sketch := by
  rw [Draft.sketch, Site.sketch, h.child? slot]
  cases hc : (slot.pick l r).root? with
  | none =>
    rw [Shape.missing_of_root? hc]
    rfl
  | some c =>
    exact (h.pick slot).sketch_eq (hnodup.sublist (Shape.pick_nodes_sublist slot)) hc

/-- An operand of a node is a draft that can be carried out. -/
theorem ready_part (h : (Shape.node n op value freed l r).StandsIn s none)
    (hnodup : (Shape.node n op value freed l r).nodes.Nodup)
    (halive : (Shape.node n op value freed l r).Alive) (slot : Slot)
    (hsolid : (slot.pick l r).sketch.Solid) (hne : slot.pick l r ≠ .missing) :
    Draft.Ready s n {m | m ∈ (slot.pick l r).nodes} (.part ⟨s, n, slot⟩) :=
  ⟨rfl, .inl rfl, slot.pick l r, h.child? slot, hne, h.pick slot,
    hnodup.sublist (Shape.pick_nodes_sublist slot), Shape.not_mem_pick hnodup slot, fun _ hm => hm,
    hsolid, halive.pick⟩

/-- While nodes of a shape move, and others are made, nothing else comes below what was in it. -/
theorem mem_of_below_after {s₁ : Store α} {B : Set NodeId} {p : Option NodeId} {k : NodeId}
    (hs : s.Linked) (h : t.StandsIn s p) (hframe : s.Frame B ∅ s₁)
    (hsub : ∀ m ∈ B, m ∈ t.nodes) (hn : n ∈ t.nodes) (hk : s₁.Below n k) :
    k ∈ t.nodes ∨ s.length ≤ k := by
  induction hk with
  | refl => exact .inl hn
  | @tail x y _ hxy ih =>
    by_contra hy
    rw [not_or, not_le] at hy
    -- a node that did not move has the parent that it had
    have hcell := hframe.cell y hy.2 (fun hB => hy.1 (hsub y hB)) nofun
    have hp : s.parent? y = some x := by
      rw [parent?, ← hcell, ← parent?]
      exact hframe.linked.paired.holds_iff.mp hxy
    have hx := ih.resolve_right (Nat.not_le_of_lt (hs.paired.holds_lt (hs.paired.holds_iff.mpr hp)).1)
    exact hy.1 (h.mem_of_holds hx (hs.paired.holds_iff.mpr hp))

/-- A node replaced by a draft of its operands.  What is left of it is taken apart, and nothing of
the draft is below it any more. -/
theorem exec_swap (h : (Shape.node n op value freed l r).Made A ∅ s₀ s)
    (hd : d.Ready s n ({m | m ∈ l.nodes} ∪ {m | m ∈ r.nodes})) :
    ∃ (m : NodeId) (s' : Store α) (t : Shape α), exec (swap n d) s = (.ok m, s') ∧
      t.root? = some m ∧ t.sketch = d.sketch ∧ t.Made A ∅ s₀ s' := by
  have hs := h.frame.linked
  have hnodup := h.stands.nodup_of_root hs
  have hmem : ∀ k, k ∈ {m | m ∈ l.nodes} ∪ {m | m ∈ r.nodes} ∪ {n} ↔
      k ∈ (Shape.node n op value freed l r).nodes := fun k => by
    simp [Shape.nodes]
  have hlt : ∀ k ∈ (Shape.node n op value freed l r).nodes, k < s.length := fun k hk =>
    h.stands.lt hk
  have hn : n < s.length := hlt n (Shape.root?_mem rfl)
  obtain ⟨m, s₁, t, hmake, hm, hsketch, ht⟩ := Draft.yields_make hd
    (fun hk => hk.elim (Shape.not_mem_pick hnodup .left) (Shape.not_mem_pick hnodup .right))
    (fun k hk => hlt k ((hmem k).mp (.inl hk))) (Frame.refl (A := ∅) hs fun k hk => hk ▸ hn)
    fun k _ => Set.notMem_empty k
  have hparent : s₁.parent? n = none := (ht.frame.holder_parent n rfl).trans (h.stands.parent? rfl)
  obtain ⟨s₂, hdestroy, hs₂, hlength, hcell⟩ :=
    Storing.exec_destroy_root ht.frame.linked (hn.trans_le ht.frame.length_le) hparent
  have hdestroyed : s₁.Frame {k | s₁.Below n k} ∅ s₂ := .of_cells hs₂ hlength hcell
    fun k hk => absurd hk (Set.notMem_empty k)
  have hrest : ∀ k, s₁.Below n k →
      k ∈ {m | m ∈ l.nodes} ∪ {m | m ∈ r.nodes} ∪ {n} ∨ s.length ≤ k := fun k hk =>
    (mem_of_below_after hs h.stands ht.frame.release (fun k hk => (hmem k).mp hk)
      (Shape.root?_mem rfl) hk).imp_left (hmem k).mpr
  have hapart : ∀ k ∈ t.nodes, ¬s₁.Below n k := fun k hk hbelow => by
    have hroots := ht.frame.linked.paired.eq_of_roots (ht.stands.parent? hm) hparent
      (ht.stands.below_of_mem hm hk) hbelow
    exact (ht.mem m (Shape.root?_mem hm)).2 hroots
  refine ⟨m, s₂, t, ?_, hm, hsketch, .trans h.frame (ht.release.after hdestroyed hrest hapart)
    fun k hk => (h.mem k ((hmem k).mp hk)).1⟩
  rw [swap, exec_bind_of_ok hmake, exec_bind_of_ok hdestroy, exec_pure]

/-- A rule reports of drafts what it reports of their sketches. -/
theorem performs_applying {C : Set NodeId} {Owns : Set NodeId → Draft α → Prop}
    {R : Store α → Prop} {x : Noted (Diagnostic α (Draft α)) (RewriteError α (Draft α)) (Option (Draft α))}
    {x' : Sketch.Sketching α (Option (Sketch α))}
    (h : Term.Gives Draft.sketch Owns (RewriteError.map Draft.sketch) C x x') (hR : R s) :
    Performs R s (applying x) x'
      (fun o o' s' => s' = s ∧ o' = o.map Draft.sketch ∧ ∀ d ∈ o, Owns C d) := by
  intro notes
  have hresult := h.result
  cases hx : x.result with
  | error e =>
    rw [hx] at hresult
    rw [hresult, h.notes]
    exact ⟨s, by simp only [applying, exec_bind, exec_modify, hx, exec_throw], hR⟩
  | ok o =>
    rw [hx] at hresult
    rw [hresult, h.notes]
    refine ⟨o, s, by simp only [applying, exec_bind, exec_modify, hx, exec_pure], rfl, rfl, ?_⟩
    rintro d ⟨⟩
    exact h.owns d hx

/-- After a step on a subtree there is a node below which the nodes for a sketch stand. -/
def Rewritten (A : Set NodeId) (s₀ : Store α) (b : NodeId × Bool) (e : Sketch α × Bool)
    (s : Store α) : Prop :=
  b.2 = e.2 ∧ e.1.Solid ∧ ∃ t : Shape α, t.root? = some b.1 ∧ t.sketch = e.1 ∧ t.Made A ∅ s₀ s

/-- A part is taken from its place, rewritten, and put back. -/
theorem performs_onChild {x : Shape α} {rewrite : NodeId → Rewriting α (NodeId × Bool)}
    {y : Sketch.Sketching α (Sketch α × Bool)}
    (h : (Shape.node n op value freed l r).Made A ∅ s₀ s) (slot : Slot) (hx : slot.pick l r = x)
    (hmissing : x = .missing → y = pure (.missing, false))
    (hleaf : IsLeafOp op → x = .missing)
    (hrewrite : ∀ c s₁, x.root? = some c → x.Made {m | m ∈ x.nodes} ∅ s₁ s₁ →
      Performs (s₁.Frame {m | m ∈ x.nodes} ∅) s₁ (rewrite c) y (Rewritten {m | m ∈ x.nodes} s₁)) :
    Performs (s₀.Frame A ∅) s (onChild n slot rewrite) y fun changed e s' =>
      changed = e.2 ∧ e.1.Solid ∧ ∃ x' : Shape α, x'.sketch = e.1 ∧
        ((Shape.node n op value freed l r).put slot x').Made A ∅ s₀ s' := by
  subst hx
  unfold onChild
  refine Performs.step (Storing.exec_ask _) ?_
  rw [h.stands.child? slot]
  cases hc : (slot.pick l r).root? with
  | none =>
    have hnone := Shape.missing_of_root? hc
    rw [hmissing hnone]
    exact performs_pure ⟨rfl, trivial, .missing, rfl, (Shape.put_missing hnone).symm ▸ h⟩
  | some c =>
    obtain ⟨hrest, hpart, hnpart⟩ := h.cut hc
    have hsub : ∀ m ∈ {m | m ∈ (slot.pick l r).nodes}, m ∈ A ∨ s₀.length ≤ m := fun m hm =>
      (hpart.mem m hm).1
    obtain ⟨l', r', hempty, hput, hback⟩ := Shape.exists_put_missing n op value freed l r slot
    rw [hput] at hrest
    have hdisj := hrest.disjoint hpart fun he => hnpart (Shape.root?_mem he.symm)
    refine Performs.step Storing.exec_detach ?_
    refine Performs.then ((hrewrite c _ hc (.self hpart.frame.linked hpart.stands
      hpart.alive)).mono (fun s' h' => hpart.frame.trans h' hsub) fun _ _ _ h' => h') ?_
    rintro ⟨c', changed⟩ ⟨e, changed'⟩ s₁ ⟨rfl, hsolid, x', hroot, hsketch, hx'⟩
    have hn := hrest.after hx'.frame hsub hdisj
    have hne : x'.root? ≠ some n := by
      intro he
      rcases (hx'.mem n (Shape.root?_mem he)).1 with hmem | hnew
      · exact hnpart hmem
      · exact Nat.not_lt_of_le hnew (hrest.stands.lt (Shape.root?_mem rfl))
    obtain ⟨s₂, hexec, hn, -⟩ := hn.put (.trans hpart.frame hx' hsub) slot hne hempty fun hop => by
      simp [hleaf hop] at hc
    rw [hback] at hn
    refine ⟨changed, s₂, ⟨rfl, hsolid, x', hsketch, hn⟩, fun notes => ?_⟩
    rw [hroot] at hexec
    exact exec_bind_of_ok (exec_onNodes hexec notes) _

/-! ## passes -/

variable [Arith α]

/-- What becomes of a node is what becomes of its sketch. -/
theorem performs_reduceAt (st : Strictness) {R : Store α → Prop} (hs : s.Linked)
    (h : (Shape.node n op value freed l r).StandsIn s none)
    (halive : (Shape.node n op value freed l r).Alive) (hl : l.sketch.Solid) (hr : r.sketch.Solid)
    (hR : R s) :
    Performs R s (reduceAt st n) (reduce st op value (Sketch.lacks op l.sketch r.sketch) l.sketch r.sketch)
      (fun o o' s' => s' = s ∧ o' = o.map Draft.sketch ∧
        ∀ d ∈ o, d.Ready s n ({m | m ∈ l.nodes} ∪ {m | m ∈ r.nodes})) := by
  have hnodup := h.nodup_of_root hs
  have hmissing : ∀ t : Shape α, t.root?.isNone = t.sketch.isMissing := fun t => by cases t <;> rfl
  have hdisj : Disjoint {m | m ∈ l.nodes} {m | m ∈ r.nodes} :=
    Set.disjoint_left.mpr fun _ hml hmr => Shape.disjoint_parts hnodup hml hmr
  have hpresent : Sketch.lacks op l.sketch r.sketch = false →
      r ≠ .missing ∧ (Storing.isBinary op → l ≠ .missing) := by
    intro hlacks
    constructor
    · rintro rfl
      simp [Sketch.lacks, Shape.sketch, Sketch.isMissing] at hlacks
    · rintro hbin rfl
      simp [Sketch.lacks, Shape.sketch, Sketch.isMissing, hbin] at hlacks
  have hreduce := (Draft.linear s n).reduce st op value (Sketch.lacks op l.sketch r.sketch)
    (fun hlacks hbin => ready_part h hnodup halive .left hl ((hpresent hlacks).2 hbin))
    (fun hlacks _ => ready_part h hnodup halive .right hr (hpresent hlacks).1) hdisj
  rw [sketch_part h hnodup .left, sketch_part h hnodup .right] at hreduce
  refine Performs.step (Storing.exec_cell_of_some h.1) fun notes => ?_
  rw [exec_bind_of_ok exec_get]
  simp only [hmissing]
  exact performs_applying hreduce hR notes

/-- A pass over nodes is a pass over what stands below them, and moves no others. -/
theorem performs_pass (st : Strictness) {depth : Nat} (hroot : t.root? = some n)
    (h : t.Made {m | m ∈ t.nodes} ∅ s s) (hdepth : t.nodes.length ≤ depth) :
    Performs (s.Frame {m | m ∈ t.nodes} ∅) s (pass st depth n) (Sketch.pass st t.sketch)
      (Rewritten {m | m ∈ t.nodes} s) := by
  induction t generalizing n s depth with
  | missing => cases hroot
  | node k op value freed l r ihl ihr =>
    obtain rfl : k = n := Option.some.inj hroot
    simp only [Shape.nodes, List.length_cons, List.length_append] at hdepth
    obtain ⟨depth, rfl⟩ : ∃ d, depth = d + 1 := ⟨depth - 1, by omega⟩
    have hbare := (h.stands.bare h.frame.linked).1
    have hmissing : ∀ x : Shape α, x = .missing →
        Sketch.pass st x.sketch = pure (.missing, false) := fun x hx => by
      rw [hx]
      rfl
    rw [pass, Shape.sketch, Sketch.pass]
    refine (performs_onChild h .left rfl (hmissing l)
      (fun hop => Shape.sketch_eq_missing (hbare hop).1)
      fun c s₁ hc h₁ => ihl hc h₁ (by omega)).bind ?_
    rintro changedLeft ⟨el, _⟩ s₁ - ⟨rfl, hl, x, rfl, h₁⟩
    refine (performs_onChild h₁ .right rfl (hmissing r)
      (fun hop => Shape.sketch_eq_missing (hbare hop).2)
      fun c s₁ hc h₁ => ihr hc h₁ (by omega)).bind ?_
    rintro changedRight ⟨er, _⟩ s₂ - ⟨rfl, hr, y, rfl, h₂⟩
    have h₂ : (Shape.node k op value freed x y).Made _ ∅ s s₂ := h₂
    refine (performs_reduceAt st h₂.frame.linked h₂.stands h₂.alive hl hr h₂.frame).bind ?_
    rintro o _ _ hresult ⟨rfl, rfl, hready⟩
    cases o with
    | some d =>
      obtain ⟨m, s₃, t, hswap, hm, hsketch, h₃⟩ := exec_swap h₂ (hready d rfl)
      refine Performs.step hswap (performs_pure ⟨rfl, (hready d rfl).solid.1, t, hm, hsketch, h₃⟩)
    | none =>
      refine performs_pure ⟨rfl, ⟨?_, hl, hr⟩, _, rfl, rfl, h₂⟩
      rintro rfl hmissing
      have hlacks := present_of_reduce hresult (by rintro (h | h) <;> exact absurd h (by decide))
      simp [Sketch.lacks, hmissing, Sketch.isMissing] at hlacks

/-- Passes over nodes are passes over what stands below them, however many there are. -/
theorem performs_passes (st : Strictness) (limit : Nat) (hroot : t.root? = some n)
    (h : t.Made A ∅ s₀ s) :
    Performs (s₀.Frame A ∅) s (passes st limit n) (untilSettled (Sketch.pass st) limit t.sketch)
      fun m e s' => ∃ u : Shape α, u.root? = some m ∧ u.sketch = e.1 ∧ u.Made A ∅ s₀ s' := by
  induction limit generalizing n s t with
  | zero => exact performs_pure ⟨t, hroot, rfl, h⟩
  | succ limit ih =>
    have hs := h.frame.linked
    have hsub : ∀ m ∈ {m | m ∈ t.nodes}, m ∈ A ∨ s₀.length ≤ m := fun m hm => (h.mem m hm).1
    have hdepth := h.stands.length_nodes_le (h.stands.nodup_of_root hs)
    have hpass := (performs_pass st hroot (.self hs h.stands h.alive) hdepth).mono
      (fun s' h' => h.frame.trans h' hsub) fun _ _ _ h' => h'
    intro notes
    rw [passes, untilSettled, exec_bind_of_ok exec_get]
    refine hpass.bind ?_ notes
    rintro ⟨m, changed⟩ ⟨e, _⟩ s₁ - ⟨rfl, -, u, hm, rfl, hu⟩
    have hu := Shape.Made.trans h.frame hu hsub
    cases changed
    · exact performs_pure ⟨u, hm, rfl, hu⟩
    · exact ih hm hu

end Rewriting

/-! ## failures -/

/-- A simplification fails for a part that is missing or has no meaning, or for what a rule comes
across. -/
def RewriteError.IsLack : RewriteError α β → Prop
  | node e => e.IsLack
  | simplify _ => True

section

variable [Arith α]

theorem ends_reduce [Term α β] (st : Strictness) (op : String) (value : Option (Value α))
    (absent : Bool) (l r : β) :
    Noted.Ends (fun _ => True) RewriteError.IsLack (reduce st op value absent l r) := by
  have hpure : ∀ o : Option β, Noted.Ends (fun _ => True) RewriteError.IsLack
      (pure o : Noted (Diagnostic α β) (RewriteError α β) (Option β)) := fun _ =>
    Noted.ends_pure trivial
  have hrule : ∀ x : Simplifying α β (Option β), Noted.Ends (fun _ => True) RewriteError.IsLack
      (x.mapError .simplify) := fun _ =>
    Noted.Ends.mapError ⟨fun _ _ => trivial, fun _ _ => trivial⟩
  unfold reduce
  split
  · split <;> exact hpure _
  · split
    · exact hpure _
    · split
      · exact Noted.ends_fail trivial
      · split
        · exact hrule _
        · split
          · exact hpure _
          · split
            · exact hrule _
            · exact hpure _

theorem Sketch.ends_pass (st : Strictness) (e : Sketch α) :
    Noted.Ends (fun _ => True) RewriteError.IsLack (e.pass st) := by
  induction e with
  | missing => exact Noted.ends_pure trivial
  | node op value l r ihl ihr =>
    refine ihl.bind fun _ _ => ihr.bind fun _ _ => (ends_reduce _ _ _ _ _ _).bind fun o _ => ?_
    cases o <;> exact Noted.ends_pure trivial

theorem ends_untilSettled {ν ε : Type} {E : ε → Prop} {step : β → Noted ν ε (β × Bool)}
    (h : ∀ b, Noted.Ends (fun _ => True) E (step b)) (limit : Nat) (b : β) :
    Noted.Ends (fun _ => True) E (untilSettled step limit b) := by
  induction limit generalizing b with
  | zero => exact Noted.ends_pure trivial
  | succ limit ih =>
    refine (h b).bind fun (c, changed) _ => ?_
    cases changed
    · exact Noted.ends_pure trivial
    · exact ih c

end

end Fluxion

import Fluxion.Proofs.Formula.Warnings
import Fluxion.Proofs.Store.Expression
import Fluxion.Store.Calculus

/-!
# Fluxion.Proofs.Store.Calculus

Taylor series and tangents of trees that stand for expressions.

A call on trees does what an operation on formulas says if it comes to nodes for the same expression,
or to the same failure (`Developing.Realizes`).  The loop of a series holds two things: a tree for the
derivative, which it only looks at, and apart from it new nodes for the terms so far
(`Developing.Held`).  Each step puts the nodes of a coefficient and of the terms under new ones; the
derivative has no part in that.

* `Developing.realizes_seriesTerm`, `Developing.Held.exec_addTerm`: one step of the loop;
* `Developing.realizes_series`, `Developing.realizes_tangent`: the trees that are developed;
* `wellFormed_developed`: what becomes of a tree and of its nodes when it is developed.
-/

namespace Fluxion

open Store

variable {α β γ : Type}

/-! ## nodes that stand already -/

/-- A shape stands where none of its nodes is moved. -/
theorem Shape.StandsIn.frame {s s' : Store α} {A : Set NodeId} {u : Shape α} {p : Option NodeId}
    (hu : u.StandsIn s p) (h : s.Frame A ∅ s') (hdisj : ∀ m ∈ u.nodes, m ∉ A) : u.StandsIn s' p :=
  hu.congr fun m hm => h.cell m (hu.lt hm) (hdisj m hm) nofun

/-- A tree stays as it is where none of its nodes is moved. -/
theorem Tree.WellFormed.frame {s s' : Store α} {t : Tree} {n : NodeId} (h : t.WellFormed s n)
    (hs : s.Frame ∅ ∅ s') : t.WellFormed s' n ∧ s'.sketch n = s.sketch n := by
  obtain ⟨u, hn, hu, hnodup, -, hsketch⟩ := h.exists_shape
  have hu' := hu.frame hs fun _ _ => Set.notMem_empty _
  exact ⟨Tree.wellFormed_of_stands hs.linked hu' hn h.root,
    (hu'.sketch_eq hnodup hn).trans hsketch.symm⟩

/-- What is made has another root than what stands already and is not moved. -/
theorem Shape.Made.root_ne {s s' : Store α} {A : Set NodeId} {u v : Shape α} {p : Option NodeId}
    {n : NodeId} (hv : v.Made A ∅ s s') (hn : v.root? = some n) (hu : u.StandsIn s p)
    (hdisj : ∀ m ∈ u.nodes, m ∉ A) : u.root? ≠ v.root? := by
  intro he
  have hmem : n ∈ u.nodes := root?_mem (he.trans hn)
  rcases (hv.mem n (root?_mem hn)).1 with hA | hnew
  · exact hdisj n hmem hA
  · exact Nat.not_lt_of_le hnew (hu.lt hmem)

namespace Storing

variable {s : Store α} {n : NodeId} {u : Shape α}

/-- The nodes that stand below a root, as they are. -/
theorem yields_pure (hs : s.Linked) (hu : u.StandsIn s none) (halive : u.Alive)
    (hn : u.root? = some n) : Yields {m | m ∈ u.nodes} ∅ s (pure n) (.ok u.sketch) :=
  ⟨n, s, u, rfl, hn, rfl, .self hs hu halive⟩

theorem grows_name (x : String) : Grows s (name x) (.ok (.name x)) := by
  intro s₁ h₁
  obtain ⟨s₂, hexec, hmade⟩ := (Shape.Made.missing (.start h₁.linked)).node
    (.missing (.start h₁.linked)) Cell.nameOp (some (.name x)) (fun _ => rfl) fun _ => ⟨rfl, rfl⟩
  exact ⟨_, s₂, _, hexec, rfl, rfl, hmade⟩

end Storing

namespace Developing

variable {s s' s₀ s₁ : Store α}

theorem exec_onNodes_of_ok {call : Storing α β} {b : β} (h : exec call s = (.ok b, s')) :
    exec (onNodes call) s = (.ok b, s') := by
  rw [onNodes, onTrees, exec_adapt, Tree.exec_onNodes_of_ok h]
  rfl

theorem exec_onTrees_of_ok {call : Growing α β} {b : β} (h : exec call s = (.ok b, s')) :
    exec (onTrees call) s = (.ok b, s') := by
  rw [onTrees, exec_adapt, h]
  rfl

end Developing

/-! ## calls and computations -/

/-- How a failure of an operation on formulas shows on trees. -/
def DevelopError.ofCalculus : CalculusError α → DevelopError α
  | .simplify e => .rewrite (.simplify (e.map .ofExpr))
  | e => .tree (.calculus e)

theorem DevelopError.kind_ne_ofCalculus [Numeral α] (e : CalculusError α) :
    (Failure.ofDevelop (.ofCalculus e)).kind ≠ .structural := by
  cases e with
  | simplify e => cases e with
    | degenerate d => exact nofun
    | fault f => cases f <;> exact nofun
  | fault f => cases f <;> exact nofun
  | unknownVariable x vars => exact nofun
  | negativeOrder order => exact nofun

namespace Developing

variable {s s' s₀ s₁ : Store α}

/-- A call does what a computation says: it comes to a result that belongs to the other one in the
store that is left, or to the same failure. -/
def Realizes (R : Store α → Prop) (s : Store α) (call : Developing α β)
    (x : Working α (CalculusError α) γ) (Q : β → γ → Store α → Prop) : Prop :=
  match x.result with
  | .ok c => ∃ b s', exec call s = (.ok b, s') ∧ Q b c s'
  | .error e => ∃ s', exec call s = (.error (.ofCalculus e), s') ∧ R s'

section

variable {δ ε : Type} {R : Store α → Prop} {call : Developing α β}
  {x : Working α (CalculusError α) γ} {Q : β → γ → Store α → Prop} {T : δ → ε → Store α → Prop}

theorem realizes_pure {b : β} {c : γ} (h : Q b c s) : Realizes R s (pure b) (pure c) Q :=
  ⟨b, s, rfl, h⟩

theorem Realizes.bind {f : β → Developing α δ} {g : γ → Working α (CalculusError α) ε}
    (h : Realizes R s call x Q) (hf : ∀ b c s', Q b c s' → Realizes R s' (f b) (g c) T) :
    Realizes R s (call >>= f) (x >>= g) T := by
  unfold Realizes at h
  cases hx : x.result with
  | error e =>
    rw [hx] at h
    obtain ⟨s', hexec, hs'⟩ := h
    rw [Realizes, Noted.bind_result_of_error hx]
    exact ⟨s', exec_bind_of_error hexec f, hs'⟩
  | ok c =>
    rw [hx] at h
    obtain ⟨b, s₁, hexec, hb⟩ := h
    rw [Realizes, Noted.bind_result_of_ok hx, exec_bind_of_ok hexec]
    exact hf b c s₁ hb

/-- A call of which the computation knows nothing. -/
theorem Realizes.step {b : β} (h : exec call s = (.ok b, s')) {f : β → Developing α δ}
    {y : Working α (CalculusError α) ε} (hf : Realizes R s' (f b) y T) :
    Realizes R s (call >>= f) y T := by
  rw [Realizes, exec_bind_of_ok h]
  exact hf

/-- A call followed by another one of which the computation knows nothing. -/
theorem Realizes.then {f : β → Developing α δ} {T : δ → γ → Store α → Prop}
    (h : Realizes R s call x Q)
    (hf : ∀ b c s', Q b c s' → ∃ d s'', exec (f b) s' = (.ok d, s'') ∧ T d c s'') :
    Realizes R s (call >>= f) x T := by
  unfold Realizes at h ⊢
  cases hx : x.result with
  | error e =>
    rw [hx] at h
    obtain ⟨s', hexec, hs'⟩ := h
    exact ⟨s', exec_bind_of_error hexec f, hs'⟩
  | ok c =>
    rw [hx] at h
    obtain ⟨b, s', hexec, hb⟩ := h
    obtain ⟨d, s'', hd, hT⟩ := hf b c s' hb
    exact ⟨d, s'', (exec_bind_of_ok hexec f).trans hd, hT⟩

/-- A note that the computation takes. -/
theorem Realizes.noted (n : Note α) (h : Realizes R s call x Q) :
    Realizes R s call (.note n >>= fun _ => x) Q := h

theorem Realizes.mono {R' : Store α → Prop} {Q' : β → γ → Store α → Prop}
    (h : Realizes R s call x Q) (hR : ∀ s', R s' → R' s') (hQ : ∀ b c s', Q b c s' → Q' b c s') :
    Realizes R' s call x Q' := by
  unfold Realizes at h ⊢
  cases hx : x.result with
  | error e =>
    rw [hx] at h
    obtain ⟨s', hexec, hs'⟩ := h
    exact ⟨s', hexec, hR s' hs'⟩
  | ok c =>
    rw [hx] at h
    obtain ⟨b, s', hexec, hb⟩ := h
    exact ⟨b, s', hexec, hQ b c s' hb⟩

/-- Where only new nodes were made before, a failure leaves only new nodes as well. -/
theorem Realizes.after (hs : s₀.Frame ∅ ∅ s₁) (h : Realizes (s₁.Frame ∅ ∅) s call x Q) :
    Realizes (s₀.Frame ∅ ∅) s call x Q :=
  h.mono (fun _ hs' => hs.trans hs' nofun) fun _ _ _ hQ => hQ

end

/-! ## trees of new nodes -/

/-- A tree was made of new nodes for a formula. -/
def Grown (t : Tree) (s : Store α) (t' : Tree) (f : Formula α) (s' : Store α) : Prop :=
  ∃ (m : NodeId) (u : Shape α), t' = { t with root := some m } ∧ u.root? = some m ∧
    u.sketch = .ofExpr f.root ∧ u.Made ∅ ∅ s s'

theorem exec_rootOf {t : Tree} {n : NodeId} (h : t.root = some n) :
    exec (rootOf t : Developing α NodeId) s = (.ok n, s) := by
  rw [rootOf, h]
  rfl

section

variable [Arith α] {t : Tree} {n : NodeId} {f : Formula α} {x : String} {center : α}

/-- Simplification as a part of a development. -/
theorem exec_simplified {st : Strictness} {r : Except (RewriteError α (Sketch α)) Tree}
    {w : Workspace α} (h : exec (t.simplify st maxPasses) ⟨s, []⟩ = (r, w)) :
    exec (simplified st t) s = (r.mapError .rewrite, w.store) := by
  have hrun : (t.simplify st maxPasses).run.run ⟨s, []⟩ = (r, w) := h
  simp only [simplified, exec_bind, exec_get, hrun, exec_set]
  cases r <;> rfl

theorem realizes_simplified [Numeral α] (h : t.WellFormed s n)
    (he : s.sketch n = .ofExpr f.root) (st : Strictness) :
    Realizes (s.Frame ∅ ∅) s (simplified st t) (f.simplified st) (Grown t s) := by
  have hsimplify := Tree.exec_simplify h he st maxPasses []
  have hresult : (f.simplified st).result = (((f.root.passes st maxPasses).result.map
      fun p => f.withRoot p.1).mapError .simplify) := by
    rw [← Formula.result_simplify]
    rfl
  rw [Realizes, hresult]
  cases hx : (f.root.passes st maxPasses).result with
  | error e =>
    simp only [hx] at hsimplify
    obtain ⟨s', hexec, hs'⟩ := hsimplify
    exact ⟨s', exec_simplified hexec, hs'⟩
  | ok p =>
    simp only [hx] at hsimplify
    obtain ⟨m, s', u, hexec, hm, hu, hmade⟩ := hsimplify
    exact ⟨_, s', exec_simplified hexec, m, u, rfl, hm, hu, hmade⟩

/-- A tree of nodes that stand for a formula, simplified. -/
theorem realizes_simplified_of_stands [Numeral α] (hs : s.Linked) {u : Shape α}
    (hu : u.StandsIn s none) (hn : u.root? = some n) (hsketch : u.sketch = .ofExpr f.root)
    (ht : t.root = some n) (st : Strictness) :
    Realizes (s.Frame ∅ ∅) s (simplified st t) (f.simplified st) (Grown t s) := by
  refine realizes_simplified (Tree.wellFormed_of_stands hs hu hn ht) ?_ st
  rw [hu.sketch_eq (hu.nodup_of_root hs) hn, hsketch]

/-- A tree of new nodes that stand for a formula, simplified. -/
theorem realizes_simplified_of_made [Numeral α] {u : Shape α} (hu : u.Made ∅ ∅ s₀ s)
    (hn : u.root? = some n) (hsketch : u.sketch = .ofExpr f.root) (ht : t.root = some n)
    (st : Strictness) :
    Realizes (s₀.Frame ∅ ∅) s (simplified st t) (f.simplified st) (Grown t s₀) := by
  refine (realizes_simplified_of_stands hu.frame.linked hu.stands hn hsketch ht st).mono
    (fun s' hs' => hu.frame.trans hs' nofun) ?_
  rintro _ g s' ⟨k, w, rfl, hk, hw, hmade⟩
  exact ⟨k, w, rfl, hk, hw, .trans hu.frame hmade nofun⟩

/-- A number put for a variable of a tree that stands for a formula, and the result simplified. -/
theorem realizes_atPoint [Numeral α] (h : t.WellFormed s n) (he : s.sketch n = .ofExpr f.root)
    (hx : x ∈ t.vars) (v : α) (st : Strictness) :
    Realizes (s.Frame ∅ ∅) s (atPoint st x v t) ((f.atPoint x v).simplified st) fun k g s' =>
      ∃ c : Shape α, c.root? = some k ∧ c.sketch = .ofExpr g.root ∧ c.Made ∅ ∅ s s' := by
  obtain ⟨m, s₁, u, hexec, hm, hu, hmade⟩ := Tree.exec_substitute h he hx v
  refine Realizes.step (exec_onTrees_of_ok hexec) ?_
  refine (realizes_simplified_of_made hmade hm hu rfl st).then ?_
  rintro _ g s' ⟨k, c, rfl, hk, hc, hmade⟩
  exact ⟨k, s', exec_rootOf rfl, c, hk, hc, hmade⟩

/-- A number put for a variable of a tree of new nodes. -/
theorem realizes_atPoint_of_made [Numeral α] {u : Shape α} (hu : u.Made ∅ ∅ s₀ s)
    (hn : u.root? = some n) (hsketch : u.sketch = .ofExpr f.root) (ht : t.root = some n)
    (hx : x ∈ t.vars) (v : α) (st : Strictness) :
    Realizes (s₀.Frame ∅ ∅) s (atPoint st x v t) ((f.atPoint x v).simplified st) fun k g s' =>
      ∃ c : Shape α, c.root? = some k ∧ c.sketch = .ofExpr g.root ∧ c.Made ∅ ∅ s₀ s' := by
  have htree := Tree.wellFormed_of_stands hu.frame.linked hu.stands hn ht
  refine (realizes_atPoint htree ((Tree.sketch_of_made hu hn).trans hsketch) hx v st).mono
    (fun s' hs' => hu.frame.trans hs' nofun) ?_
  rintro k g s' ⟨c, hk, hc, hmade⟩
  exact ⟨c, hk, hc, .trans hu.frame hmade nofun⟩

end

/-! ## terms of a series -/

section

variable {A : Set NodeId} {c v w D P : Shape α} {j m k : NodeId} {e a : Expr α}

/-- Nodes that stand apart are put under an operation. -/
theorem yields_pair (hc : c.Made A ∅ s₀ s) (hD : D.Made A ∅ s₀ s) (hm : c.root? = some m)
    (hk : D.root? = some k) (hne : c.root? ≠ D.root?) (op : BinOp) :
    Storing.Yields ({m | m ∈ c.nodes} ∪ {m | m ∈ D.nodes}) ∅ s (Term.bin op (pure m) (pure k))
      (.ok (.binary op c.sketch D.sketch)) := by
  have hdisj := hc.disjoint hD hne
  have hright (s₁ : Store α) (h₁ : s.Frame {m | m ∈ c.nodes} ∅ s₁) :
      Storing.Yields {m | m ∈ D.nodes} ∅ s₁ (pure k) (.ok D.sketch) :=
    Storing.yields_pure h₁.linked (hD.stands.frame h₁ fun m hm hmc => hdisj m hmc hm) hD.alive hk
  exact (Storing.yields_pure hc.frame.linked hc.stands hc.alive hm).bin hright op hdisj
    fun m hm => hD.stands.lt hm

/-- A coefficient is put in front of a power of nodes that are apart from it. -/
theorem yields_product (hc : c.Made A ∅ s₀ s) (hD : D.Made A ∅ s₀ s) (hm : c.root? = some m)
    (hk : D.root? = some k) (hne : c.root? ≠ D.root?) (v : α) :
    Storing.Yields ({m | m ∈ c.nodes} ∪ {m | m ∈ D.nodes}) ∅ s
      (Term.bin .mul (pure m) (Term.bin .pow (pure k) (Term.num v)))
      (.ok (.binary .mul c.sketch (.binary .pow D.sketch (.number v)))) := by
  have hdisj := hc.disjoint hD hne
  have hpower (s₁ : Store α) (h₁ : s.Frame {m | m ∈ c.nodes} ∅ s₁) :
      Storing.Yields {m | m ∈ D.nodes} ∅ s₁ (Term.bin .pow (pure k) (Term.num v))
        (.ok (.binary .pow D.sketch (.number v))) := by
    have hstands := hD.stands.frame h₁ fun m hm hmc => hdisj m hmc hm
    have hbin := (Storing.yields_pure h₁.linked hstands hD.alive hk).bin
      (fun s₂ h₂ => Storing.yields_num (.start h₂.linked) v) .pow nofun nofun
    rwa [Set.union_empty] at hbin
  exact (Storing.yields_pure hc.frame.linked hc.stands hc.alive hm).bin hpower .mul hdisj
    fun m hm => hD.stands.lt hm

/-- Nodes are divided by a number. -/
theorem yields_quotient (hc : c.Made A ∅ s₀ s) (hm : c.root? = some m) (v : α) :
    Storing.Yields {m | m ∈ c.nodes} ∅ s (Term.bin .div (pure m) (Term.num v))
      (.ok (.binary .div c.sketch (.number v))) := by
  have hbin := (Storing.yields_pure hc.frame.linked hc.stands hc.alive hm).bin
    (fun s₁ h₁ => Storing.yields_num (.start h₁.linked) v) .div (fun _ _ => Set.notMem_empty _) nofun
  rwa [Set.union_empty] at hbin

/-- A product is added to nodes that are apart from it. -/
theorem yields_line (hv : v.Made A ∅ s₀ s) (hc : c.Made A ∅ s₀ s) (hD : D.Made A ∅ s₀ s)
    (hj : v.root? = some j) (hm : c.root? = some m) (hk : D.root? = some k)
    (hvc : v.root? ≠ c.root?) (hvD : v.root? ≠ D.root?) (hcD : c.root? ≠ D.root?) :
    Storing.Yields ({m | m ∈ v.nodes} ∪ ({m | m ∈ c.nodes} ∪ {m | m ∈ D.nodes})) ∅ s
      (Term.bin .add (pure j) (Term.bin .mul (pure m) (pure k)))
      (.ok (.binary .add v.sketch (.binary .mul c.sketch D.sketch))) := by
  have hc' := hv.disjoint hc hvc
  have hD' := hv.disjoint hD hvD
  have hproduct (s₁ : Store α) (h₁ : s.Frame {m | m ∈ v.nodes} ∅ s₁) :
      Storing.Yields ({m | m ∈ c.nodes} ∪ {m | m ∈ D.nodes}) ∅ s₁
        (Term.bin .mul (pure m) (pure k)) (.ok (.binary .mul c.sketch D.sketch)) := by
    have hc₁ := Shape.Made.self h₁.linked (hc.stands.frame h₁ fun m hm hmv => hc' m hmv hm) hc.alive
    have hD₁ := Shape.Made.self h₁.linked (hD.stands.frame h₁ fun m hm hmv => hD' m hmv hm) hD.alive
    exact yields_pair (hc₁.mono Set.subset_union_left) (hD₁.mono Set.subset_union_right) hm hk hcD
      .mul
  exact (Storing.yields_pure hv.frame.linked hv.stands hv.alive hj).bin hproduct .add
    (fun m hm => not_or.mpr ⟨hc' m hm, hD' m hm⟩) fun m hm => hm.elim hc.stands.lt hD.stands.lt

variable [Arith α] {x : String} {center : α}

theorem yields_distance (hs : s.Linked) (x : String) (center : α) :
    Storing.Yields ∅ ∅ s (distance x center) (.ok (.ofExpr (Formula.distance x center))) := by
  unfold distance Formula.distance
  split
  · exact Storing.grows_name x s (.start hs)
  · have hliteral : (Term.literal center : Except NodeError (Sketch α)) =
        .ok (.ofExpr (Term.literal center)) := by
      unfold Term.literal
      split <;> rfl
    have hbin := (Storing.grows_name x).bin (Storing.grows_literal center) .sub s (.start hs)
    rwa [hliteral] at hbin

/-- A whole number is represented, or the failure is that of the number. -/
theorem exec_whole (n : Nat) : exec (whole n : Developing α α) s =
    ((Arith.ofNat n).mapError fun f => .ofCalculus (.fault f), s) := by
  unfold whole
  cases (Arith.ofNat n : Except MathFault α) <;> rfl

/-- A whole number is represented by trees and formulas alike, and no node is touched. -/
theorem realizes_whole {R : Store α → Prop} (hs : R s) (n : Nat) :
    Realizes R s (whole n) (.lift ((Arith.ofNat n).mapError .fault)) fun v v' s' =>
      v = v' ∧ s' = s := by
  have hexec := exec_whole (s := s) n
  cases hn : (Arith.ofNat n : Except MathFault α) with
  | error f =>
    rw [hn] at hexec
    exact ⟨s, hexec, hs⟩
  | ok v =>
    rw [hn] at hexec
    exact ⟨v, s, hexec, rfl, rfl⟩

/-- A term with a power represents two numbers, one after the other. -/
theorem lift_seriesTerm {power : Nat} (hpower : power ≠ 0) :
    (.lift ((Formula.seriesTerm x center power e).mapError .fault) :
      Working α (CalculusError α) (Expr α)) = (do
        let n ← .lift ((Arith.ofNat power).mapError .fault)
        let d ← .lift ((Arith.ofNat (factorial power)).mapError .fault)
        return .bin .div (.bin .mul e (.bin .pow (Formula.distance x center) (.num n)))
          (.num d)) := by
  rw [Formula.seriesTerm, if_neg hpower]
  cases (Arith.ofNat power : Except MathFault α) with
  | error f => rfl
  | ok n => cases (Arith.ofNat (factorial power) : Except MathFault α) <;> rfl

/-- The nodes of a term stand for the term. -/
theorem realizes_seriesTerm (hc : c.Made ∅ ∅ s₀ s) (hm : c.root? = some m)
    (he : c.sketch = .ofExpr e) (power : Nat) :
    Realizes (s₀.Frame ∅ ∅) s (seriesTerm x center power m)
      (.lift ((Formula.seriesTerm x center power e).mapError .fault)) fun k a s' =>
        ∃ v : Shape α, v.root? = some k ∧ v.sketch = .ofExpr a ∧
          v.Made {m | m ∈ c.nodes} ∅ s s' := by
  obtain ⟨k, s₁, D, hexec, hk, hD, hDmade⟩ := yields_distance hc.frame.linked x center
  have hc₁ : c.Made {m | m ∈ c.nodes} ∅ s s₁ :=
    (Shape.Made.self hc.frame.linked hc.stands hc.alive).after hDmade.frame nofun fun _ _ => nofun
  unfold seriesTerm
  refine Realizes.step (exec_onNodes_of_ok hexec) ?_
  by_cases hpower : power = 0
  · rw [if_pos hpower, Formula.seriesTerm, if_pos hpower]
    exact ⟨m, s₁, rfl, c, hm, he, hc₁⟩
  rw [if_neg hpower, lift_seriesTerm hpower]
  -- a failure to represent a number leaves nodes that nobody uses
  refine (realizes_whole (hc.frame.trans hDmade.frame nofun) power).bind ?_
  rintro n _ _ ⟨rfl, rfl⟩
  have hne : c.root? ≠ D.root? := hDmade.root_ne hk hc.stands fun _ _ => Set.notMem_empty _
  obtain ⟨p, s₂, P, hexec, hp, hP, hPmade⟩ :=
    yields_product hc₁ (hDmade.mono (Set.empty_subset _)) hm hk hne n
  refine Realizes.step (exec_onNodes_of_ok hexec) ?_
  have hP₂ : P.Made {m | m ∈ c.nodes} ∅ s s₂ := by
    refine .trans hc₁.frame hPmade ?_
    rintro j (hj | hj)
    · exact .inl hj
    · exact .inr ((hDmade.mem j hj).1.resolve_left nofun)
  refine (realizes_whole (hc.frame.trans hP₂.frame fun j hj => (hc.mem j hj).1)
    (factorial power)).bind ?_
  rintro d _ _ ⟨rfl, rfl⟩
  obtain ⟨q, s₃, Q, hexec, hq, hQ, hQmade⟩ := yields_quotient hP₂ hp d
  have hQ₂ := Shape.Made.trans hP₂.frame hQmade fun j hj => (hP₂.mem j hj).1
  refine ⟨q, s₃, exec_onNodes_of_ok hexec, Q, hq, ?_, hQ₂⟩
  rw [hQ, hP, hD, he]
  rfl

omit [Arith α] in
/-- The nodes of the terms so far and those of another term are put under a sum. -/
theorem exec_addTerm {terms : Option (Expr α)} (hw : w.Made ∅ ∅ s₀ s) (hv : v.Made ∅ ∅ s₀ s)
    (hterms : w.sketch = (terms.map .ofExpr).getD .missing) (ha : v.sketch = .ofExpr a)
    (hk : v.root? = some k) (hne : w.root? ≠ v.root?) :
    ∃ (m : NodeId) (s' : Store α) (u : Shape α), exec (addTerm w.root? k) s = (.ok m, s') ∧
      u.root? = some m ∧ u.sketch = .ofExpr (Formula.addTerm terms a) ∧
        u.Made ({m | m ∈ w.nodes} ∪ {m | m ∈ v.nodes}) ∅ s s' := by
  have hs := hw.frame.linked
  cases terms with
  | none =>
    obtain rfl := Shape.sketch_eq_missing hterms
    exact ⟨k, s, v, rfl, hk, ha, (Shape.Made.self hs hv.stands hv.alive).mono
      Set.subset_union_right⟩
  | some e =>
    cases hn : w.root? with
    | none =>
      rw [Shape.missing_of_root? hn] at hterms
      exact absurd hterms.symm (Sketch.ofExpr_ne_missing e)
    | some n =>
      obtain ⟨m, s', u, hexec, hm, hu, hmade⟩ := yields_pair hw hv hn hk hne .add
      refine ⟨m, s', u, exec_onNodes_of_ok hexec, hm, ?_, hmade⟩
      rw [hu, hterms, ha]
      rfl

/-- A root is near zero if what stands there is. -/
theorem isNumberNear_root {n : NodeId} {u : Shape α} {p : Option NodeId} (hu : u.StandsIn s p)
    (hn : u.root? = some n) (he : u.sketch = .ofExpr e) :
    ∃ cell, exec (Storing.cell n : Storing α (Cell α)) s = (.ok cell, s) ∧
      cell.isNumberNear Arith.zero Arith.tolerance = Term.nearZero e := by
  cases u with
  | missing => cases hn
  | node k op value freed l r =>
    obtain rfl : k = n := Option.some.inj hn
    refine ⟨_, Storing.exec_cell_of_some hu.1, ?_⟩
    cases e <;> obtain ⟨rfl, rfl, -, -⟩ := Sketch.node.inj he <;> rfl

end

end Developing

/-! ## the loop of a series -/

namespace Formula

variable [Arith α] [Numeral α]

/-- The terms so far and the term that a derivative gives. -/
def addDerivative (s : Strictness) (x : String) (center : α) (power : Nat) (derivative : Formula α)
    (terms : Option (Expr α)) : Working α (CalculusError α) (Option (Expr α)) := do
  let value ← (derivative.atPoint x center).simplified s
  .note (.coefficient power value.root)
  if Term.nearZero value.root then pure terms
  else do
    let term ← .lift ((seriesTerm x center power value.root).mapError .fault)
    pure (some (addTerm terms term))

/-- The terms from a power on: the first one, and those after it. -/
theorem seriesFrom_eq (s : Strictness) (x : String) (center : α) (power more : Nat)
    (derivative : Formula α) (terms : Option (Expr α)) :
    seriesFrom s x center power more derivative terms = (do
      let terms ← addDerivative s x center power derivative terms
      match more with
      | 0 => return terms
      | more + 1 => do
        let next ← (derivative.withRoot (derivative.root.derivative x)).simplified s
        seriesFrom s x center (power + 1) more next terms) := by
  cases more
  all_goals
    rw [seriesFrom, addDerivative, Noted.bind_assoc]
    congr 1
    funext value
    rw [Noted.bind_assoc]
    congr 1
    funext u
    dsimp only
    split
    · rfl
    · rw [Noted.bind_assoc]

end Formula

namespace Developing

variable {s s' s₀ s₁ : Store α}

open Formula (seriesFrom_eq)

section

variable [Arith α] {n : NodeId} {u w c : Shape α} {f : Formula α} {e : Option (Expr α)}

/-- What the loop of a series holds: the nodes of the derivative, and apart from them new nodes of
the terms so far. -/
structure Held (s₀ s : Store α) (n : NodeId) (u w : Shape α) (f : Formula α)
    (terms : Option (Expr α)) : Prop where
  root : u.root? = some n
  stands : u.StandsIn s none
  derivative : u.sketch = .ofExpr f.root
  made : w.Made ∅ ∅ s₀ s
  terms : w.sketch = (terms.map .ofExpr).getD .missing
  apart : u.root? ≠ w.root?

omit [Arith α] in
/-- What is held stays where none of its nodes is moved. -/
theorem Held.frame {A : Set NodeId} (h : Held s₀ s n u w f e) (hs : s.Frame A ∅ s₁)
    (hA : ∀ m ∈ A, m ∈ (∅ : Set NodeId) ∨ s₀.length ≤ m) (hu : ∀ m ∈ u.nodes, m ∉ A)
    (hw : ∀ m ∈ w.nodes, m ∉ A) : Held s₀ s₁ n u w f e :=
  { h with stands := h.stands.frame hs hu, made := h.made.after hs hA hw }

omit [Arith α] in
/-- New nodes do not matter to what is held. -/
theorem Held.grow (h : Held s₀ s n u w f e) (hs : s.Frame ∅ ∅ s₁) : Held s₀ s₁ n u w f e :=
  h.frame hs nofun (fun _ _ => Set.notMem_empty _) fun _ _ => Set.notMem_empty _

omit [Arith α] in
/-- The derivative is a well-formed tree that stands for its formula. -/
theorem Held.wellFormed (h : Held s₀ s n u w f e) (vars : Names) :
    Tree.WellFormed s ⟨some n, vars⟩ n ∧ s.sketch n = .ofExpr f.root := by
  have hs := h.made.frame.linked
  refine ⟨Tree.wellFormed_of_stands hs h.stands h.root rfl, ?_⟩
  rw [h.stands.sketch_eq (h.stands.nodup_of_root hs) h.root, h.derivative]

omit [Arith α] in
/-- New nodes of another term are put under a sum with those that are held. -/
theorem Held.exec_addTerm {v : Shape α} {a : Expr α} {k : NodeId} (h : Held s₀ s n u w f e)
    (hv : v.Made ∅ ∅ s₀ s) (ha : v.sketch = .ofExpr a) (hk : v.root? = some k)
    (hu : u.root? ≠ v.root?) (hw : w.root? ≠ v.root?) :
    ∃ (m : NodeId) (s' : Store α) (w' : Shape α), exec (addTerm w.root? k) s = (.ok m, s') ∧
      w'.root? = some m ∧ Held s₀ s' n u w' f (some (Formula.addTerm e a)) := by
  obtain ⟨m, s', w', hexec, hm, hw', hmade⟩ := Developing.exec_addTerm h.made hv h.terms ha hk hw
  have hs := h.made.frame.linked
  have hapart : ∀ m ∈ u.nodes, m ∉ {m | m ∈ w.nodes} ∪ {m | m ∈ v.nodes} := by
    rintro m hm (hmw | hmv)
    · exact h.stands.disjoint hs h.made.stands h.apart hm hmw
    · exact h.stands.disjoint hs hv.stands hu hm hmv
  have hfresh : ∀ m ∈ {m | m ∈ w.nodes} ∪ {m | m ∈ v.nodes},
      m ∈ (∅ : Set NodeId) ∨ s₀.length ≤ m := by
    rintro m (hm | hm)
    · exact (h.made.mem m hm).1
    · exact (hv.mem m hm).1
  exact ⟨m, s', w', hexec, hm, h.root, h.stands.frame hmade.frame hapart, h.derivative,
    .trans h.made.frame hmade hfresh, hw', hmade.root_ne hm h.stands hapart⟩

/-- The term of a coefficient is added to those before, unless it is near zero. -/
theorem realizes_addCoefficient {x : String} {center : α} (h : Held s₀ s n u w f e) {k : NodeId}
    {a : Expr α} (hc : c.Made ∅ ∅ s₀ s) (hk : c.root? = some k) (ha : c.sketch = .ofExpr a)
    (hu : u.root? ≠ c.root?) (hw : w.root? ≠ c.root?) (power : Nat) :
    Realizes (s₀.Frame ∅ ∅) s (addCoefficient x center power k w.root?)
      (if Term.nearZero a then pure e
      else do
        let term ← .lift ((Formula.seriesTerm x center power a).mapError .fault)
        pure (some (Formula.addTerm e term)))
      fun terms e' s' => ∃ w' : Shape α, w'.root? = terms ∧ Held s₀ s' n u w' f e' := by
  obtain ⟨cell, hcell, hnear⟩ := isNumberNear_root hc.stands hk ha
  unfold addCoefficient
  refine Realizes.step (exec_onNodes_of_ok hcell) ?_
  rw [hnear]
  split
  · exact realizes_pure ⟨w, rfl, h⟩
  refine (realizes_seriesTerm hc hk ha power).bind ?_
  rintro m t s₂ ⟨v, hm, hv, hvmade⟩
  -- the nodes of the coefficient are moved, and nothing that is held
  have hfresh : ∀ m ∈ {m | m ∈ c.nodes}, m ∈ (∅ : Set NodeId) ∨ s₀.length ≤ m := fun m hm =>
    (hc.mem m hm).1
  have hapart : ∀ m ∈ u.nodes, m ∉ {m | m ∈ c.nodes} := fun m hm =>
    h.stands.disjoint h.made.frame.linked hc.stands hu hm
  have hdisj := h.made.disjoint hc hw
  have h₂ := h.frame hvmade.frame hfresh hapart hdisj
  obtain ⟨m', s₃, w', hexec, hm', h₃⟩ := h₂.exec_addTerm (.trans h.made.frame hvmade hfresh) hv hm
    (hvmade.root_ne hm h.stands hapart) (hvmade.root_ne hm h.made.stands hdisj)
  exact Realizes.step hexec (realizes_pure ⟨w', hm', h₃⟩)

/-- The term that a derivative gives is added to those before. -/
theorem realizes_addDerivative [Numeral α] {vars : Names} {x : String} {center : α} (hx : x ∈ vars)
    (h : Held s₀ s n u w f e) (st : Strictness) (power : Nat) :
    Realizes (s₀.Frame ∅ ∅) s (addDerivative st x center power ⟨some n, vars⟩ w.root?)
      (Formula.addDerivative st x center power f e)
      fun terms e' s' => ∃ w' : Shape α, w'.root? = terms ∧ Held s₀ s' n u w' f e' := by
  obtain ⟨htree, hsketch⟩ := h.wellFormed vars
  refine ((realizes_atPoint htree hsketch hx center st).after h.made.frame).bind ?_
  rintro k g s' ⟨c, hk, hc, hmade⟩
  refine Realizes.noted _ ?_
  exact realizes_addCoefficient (h.grow hmade.frame) (.trans h.made.frame hmade nofun) hk hc
    (hmade.root_ne hk h.stands fun _ _ => Set.notMem_empty _)
    (hmade.root_ne hk h.made.stands fun _ _ => Set.notMem_empty _) power

/-- The loop of a series does with nodes what it does with expressions. -/
theorem realizes_seriesFrom [Numeral α] {vars : Names} {x : String} {center : α} (hx : x ∈ vars)
    (st : Strictness) (more : Nat) {power : Nat} (h : Held s₀ s n u w f e) :
    Realizes (s₀.Frame ∅ ∅) s (seriesFrom st x center power more ⟨some n, vars⟩ w.root?)
      (Formula.seriesFrom st x center power more f e) fun terms e' s' =>
        ∃ w' : Shape α, w'.root? = terms ∧ w'.Made ∅ ∅ s₀ s' ∧
          w'.sketch = (e'.map .ofExpr).getD .missing := by
  induction more generalizing power s n u w f e with
  | zero =>
    rw [seriesFrom, seriesFrom_eq]
    refine (realizes_addDerivative hx h st power).bind ?_
    rintro _ e' s' ⟨w', rfl, h'⟩
    exact realizes_pure ⟨w', rfl, h'.made, h'.terms⟩
  | succ more ih =>
    rw [seriesFrom, seriesFrom_eq]
    refine (realizes_addDerivative hx h st power).bind ?_
    rintro _ e' s' ⟨w', rfl, h'⟩
    obtain ⟨htree, hsketch⟩ := h'.wellFormed vars
    obtain ⟨m, s₂, v, hexec, hm, hv, hmade⟩ := Tree.exec_differentiate htree hsketch hx
    refine Realizes.step (exec_onTrees_of_ok hexec) ?_
    have hslope := realizes_simplified_of_made (f := f.withRoot (f.root.derivative x))
      (t := ⟨some m, vars⟩) hmade hm hv rfl st
    refine (hslope.after h'.made.frame).bind ?_
    rintro _ g s₃ ⟨k, u', rfl, hk, hu', hmade'⟩
    have hw' := h'.made.after hmade'.frame nofun fun _ _ => Set.notMem_empty _
    exact ih ⟨hk, hmade'.stands, hu', hw', h'.terms,
      (hmade'.root_ne hk h'.made.stands fun _ _ => Set.notMem_empty _).symm⟩

/-- The nodes of the terms, or of zero. -/
theorem exec_sumOf (hw : w.Made ∅ ∅ s₀ s) (hterms : w.sketch = (e.map .ofExpr).getD .missing) :
    ∃ (m : NodeId) (s' : Store α) (v : Shape α), exec (sumOf w.root?) s = (.ok m, s') ∧
      v.root? = some m ∧ v.sketch = .ofExpr (e.getD (.num Arith.zero)) ∧ v.Made ∅ ∅ s₀ s' := by
  cases e with
  | none =>
    obtain rfl := Shape.sketch_eq_missing hterms
    obtain ⟨m, s', v, hexec, hm, hv, hmade⟩ :=
      Storing.yields_num (.start hw.frame.linked) (Arith.zero : α)
    exact ⟨m, s', v, exec_onNodes_of_ok hexec, hm, hv, .trans hw.frame hmade nofun⟩
  | some a =>
    cases hm : w.root? with
    | none =>
      rw [Shape.missing_of_root? hm] at hterms
      exact absurd hterms.symm (Sketch.ofExpr_ne_missing a)
    | some m => exact ⟨m, s, w, rfl, hm, hterms, hw⟩

end

/-! ## series and tangents -/

section

variable {t : Tree} {n : NodeId} {e : Expr α}

theorem exec_withRoot {u : Shape α} (hu : u.StandsIn s none) (hn : u.root? = some n) :
    exec (onTrees (t.withRoot n)) s = (.ok { t with root := some n }, s) :=
  exec_onTrees_of_ok (Tree.exec_onNodes_of_ok (t.exec_setRoot hu hn))

/-- The same variables are known. -/
theorem realizes_requireVar (hs : s.Linked) (e : Expr α) (t : Tree) (x : String) :
    Realizes (s.Frame ∅ ∅) s (onTrees (t.requireVar x)) (.lift (Formula.requireVar ⟨e, t.vars⟩ x))
      fun _ _ s' => s' = s ∧ x ∈ t.vars := by
  by_cases hx : x ∈ t.vars
  · rw [Realizes, Noted.lift, Formula.requireVar, if_pos (List.contains_iff_mem.mpr hx)]
    exact ⟨⟨⟩, s, exec_onTrees_of_ok (t.exec_requireVar_of_mem hx), rfl, hx⟩
  · rw [Realizes, Noted.lift, Formula.requireVar, if_neg (mt List.contains_iff_mem.mp hx)]
    refine ⟨s, ?_, .start hs⟩
    rw [onTrees, exec_adapt, t.exec_requireVar_of_not_mem hx]
    rfl

/-- What a tree holds before anything is made. -/
theorem Held.start (h : t.WellFormed s n) (he : s.sketch n = .ofExpr e) :
    ∃ u : Shape α, Held s s n u .missing ⟨e, t.vars⟩ none := by
  obtain ⟨u, hn, hu, -, -, hsketch⟩ := h.exists_shape
  refine ⟨u, hn, hu, hsketch.symm.trans he, .missing (.start h.linked), rfl, ?_⟩
  rw [hn]
  nofun

variable [Arith α] [Numeral α]

/-- The Taylor polynomial of a tree is that of its formula. -/
theorem realizes_series (h : t.WellFormed s n) (he : s.sketch n = .ofExpr e) (st : Strictness)
    (x : String) (center : α) (order : Int) :
    Realizes (s.Frame ∅ ∅) s (series st t x center order)
      (Formula.series st ⟨e, t.vars⟩ x center order) (Grown t s) := by
  refine (realizes_requireVar h.linked e t x).bind ?_
  rintro _ _ _ ⟨rfl, hx⟩
  cases order with
  | negSucc k => exact ⟨_, rfl, .start h.linked⟩
  | ofNat k =>
    obtain ⟨u, hheld⟩ := Held.start h he
    have ht : t = ⟨some n, t.vars⟩ := by rw [← h.root]
    rw [ht]
    refine (realizes_seriesFrom hx st k hheld).bind ?_
    rintro _ terms s₁ ⟨w, rfl, hw, hterms⟩
    obtain ⟨m, s₂, v, hexec, hm, hv, hmade⟩ := exec_sumOf hw hterms
    refine Realizes.step hexec (Realizes.step (exec_withRoot hmade.stands hm) ?_)
    exact realizes_simplified_of_made hmade hm hv rfl st

/-- The tangent of a tree is that of its formula. -/
theorem realizes_tangent (h : t.WellFormed s n) (he : s.sketch n = .ofExpr e) (st : Strictness)
    (x : String) (point : α) :
    Realizes (s.Frame ∅ ∅) s (tangent st t x point)
      (Formula.tangent st ⟨e, t.vars⟩ x point) (Grown t s) := by
  refine (realizes_requireVar h.linked e t x).bind ?_
  rintro _ _ _ ⟨rfl, hx⟩
  refine (realizes_atPoint h he hx point st).bind ?_
  rintro j value s₁ ⟨v, hj, hv, hvmade⟩
  obtain ⟨h₁, he₁⟩ := h.frame hvmade.frame
  obtain ⟨k, s₂, u, hexec, hk, hu, hmade⟩ := Tree.exec_differentiate h₁ (he₁.trans he) hx
  refine Realizes.step (exec_onTrees_of_ok hexec) ?_
  have hslope := realizes_atPoint_of_made (t := ⟨some k, t.vars⟩)
    (f := ⟨e.derivative x, t.vars⟩) hmade hk hu rfl hx point st
  refine (hslope.after hvmade.frame).bind ?_
  rintro m slope s₃ ⟨c, hm, hc, hcmade⟩
  obtain ⟨k, s₄, D, hexec, hk, hD, hDmade⟩ := yields_distance hcmade.frame.linked x point
  refine Realizes.step (exec_onNodes_of_ok hexec) ?_
  -- the value, the slope and the distance were made one after the other
  have hfree (w : Shape α) : ∀ m ∈ w.nodes, m ∉ (∅ : Set NodeId) := fun _ _ => Set.notMem_empty _
  have hv₃ := hvmade.after hcmade.frame nofun (hfree v)
  have hv₄ := hv₃.after hDmade.frame nofun (hfree v)
  have hc₄ := (Shape.Made.trans hvmade.frame hcmade nofun).after hDmade.frame nofun (hfree c)
  have hD₄ := Shape.Made.trans hv₃.frame hDmade nofun
  obtain ⟨q, s₅, L, hexec, hq, hL, hLmade⟩ := yields_line hv₄ hc₄ hD₄ hj hm hk
    (hcmade.root_ne hm hvmade.stands (hfree v)) (hDmade.root_ne hk hv₃.stands (hfree v))
    (hDmade.root_ne hk hcmade.stands (hfree c))
  refine Realizes.step (exec_onNodes_of_ok hexec) (Realizes.step (exec_withRoot hLmade.stands hq) ?_)
  refine realizes_simplified_of_made (.trans hv₄.frame hLmade ?_) hq ?_ rfl st
  · rintro m (hmv | hmc | hmD)
    · exact (hv₄.mem m hmv).1
    · exact (hc₄.mem m hmc).1
    · exact (hD₄.mem m hmD).1
  · rw [hL, hv, hc, hD]
    rfl

omit [Arith α] in
/-- A call that develops a tree as a formula is developed. -/
theorem Realizes.developed {call : Developing α Tree}
    {x : Working α (CalculusError α) (Formula α)}
    (h : Realizes (s.Frame ∅ ∅) s call x (Grown t s)) :
    Discreet s ((exec call s).1.mapError .ofDevelop) (exec call s).2 ∧
    (exec call s).1.map (fun t' => (t'.sketch (exec call s).2, t'.vars)) =
      (x.result.map fun f => (.ofExpr f.root, t.vars)).mapError .ofCalculus := by
  unfold Realizes at h
  cases hx : x.result with
  | error e =>
    rw [hx] at h
    obtain ⟨s', hexec, hs'⟩ := h
    rw [hexec]
    exact ⟨discreet_of_error hs' (DevelopError.kind_ne_ofCalculus e), rfl⟩
  | ok f =>
    rw [hx] at h
    obtain ⟨_, s', hexec, m, u, rfl, hm, hu, hmade⟩ := h
    rw [hexec]
    refine ⟨discreet_of_made hmade hm t, ?_⟩
    have hsketch : Tree.sketch s' { t with root := some m } = .ofExpr f.root :=
      (Tree.sketch_of_made hmade hm).trans hu
    simp only [Except.map, Except.mapError, hsketch]

end

end Developing

/-- The Taylor series and the tangents of a well-formed tree for an expression are well-formed trees
of new nodes.  None of these calls fails because a node is owned or has children, and none changes a
node that was there before.  The trees stand for the series and the tangents of the formula, under
the same table of variables, and there are none exactly if the formula has none. -/
theorem wellFormed_developed [Arith α] [Numeral α] {s : Store α} {t : Tree} {n : NodeId}
    (h : t.WellFormed s n) {e : Expr α} (he : s.sketch n = .ofExpr e) (st : Strictness)
    (x : String) :
    (∀ center order,
      let call := Developing.series st t x center order
      Discreet s ((exec call s).1.mapError .ofDevelop) (exec call s).2 ∧
      (exec call s).1.map (fun t' => (t'.sketch (exec call s).2, t'.vars)) =
        ((Formula.series st ⟨e, t.vars⟩ x center order).result.map
          fun f => (.ofExpr f.root, t.vars)).mapError .ofCalculus) ∧
    ∀ point,
      let call := Developing.tangent st t x point
      Discreet s ((exec call s).1.mapError .ofDevelop) (exec call s).2 ∧
      (exec call s).1.map (fun t' => (t'.sketch (exec call s).2, t'.vars)) =
        ((Formula.tangent st ⟨e, t.vars⟩ x point).result.map
          fun f => (.ofExpr f.root, t.vars)).mapError .ofCalculus :=
  ⟨fun center order => (Developing.realizes_series h he st x center order).developed,
    fun point => (Developing.realizes_tangent h he st x point).developed⟩

end Fluxion

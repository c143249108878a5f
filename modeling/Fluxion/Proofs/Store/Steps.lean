import Fluxion.Proofs.Formula.WellBuilt
import Fluxion.Proofs.Store.Calculus

/-!
# Fluxion.Proofs.Store.Steps

What all trees of nodes have in common that come from a text.

A tree is read, and calls make other trees of new nodes from it: derivatives, values for a variable,
simplified forms, series and tangents.  Each such call is a step that the formula of the tree takes as
well (`Tree.Step.formula`).  So what the steps of formulas keep holds of the nodes: they are linked
to a tree, and each has the operands that its operation takes.

* `Tree.Rewrites`, `Tree.Step`: the calls, and steps from one tree to the next;
* `Tree.wellBuilt_of_calls`: what all trees have that come from a text.
-/

namespace Fluxion

open Store

variable {α β γ : Type}

/-- What is known of a call that has a result. -/
theorem Developing.Realizes.of_exec {R : Store α → Prop} {s s' : Store α} {call : Developing α β}
    {x : Working α (CalculusError α) γ} {Q : β → γ → Store α → Prop} {b : β}
    (h : Realizes R s call x Q) (hexec : exec call s = (.ok b, s')) :
    ∃ c, x.result = .ok c ∧ Q b c s' := by
  unfold Realizes at h
  cases hx : x.result with
  | error e =>
    rw [hx] at h
    obtain ⟨s₁, hfail, -⟩ := h
    cases hfail.symm.trans hexec
  | ok c =>
    rw [hx] at h
    obtain ⟨b', s₁, hok, hQ⟩ := h
    cases hok.symm.trans hexec
    exact ⟨c, rfl, hQ⟩

namespace Tree

/-- A tree is rewritten as another one by a call that makes new nodes for it. -/
inductive Rewrites : Store Float × Tree → Store Float × Tree → Prop where
  | differentiate {s s' : Store Float} {t t' : Tree} (x : String)
      (h : exec (t.differentiate x) s = (.ok t', s')) : Rewrites (s, t) (s', t')
  | substitute {s s' : Store Float} {t t' : Tree} (x : String) (v : Float)
      (h : exec (t.substitute x v) s = (.ok t', s')) : Rewrites (s, t) (s', t')
  | simplify {s s' : Store Float} {t t' : Tree} (st : Strictness)
      (h : exec (Developing.simplified st t) s = (.ok t', s')) : Rewrites (s, t) (s', t')
  | series {s s' : Store Float} {t t' : Tree} (st : Strictness) (x : String) (center : Float)
      (order : Int) (h : exec (Developing.series st t x center order) s = (.ok t', s')) :
      Rewrites (s, t) (s', t')
  | tangent {s s' : Store Float} {t t' : Tree} (st : Strictness) (x : String) (point : Float)
      (h : exec (Developing.tangent st t x point) s = (.ok t', s')) : Rewrites (s, t) (s', t')

/-- A step from one tree to the next: it is rewritten, or takes up a variable. -/
inductive Step (p : Store Float × Tree) : Store Float × Tree → Prop where
  | rewrite {q : Store Float × Tree} (h : Rewrites p q) : Step p q
  | addVar {t' : Tree} {s' : Store Float} (x : String)
      (h : exec (p.2.addVar x : Growing Float Tree) p.1 = (.ok t', s')) : Step p (s', t')

/-- A tree is well-formed, and what stands below its root is an expression. -/
def StandsFor (p : Store Float × Tree) (e : Expr Float) : Prop :=
  ∃ n, p.2.WellFormed p.1 n ∧ p.1.sketch n = .ofExpr e

/-- New nodes for an expression are a tree. -/
theorem standsFor_of_made {s s' : Store Float} {t : Tree} {m : NodeId} {u : Shape Float}
    {e : Expr Float} (hm : u.root? = some m) (hu : u.sketch = .ofExpr e) (hmade : u.Made ∅ ∅ s s') :
    StandsFor (s', { t with root := some m }) e :=
  ⟨m, wellFormed_of_stands hmade.frame.linked hmade.stands hm rfl, (sketch_of_made hmade hm).trans hu⟩

/-- A call by a variable has a result only if the variable is in the table. -/
theorem mem_of_exec {s s' : Store α} {t : Tree} {x : String} {rest : Unit → Growing α β} {b : β}
    (h : exec (t.requireVar x >>= rest) s = (.ok b, s')) : x ∈ t.vars := by
  by_contra hx
  rw [exec_bind_of_error (t.exec_requireVar_of_not_mem hx)] at h
  cases h

section

variable {p q : Store Float × Tree} {e : Expr Float}

/-- What is developed from a tree for an expression stands for what is developed from it. -/
theorem formula_of_realizes {s s' : Store Float} {t t' : Tree} {call : Developing Float Tree}
    {x : Working Float (CalculusError Float) (Formula Float)}
    (h : Developing.Realizes (s.Frame ∅ ∅) s call x (Developing.Grown t s))
    (hexec : exec call s = (.ok t', s'))
    (hkeeps : ∀ g, x.result = .ok g → Formula.Rewrites ⟨e, t.vars⟩ g ∧ g.vars = t.vars) :
    ∃ e', StandsFor (s', t') e' ∧ Formula.Rewrites ⟨e, t.vars⟩ ⟨e', t'.vars⟩ ∧ t'.vars = t.vars := by
  obtain ⟨⟨e', vars⟩, hg, m, u, rfl, hm, hu, hmade⟩ := h.of_exec hexec
  obtain ⟨hrewrites, rfl⟩ := hkeeps _ hg
  exact ⟨e', standsFor_of_made hm hu hmade, hrewrites, rfl⟩

/-- A call that rewrites a tree rewrites its formula. -/
theorem Rewrites.formula (h : Rewrites p q) (he : StandsFor p e) (hfits : e.Fits p.2.vars) :
    ∃ e', StandsFor q e' ∧ Formula.Rewrites ⟨e, p.2.vars⟩ ⟨e', q.2.vars⟩ ∧
      q.2.vars = p.2.vars := by
  obtain ⟨n, htree, he⟩ := he
  have hmem {x : String} {vars : Names} (hx : x ∈ vars) :
      Formula.requireVar ⟨e, vars⟩ x = .ok () := if_pos (List.contains_iff_mem.mpr hx)
  have hkeeps {vars : Names} (hvars : e.Fits vars) (g : Formula Float)
      (h : Formula.Rewrites ⟨e, vars⟩ g) : Formula.Rewrites ⟨e, vars⟩ g ∧ g.vars = vars :=
    ⟨h, (h.keeps hvars).2⟩
  cases h with
  | @differentiate s s' t t' x h =>
    have hx := mem_of_exec h
    obtain ⟨m, s₁, u, hexec, hm, hu, hmade⟩ := exec_differentiate htree he hx
    cases hexec.symm.trans h
    refine ⟨_, standsFor_of_made hm hu hmade, .differentiate x ?_, rfl⟩
    rw [Formula.differentiate, hmem hx]
    rfl
  | @substitute s s' t t' x v h =>
    have hx := mem_of_exec h
    obtain ⟨m, s₁, u, hexec, hm, hu, hmade⟩ := exec_substitute htree he hx v
    cases hexec.symm.trans h
    refine ⟨_, standsFor_of_made hm hu hmade, .substitute x v ?_, rfl⟩
    rw [Formula.substitute, hmem hx]
    rfl
  | @simplify s s' t t' st h =>
    refine formula_of_realizes (Developing.realizes_simplified (f := ⟨e, t.vars⟩) htree he st) h
      fun g hg => hkeeps hfits g ?_
    exact .simplify st (mapError_eq_ok.mp hg)
  | @series s s' t t' st x center order h =>
    exact formula_of_realizes (Developing.realizes_series htree he st x center order) h
      fun g hg => hkeeps hfits g (.series st x center order hg)
  | @tangent s s' t t' st x point h =>
    exact formula_of_realizes (Developing.realizes_tangent htree he st x point) h
      fun g hg => hkeeps hfits g (.tangent st x point hg)

/-- A step of a tree is a step of its formula. -/
theorem Step.formula (h : Step p q) (he : StandsFor p e) (hfits : e.Fits p.2.vars) :
    ∃ e', StandsFor q e' ∧ Formula.Step ⟨e, p.2.vars⟩ ⟨e', q.2.vars⟩ := by
  cases h with
  | rewrite h =>
    obtain ⟨e', he', h, -⟩ := h.formula he hfits
    exact ⟨e', he', .rewrite h⟩
  | @addVar t' s' x h =>
    obtain ⟨n, htree, he⟩ := he
    rw [Tree.addVar] at h
    cases hadd : p.2.vars.add x with
    | error f =>
      rw [hadd] at h
      cases h
    | ok vars =>
      rw [hadd] at h
      cases h
      refine ⟨e, ⟨n, { htree with }, he⟩, .addVar x ?_⟩
      rw [Formula.addVar, hadd]
      rfl

end

/-- The tree of a text stands for its formula. -/
theorem standsFor_read {s s' : Store Float} {t : Tree} {text : String} (hs : s.Linked)
    (h : exec (read text) s = (.ok t, s')) :
    ∃ e, StandsFor (s', t) e ∧ Formula.read text = .ok ⟨e, t.vars⟩ := by
  rw [read] at h
  cases hread : (Formula.read text : Except ReadError (Formula Float)) with
  | error e =>
    rw [hread] at h
    cases h
  | ok f =>
    obtain ⟨n, s₁, u, hexec, hn, hu, hmade⟩ := Storing.yields_plant hs (Sketch.bare_ofExpr f.root)
      (Sketch.ofExpr_ne_missing f.root)
    have hplanted : exec (planted f.vars (.ofExpr f.root)) s = (.ok ⟨some n, f.vars⟩, s₁) :=
      exec_bind_of_ok (exec_onNodes_of_ok hexec) _
    rw [hread] at h
    cases hplanted.symm.trans h
    exact ⟨f.root, standsFor_of_made (t := ⟨none, f.vars⟩) hn hu hmade, rfl⟩

/-- **Trees stay well-built.**  Whatever comes from the tree of a text by derivatives, values for
variables, simplifications, series, tangents and more variables, in any number and order: its links
are consistent and without circles, and its root is not owned; its nodes have the operands that
their operations take, its numbers are not below zero, its names are in its table, and the table is
without repetitions and not too long.  A call that takes up no variable leaves the table as it is. -/
theorem wellBuilt_of_calls {s₀ s s' : Store Float} {t t' : Tree} {text : String} (hs : s₀.Linked)
    (hread : exec (read text) s₀ = (.ok t, s))
    (hsteps : Relation.ReflTransGen Step (s, t) (s', t')) :
    ((∃ n, t'.WellFormed s' n) ∧ (t'.sketch s').WellBuilt t'.vars ∧ t'.vars.Nodup ∧
      t'.vars.length ≤ maxNames) ∧
    ∀ q, Rewrites (s', t') q → q.2.vars = t'.vars := by
  have hfits : ∀ q, Relation.ReflTransGen Step (s, t) q →
      ∃ e, StandsFor q e ∧ Formula.Fits ⟨e, q.2.vars⟩ := by
    intro q hq
    induction hq with
    | refl =>
      obtain ⟨e, he, hread⟩ := standsFor_read hs hread
      exact ⟨e, he, Formula.fits_read hread⟩
    | tail _ hstep ih =>
      obtain ⟨e, he, hfits⟩ := ih
      obtain ⟨e', he', h⟩ := hstep.formula he hfits.root
      exact ⟨e', he', h.fits hfits⟩
  obtain ⟨e, ⟨n, htree, he⟩, hfit⟩ := hfits _ hsteps
  have hsketch : t'.sketch s' = .ofExpr e := by
    rw [sketch, htree.root]
    exact he
  refine ⟨⟨⟨n, htree⟩, ?_, hfit.nodup, hfit.length_le⟩, fun q hq => ?_⟩
  · rw [hsketch]
    exact Expr.wellBuilt_ofExpr hfit.root
  · obtain ⟨e', -, -, hvars⟩ := hq.formula ⟨n, htree, he⟩ hfit.root
    exact hvars

end Tree

end Fluxion

import Fluxion.Proofs.Formula.Warnings
import Fluxion.Proofs.Formula.WellBuilt

/-!
# Fluxion.Proofs.Formula.Termination

Passes without a limit.

Whatever numbers an expression is built from, after one pass none is below zero, and from there on
every pass that changes something makes it lighter.  So there is a number of passes from which on a
larger limit makes no difference: the run has settled or failed by then.

A number below zero becomes a negation, which is a node more.  Nothing else adds a node.

* `Expr.noNegative_pass`: what the first pass leaves;
* `Expr.passes_stable`: a run that is over does not depend on its limit;
* `Formula.simplify_terminates`: the runs of all formulas.
-/

namespace Fluxion

namespace Expr

variable {s : Strictness} {e : Expr Float}

theorem Fits.noNegative {vars : Names} (h : e.Fits vars) : e.NoNegative := by
  induction e with
  | num v => exact h
  | var x => trivial
  | bin op a b iha ihb => exact ⟨iha h.1, ihb h.2⟩
  | neg a ih => exact ih h
  | app f a ih => exact ih h

/-- What a pass leaves has no number below zero, even if the expression had one. -/
theorem noNegative_pass {p : Expr Float × Bool} (h : (pass s e).result = .ok p) :
    p.1.NoNegative := by
  induction e generalizing p with
  | num v =>
      obtain rfl := Except.ok.inj h
      by_cases hv : Arith.negative v = true
      · rw [Term.reduceNum, if_pos hv]
        have hfits : (Term.literal (Arith.add v Arith.zero) : Expr Float).Fits [] := fits_literal _
        exact hfits.noNegative
      · rw [Term.reduceNum, if_neg hv]
        exact Bool.eq_false_iff.mpr hv
  | var x =>
      obtain rfl := Except.ok.inj h
      trivial
  | bin op a b iha ihb =>
      obtain ⟨a', b', o, ha, hb, ho, rfl, -⟩ := pass_bin_ok h
      refine Hereditary.settled ⟨iha ha, ihb hb⟩ ?_
      rintro t rfl
      exact hereditary_noNegative.reduceBin (iha ha) (ihb hb) ho
  | neg a ih =>
      obtain ⟨a', ha, rfl, -⟩ := pass_neg_ok h
      have ha' : a'.1.NoNegative := ih ha
      exact Hereditary.settled (hereditary_noNegative.neg.mpr ha') fun t ht =>
        hereditary_noNegative.reduceNeg ha' ht
  | app f a ih =>
      obtain ⟨a', o, ha, ho, rfl, -⟩ := pass_app_ok h
      have ha' : a'.1.NoNegative := ih ha
      refine Hereditary.settled (hereditary_noNegative.app.mpr ha') ?_
      rintro t rfl
      exact hereditary_noNegative.reduceApp ha' ho

/-- A run that has settled or failed is the same with a larger limit. -/
theorem passes_stable {n : Nat} (h : ∀ e', (passes s n e).result ≠ .ok (e', false)) (k : Nat) :
    passes s (n + k) e = passes s n e := by
  induction n generalizing e with
  | zero => exact absurd rfl (h e)
  | succ n ih =>
    rw [Nat.succ_add, passes, passes, untilSettled, untilSettled]
    rcases hp : (pass s e).result with f | ⟨e₁, changed⟩
    · simp [Noted.bind_eq, Noted.bind, hp]
    cases changed with
    | false => simp [Noted.bind_eq, Noted.bind, hp]
    | true =>
      have hrest : ∀ e', (passes s n e₁).result ≠ .ok (e', false) := by
        intro e' hrun
        refine h e' ?_
        rw [passes, untilSettled, Noted.bind_result_of_ok hp]
        exact hrun
      have hsame := ih hrest
      rw [passes, passes] at hsame
      simp [Noted.bind_eq, Noted.bind, hp, hsame]

/-- From some number of passes on a run has settled or failed. -/
theorem exists_limit (s : Strictness) (e : Expr Float) :
    ∃ limit, ∀ n, limit ≤ n → passes s n e = passes s limit e ∧
      ∀ e' settled, (passes s n e).result = .ok (e', settled) → settled = true := by
  have hover : ∃ limit, ∀ e', (passes s limit e).result ≠ .ok (e', false) := by
    rcases hp : (pass s e).result with f | ⟨e₁, changed⟩
    · refine ⟨1, fun e' h => ?_⟩
      rw [passes, untilSettled, Noted.bind_result_of_error hp] at h
      cases h
    cases changed with
    | false =>
      refine ⟨1, fun e' h => ?_⟩
      rw [passes, untilSettled, Noted.bind_result_of_ok hp] at h
      cases h
    | true =>
      refine ⟨e₁.weight + 1, fun e' h => ?_⟩
      rw [passes, untilSettled, Noted.bind_result_of_ok hp] at h
      exact Bool.false_ne_true ((noNegative_pass hp).passes_settle le_rfl h)
  obtain ⟨limit, hlimit⟩ := hover
  refine ⟨limit, fun n hn => ?_⟩
  obtain ⟨k, rfl⟩ := Nat.exists_eq_add_of_le hn
  rw [passes_stable hlimit k]
  refine ⟨rfl, fun e' settled h => ?_⟩
  cases settled with
  | true => rfl
  | false => exact absurd h (hlimit e')

end Expr

namespace Formula

/-- **Simplification comes to an end.**  With a large enough limit the run of passes over a formula
settles, unless one of them fails, and a larger limit makes no difference.  A pass that reports no
change changes nothing.  If no number of the formula is below zero, no pass of any run adds a node,
and what the formula is simplified to has no more nodes than the formula. -/
theorem simplify_terminates (s : Strictness) (f : Formula Float) :
    (∃ limit, ∀ n, limit ≤ n → Expr.passes s n f.root = Expr.passes s limit f.root ∧
      ∀ e settled, (Expr.passes s n f.root).result = .ok (e, settled) → settled = true) ∧
    (∀ e e' : Expr Float, (Expr.pass s e).result = .ok (e', false) → e' = e) ∧
    (f.root.NoNegative →
      (∀ n e settled p, (Expr.passes s n f.root).result = .ok (e, settled) →
        (Expr.pass s e).result = .ok p → p.1.size ≤ e.size) ∧
      ∀ g, (f.simplify s).result = .ok g → g.root.size ≤ f.root.size) := by
  refine ⟨Expr.exists_limit s f.root, fun _ _ h => Expr.eq_of_unchanged h, fun hf => ⟨?_, ?_⟩⟩
  · intro n e settled p hrun hpass
    exact ((hf.passes_le hrun).1.settling_pass hpass).size_le
  · intro g hg
    rw [result_simplify] at hg
    obtain ⟨⟨e, settled⟩, hrun, rfl⟩ := map_eq_ok.mp hg
    exact (hf.passes_le hrun).2.2

/-- The difference of a variable and its negation is simplified to twice the variable, in two passes
of which neither adds a node. -/
theorem simplify_terminates_difference :
    let f : Formula Float := ⟨.bin .sub (.var "x") (.neg (.var "x")), ["x"]⟩
    let sum : Expr Float := .bin .add (.var "x") (.var "x")
    let twice : Expr Float := .bin .mul (.num Arith.two) (.var "x")
    (∃ limit, Expr.passes .lenient (limit + 1) f.root = Expr.passes .lenient limit f.root) ∧
      sum.size ≤ f.root.size ∧ twice.size ≤ sum.size ∧ (f.withRoot twice).root.size ≤ f.root.size := by
  intro f sum twice
  obtain ⟨⟨limit, hlimit⟩, -, hsizes⟩ := simplify_terminates .lenient f
  obtain ⟨hpasses, hsimplify⟩ := hsizes ⟨trivial, trivial⟩
  exact ⟨⟨limit, (hlimit _ (Nat.le_succ limit)).1⟩, hpasses 0 f.root false (sum, true) rfl rfl,
    hpasses 1 sum false (twice, true) rfl rfl, hsimplify (f.withRoot twice) rfl⟩

end Formula

end Fluxion

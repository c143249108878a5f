import Fluxion.Proofs.Expr.Normal
import Fluxion.Proofs.Expr.Tex
import Fluxion.Proofs.Formula.Termination

/-!
# Fluxion.Proofs.Formula.NormalForm

What simplification leads to.

A simplification that settles leads to a normal expression.  A formula that is normal is simplified
to itself, and one that is not is simplified to another one: no run of passes comes back to where it
began, since passes make an expression lighter, and a number below zero is gone after the first one.

* `Expr.noNegative_of_same`: numbers below zero are not equal to any others;
* `Formula.simplify_normal`: what a formula is simplified to.
-/

namespace Fluxion

namespace Expr

open Binary64 Float.Model

theorem lt_zero_of_beq {a b : UnpackedFloat} (h : a.beq b = true) :
    a.lt (.zero .positive) = b.lt (.zero .positive) := by
  cases a with
  | notANumber => cases b <;> cases h
  | infinity s =>
    cases b with
    | infinity t => cases s <;> cases t <;> first | rfl | cases h
    | notANumber | zero | finite => cases s <;> cases h
  | zero s =>
    cases b with
    | zero t => rfl
    | infinity t | finite t => cases t <;> cases h
    | notANumber => cases h
  | finite s =>
    cases b with
    | finite t => cases s <;> cases t <;> first | rfl | cases h
    | infinity t => cases t <;> cases h
    | notANumber | zero => cases s <;> cases h

/-- Equal numbers are on the same side of zero. -/
theorem negative_eq_of_beq {v w : Float} (h : (v == w) = true) :
    Arith.negative v = Arith.negative w := by
  rw [beq_eq] at h
  rw [negative_eq, negative_eq, lt_zero_of_beq h]

theorem noNegative_of_same {a b : Expr Float} (h : a.same b = true) (ha : a.NoNegative) :
    b.NoNegative := by
  induction a generalizing b with
  | num v =>
    cases b <;> simp only [same, Bool.false_eq_true] at h
    exact (negative_eq_of_beq h).symm.trans ha
  | var x =>
    cases b <;> simp only [same, Bool.false_eq_true] at h
    trivial
  | bin op l r ihl ihr =>
    cases b <;> simp only [same, Bool.and_eq_true, Bool.false_eq_true] at h
    exact ⟨ihl h.1.2 ha.1, ihr h.2 ha.2⟩
  | neg a ih =>
    cases b <;> simp only [same, Bool.false_eq_true] at h
    next b => exact (ih h ha : b.NoNegative)
  | app f a ih =>
    cases b <;> simp only [same, Bool.and_eq_true, Bool.false_eq_true] at h
    next b => exact (ih h.2 ha : b.NoNegative)

/-- An expression does not differ from itself if none of its numbers does. -/
theorem same_self_of_numbers {e : Expr Float} (h : ∀ v ∈ e.numbers, v.isNaN = false) :
    e.same e = true := by
  induction e with
  | num v =>
    have hnan : (parts v).isNaN = false := h v (List.mem_singleton_self v)
    have hnumber : parts v ≠ .notANumber := by
      intro hparts
      rw [hparts] at hnan
      cases hnan
    exact unpacked_beq_self hnumber
  | var x => exact beq_self_eq_true x
  | bin op a b iha ihb =>
    have ha := iha fun v hv => h v (List.mem_append_left _ hv)
    have hb := ihb fun v hv => h v (List.mem_append_right _ hv)
    simp [same, ha, hb]
  | neg a ih => exact ih h
  | app f a ih => simp [same, ih h]

/-- A run of passes that has a result begins with a pass that has one. -/
theorem pass_of_passes {s : Strictness} {n : Nat} {e : Expr Float} {p : Expr Float × Bool}
    (h : (passes s (n + 1) e).result = .ok p) : ∃ e₁ changed, (pass s e).result = .ok (e₁, changed) := by
  rcases passes_succ h with ⟨e₁, hpass, -⟩ | ⟨hpass, -⟩
  · exact ⟨e₁, true, hpass⟩
  · exact ⟨p.1, false, hpass⟩

end Expr

namespace Formula

/-- What a formula is simplified to has no number below zero. -/
theorem noNegative_simplify {s : Strictness} {f g : Formula Float}
    (hg : (f.simplify s).result = .ok g) : g.root.NoNegative := by
  rw [result_simplify] at hg
  obtain ⟨⟨e, settled⟩, hrun, rfl⟩ := map_eq_ok.mp hg
  rcases Expr.passes_succ hrun with ⟨e₁, hpass, hrest, -⟩ | ⟨hpass, -, -⟩
  · exact ((Expr.noNegative_pass hpass).passes_le hrest).1
  · exact Expr.noNegative_pass hpass

/-- **Normal form.**  What a lenient simplification that settles leads to is normal.  If no number of
the formula is undefined, what it is simplified to is equal to it exactly if it is normal, whether
the simplification settles or not. -/
theorem simplify_normal {f g : Formula Float} (hg : (f.simplify .lenient).result = .ok g) :
    (.unsettled ∉ (f.simplify .lenient).notes → g.root.Normal) ∧
      ((∀ v ∈ f.root.numbers, v.isNaN = false) → (g.same f = true ↔ f.root.Normal)) := by
  refine ⟨fun hsettled => ?_, fun hnumbers => ⟨fun hsame => ?_, fun hnormal => ?_⟩⟩
  · obtain ⟨hlast, -⟩ := Expr.pass_of_settled (passes_of_simplify hg hsettled)
    exact (Expr.pass_normal hlast).mp rfl
  · have hfirst := Expr.noNegative_of_same hsame (noNegative_simplify hg)
    rw [result_simplify] at hg
    obtain ⟨⟨e, settled⟩, hrun, rfl⟩ := map_eq_ok.mp hg
    exact (Expr.pass_normal (hfirst.unchanged_of_same hrun hsame)).mp rfl
  · rw [result_simplify] at hg
    obtain ⟨⟨e, settled⟩, hrun, rfl⟩ := map_eq_ok.mp hg
    obtain ⟨e₁, changed, hpass⟩ := Expr.pass_of_passes hrun
    obtain rfl := (Expr.pass_normal hpass).mpr hnormal
    obtain rfl := Expr.eq_of_unchanged hpass
    rw [maxPasses, Expr.passes_of_unchanged hpass] at hrun
    cases hrun
    exact Expr.same_self_of_numbers hnumbers

/-- Twice a negated variable is simplified to the negation of twice the variable, which is normal;
so it is not normal itself, and not equal to what it is simplified to. -/
theorem simplify_normal_product :
    let f : Formula Float := ⟨.bin .mul (.num 2) (.neg (.var "x")), ["x"]⟩
    let g := f.withRoot (.neg (.bin .mul (.num 2) (.var "x")))
    (f.simplify .lenient).result = .ok g ∧ g.root.Normal ∧ g.same f = false ∧ ¬f.root.Normal := by
  intro f g
  have hg : (f.simplify .lenient).result = .ok g := by rfl
  have hnumbers : ∀ v ∈ f.root.numbers, v.isNaN = false := by decide +kernel
  obtain ⟨hnormal, hiff⟩ := simplify_normal hg
  refine ⟨hg, hnormal ?_, rfl, fun hf => ?_⟩
  · have hnotes : (f.simplify .lenient).notes = [] := by rfl
    rw [hnotes]
    exact List.not_mem_nil
  · exact Bool.false_ne_true ((hiff hnumbers).mpr hf)

end Formula

end Fluxion

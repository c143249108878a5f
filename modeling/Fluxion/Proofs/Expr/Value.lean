import Fluxion.Expr.Evaluate
import Fluxion.Proofs.Except
import Fluxion.Proofs.Number.Real

/-!
# Fluxion.Proofs.Expr.Value

When an expression has a value, constructor by constructor.

* `Expr.evaluate_bin_eq_ok` and its siblings: a node has a value exactly when its operands have
  values at which the operation is defined;
* `Expr.Denotes`: an expression over the reals has a value, and nowhere inside is zero raised to
  the power of zero.  This is what a pass of simplification preserves: the value alone would not
  do, since `0 ^ x` is rewritten to zero, which is wrong at `x = 0` only.
-/

namespace Fluxion.Expr

/-! ## values of nodes -/

section

variable {α : Type} [Arith α] {env : Assignment α}

@[simp] theorem evaluate_num_eq_ok {w v : α} : (num w).evaluate env = .ok v ↔ w = v := by
  simp [evaluate]

@[simp] theorem evaluate_var_eq_ok {x : String} {v : α} :
    (var x).evaluate env = .ok v ↔ env x = some v := by
  cases h : env x with
  | none => simp [evaluate, h]
  | some w => simp [evaluate, h]

/-- An operation has a value where both operands have one and it can be computed. -/
theorem evaluate_bin_eq_ok {op : BinOp} {a b : Expr α} {v : α} :
    (bin op a b).evaluate env = .ok v ↔
      ∃ x y, a.evaluate env = .ok x ∧ b.evaluate env = .ok y ∧ op.compute x y = .ok v := by
  simp only [evaluate, bind_eq_ok, mapError_eq_ok, exists_and_left]

/-- A negation has a value where its operand has one. -/
theorem evaluate_neg_eq_ok {a : Expr α} {v : α} :
    (neg a).evaluate env = .ok v ↔ ∃ x, a.evaluate env = .ok x ∧ Arith.neg x = v := by
  simp only [evaluate, bind_eq_ok, pure_eq_ok]

/-- A function has a value where its operand has one in its domain. -/
theorem evaluate_app_eq_ok {f : Fn} {a : Expr α} {v : α} :
    (app f a).evaluate env = .ok v ↔ ∃ x, a.evaluate env = .ok x ∧ Arith.apply f x = .ok v := by
  simp only [evaluate, bind_eq_ok, mapError_eq_ok]

end

/-! ## values over the reals -/

section

variable {env : Assignment ℝ}

/-- Over the reals operations are the total ones where they are defined. -/
theorem evaluate_bin_real {op : BinOp} {a b : Expr ℝ} {v : ℝ} :
    (bin op a b).evaluate env = .ok v ↔
      ∃ x y, a.evaluate env = .ok x ∧ b.evaluate env = .ok y ∧ op.DefinedAt x y ∧
        op.real x y = v := by
  simp only [evaluate_bin_eq_ok, compute_eq_ok]

/-- Over the reals a negation is the opposite. -/
theorem evaluate_neg_real {a : Expr ℝ} {v : ℝ} :
    (neg a).evaluate env = .ok v ↔ ∃ x, a.evaluate env = .ok x ∧ -x = v := by
  simp only [evaluate_neg_eq_ok, real_neg]

/-- Over the reals functions are the total ones where they are defined. -/
theorem evaluate_app_real {f : Fn} {a : Expr ℝ} {v : ℝ} :
    (app f a).evaluate env = .ok v ↔
      ∃ x, a.evaluate env = .ok x ∧ f.DefinedAt x ∧ f.real x = v := by
  simp only [evaluate_app_eq_ok, apply_eq_ok]

theorem evaluate_bin_of_definedAt {a b : Expr ℝ} {p q : ℝ} (op : BinOp)
    (ha : a.evaluate env = .ok p) (hb : b.evaluate env = .ok q) (h : op.DefinedAt p q) :
    (bin op a b).evaluate env = .ok (op.real p q) := evaluate_bin_real.mpr ⟨p, q, ha, hb, h, rfl⟩

theorem evaluate_app_of_definedAt {a : Expr ℝ} {p : ℝ} (f : Fn) (ha : a.evaluate env = .ok p)
    (h : f.DefinedAt p) : (app f a).evaluate env = .ok (f.real p) :=
  evaluate_app_real.mpr ⟨p, ha, h, rfl⟩

end

/-! ## values without zero to the power of zero -/

/-- No power inside an expression has a base and an exponent that are both zero. -/
def ZeroPowerFree (env : Assignment ℝ) : Expr ℝ → Prop
  | num _ | var _ => True
  | bin op a b =>
    a.ZeroPowerFree env ∧ b.ZeroPowerFree env ∧
      ¬(op = .pow ∧ a.evaluate env = .ok 0 ∧ b.evaluate env = .ok 0)
  | neg a | app _ a => a.ZeroPowerFree env

/-- An expression has a value, and on the way to it zero is not raised to the power of zero. -/
def Denotes (env : Assignment ℝ) (e : Expr ℝ) (v : ℝ) : Prop :=
  e.evaluate env = .ok v ∧ e.ZeroPowerFree env

variable {env : Assignment ℝ}

@[simp] theorem denotes_num {w v : ℝ} : Denotes env (num w) v ↔ w = v := by
  simp [Denotes, ZeroPowerFree]

@[simp] theorem denotes_neg {a : Expr ℝ} {v : ℝ} :
    Denotes env (neg a) v ↔ ∃ x, Denotes env a x ∧ -x = v := by
  simp only [Denotes, ZeroPowerFree, evaluate_neg_real]
  constructor
  · intro h
    obtain ⟨⟨x, hx, hv⟩, hz⟩ := h
    exact ⟨x, ⟨hx, hz⟩, hv⟩
  · intro h
    obtain ⟨x, ⟨hx, hz⟩, hv⟩ := h
    exact ⟨⟨x, hx, hv⟩, hz⟩

/-- The values of a function are those that it has for the values of its operand. -/
theorem denotes_app {f : Fn} {a : Expr ℝ} {v : ℝ} :
    Denotes env (app f a) v ↔ ∃ x, Denotes env a x ∧ f.DefinedAt x ∧ f.real x = v := by
  simp only [Denotes, ZeroPowerFree, evaluate_app_real]
  constructor
  · intro h
    obtain ⟨⟨x, hx, hv⟩, hz⟩ := h
    exact ⟨x, ⟨hx, hz⟩, hv⟩
  · intro h
    obtain ⟨x, ⟨hx, hz⟩, hv⟩ := h
    exact ⟨⟨x, hx, hv⟩, hz⟩

/-- The values of an operation leave out zero to the power of zero. -/
theorem denotes_bin {op : BinOp} {a b : Expr ℝ} {v : ℝ} :
    Denotes env (bin op a b) v ↔
      ∃ x y, Denotes env a x ∧ Denotes env b y ∧ op.DefinedAt x y ∧ op.real x y = v ∧
        ¬(op = .pow ∧ x = 0 ∧ y = 0) := by
  simp only [Denotes, ZeroPowerFree, evaluate_bin_real]
  constructor
  · intro h
    obtain ⟨⟨x, y, hx, hy, hd, hv⟩, hza, hzb, hz⟩ := h
    refine ⟨x, y, ⟨hx, hza⟩, ⟨hy, hzb⟩, hd, hv, ?_⟩
    intro h
    obtain ⟨hop, rfl, rfl⟩ := h
    exact hz ⟨hop, hx, hy⟩
  · intro h
    obtain ⟨x, y, ⟨hx, hza⟩, ⟨hy, hzb⟩, hd, hv, hz⟩ := h
    refine ⟨⟨x, y, hx, hy, hd, hv⟩, hza, hzb, ?_⟩
    intro h
    obtain ⟨hop, ha, hb⟩ := h
    rw [hx] at ha
    rw [hy] at hb
    exact hz ⟨hop, Except.ok.inj ha, Except.ok.inj hb⟩

theorem Denotes.of_eq {e : Expr ℝ} {v w : ℝ} (h : Denotes env e v) (hv : v = w) :
    Denotes env e w := hv ▸ h

/-- The value of a negation is the opposite of that of its operand. -/
theorem Denotes.negation {a : Expr ℝ} {x : ℝ} (h : Denotes env a x) : Denotes env (neg a) (-x) :=
  denotes_neg.mpr ⟨x, h, rfl⟩

/-- A node other than a power denotes what its operation makes of its operands. -/
theorem Denotes.binary {a b : Expr ℝ} {x y : ℝ} (ha : Denotes env a x) (op : BinOp)
    (hb : Denotes env b y) (hd : op.DefinedAt x y) (hop : op ≠ .pow) :
    Denotes env (bin op a b) (op.real x y) :=
  denotes_bin.mpr ⟨x, y, ha, hb, hd, rfl, fun hz => hop hz.1⟩

/-- The term of a number denotes it, whatever its sign. -/
theorem denotes_literal {w v : ℝ} : Denotes env (Term.literal w) v ↔ w = v := by
  unfold Term.literal
  by_cases hw : Arith.nonneg w = true
  · rw [if_pos hw]
    exact denotes_num
  · rw [if_neg hw]
    refine denotes_neg.trans ?_
    simp only [real_neg]
    constructor
    · intro h
      obtain ⟨x, hx, hv⟩ := h
      have hx' : -w = x := denotes_num.mp hx
      linarith
    · intro h
      obtain rfl := h
      exact ⟨-w, denotes_num.mpr rfl, neg_neg w⟩

/-- Over the reals, terms of the same shape are equal. -/
theorem eq_of_same {a b : Expr ℝ} (h : a.same b = true) : a = b := by
  induction a generalizing b with
  | num v =>
      cases b <;> simp only [same, Bool.false_eq_true] at h
      rw [(real_beq _ _).mp h]
  | var x =>
      cases b <;> simp only [same, Bool.false_eq_true] at h
      rw [eq_of_beq h]
  | bin op l r ihl ihr =>
      cases b <;> simp only [same, Bool.false_eq_true] at h
      simp only [Bool.and_eq_true] at h
      obtain ⟨⟨hop, hl⟩, hr⟩ := h
      rw [eq_of_beq hop, ihl hl, ihr hr]
  | neg a ih =>
      cases b <;> simp only [same, Bool.false_eq_true] at h
      rw [ih h]
  | app f a ih =>
      cases b <;> simp only [same, Bool.false_eq_true] at h
      simp only [Bool.and_eq_true] at h
      rw [eq_of_beq h.1, ih h.2]

end Fluxion.Expr

import Fluxion.Formula.Calculus
import Fluxion.Proofs.Expr.Value

/-!
# Fluxion.Proofs.Expr.Derivative

The symbolic derivative is the derivative.

An expression over the reals is a partial function of each of its variables.  It extends to a total
function (`Expr.total`) by the usual total extensions of the operations, and where the expression
and its symbolic derivative both have values, the extension has the value of the latter as its
derivative.  The side conditions of the rules of calculus all follow from those two values: a
divisor is not zero because the quotient has a value, a root is not taken of zero because the
inverse of the root has one.

* `Term.hasDerivAt_outer`: the table of derivatives of functions;
* `Expr.hasDerivAt_total`: the derivative of the extension, by induction on the expression;
* `Formula.hasDerivative_differentiate`: the derivative of the partial function;
* `Formula.not_hasDerivative_twoSides`: a formula and its symbolic derivative may have values at a
  point around which the formula has none.
-/

namespace Fluxion

open Fluxion.Expr (evaluate_bin_real evaluate_neg_real evaluate_app_real)

/-! ## values of the rules -/

namespace Term

variable {env : Assignment ℝ} {a b da db u du : Expr ℝ} {p q w d : ℝ}

/-- An expression has at most one value. -/
theorem value_unique {e : Expr ℝ} {v : ℝ} (hv : e.evaluate env = .ok v)
    (hw : e.evaluate env = .ok w) : v = w := Except.ok.inj (hv.symm.trans hw)

/-- The value of a square. -/
theorem square_value (hu : u.evaluate env = .ok w) (h : (square u).evaluate env = .ok d) :
    d = w ^ 2 := by
  obtain ⟨x, y, hx, hy, -, rfl⟩ := evaluate_bin_real.mp h
  obtain rfl := value_unique hu hx
  obtain rfl : 2 = y := Except.ok.inj hy
  exact Real.rpow_two w

/-- An inverse has a value where its operand is not zero. -/
theorem inverse_value (h : (inverse u).evaluate env = .ok d) :
    ∃ w, u.evaluate env = .ok w ∧ w ≠ 0 ∧ d = 1 / w := by
  obtain ⟨x, w, hx, hw, hd, rfl⟩ := evaluate_bin_real.mp h
  obtain rfl : 1 = x := Except.ok.inj hx
  exact ⟨w, hw, hd, rfl⟩

/-- What the product rule says has the value that it should have. -/
theorem productRule_value (ha : a.evaluate env = .ok p) (hb : b.evaluate env = .ok q)
    (h : (productRule a b da db).evaluate env = .ok d) :
    ∃ x y, da.evaluate env = .ok x ∧ db.evaluate env = .ok y ∧ d = x * q + p * y := by
  obtain ⟨_, _, hl, hr, -, rfl⟩ := evaluate_bin_real.mp h
  obtain ⟨x, q', hx, hq, -, rfl⟩ := evaluate_bin_real.mp hl
  obtain ⟨p', y, hp, hy, -, rfl⟩ := evaluate_bin_real.mp hr
  obtain rfl := value_unique hb hq
  obtain rfl := value_unique ha hp
  exact ⟨x, y, hx, hy, rfl⟩

/-- What the quotient rule says has the value that it should have. -/
theorem quotientRule_value (ha : a.evaluate env = .ok p) (hb : b.evaluate env = .ok q)
    (h : (quotientRule a b da db).evaluate env = .ok d) :
    ∃ x y, da.evaluate env = .ok x ∧ db.evaluate env = .ok y ∧ d = (x * q - p * y) / q ^ 2 := by
  obtain ⟨_, s, hn, hs, -, rfl⟩ := evaluate_bin_real.mp h
  obtain rfl := square_value hb hs
  obtain ⟨_, _, hl, hr, -, rfl⟩ := evaluate_bin_real.mp hn
  obtain ⟨x, q', hx, hq, -, rfl⟩ := evaluate_bin_real.mp hl
  obtain ⟨p', y, hp, hy, -, rfl⟩ := evaluate_bin_real.mp hr
  obtain rfl := value_unique hb hq
  obtain rfl := value_unique ha hp
  exact ⟨x, y, hx, hy, rfl⟩

/-- The derivative of a power with a constant base needs a positive base. -/
theorem constantBase_value (ha : a.evaluate env = .ok p) (hb : b.evaluate env = .ok q)
    (h : (constantBase a b db).evaluate env = .ok d) :
    ∃ y, db.evaluate env = .ok y ∧ 0 < p ∧ d = Real.log p * p ^ q * y := by
  obtain ⟨_, y, hl, hy, -, rfl⟩ := evaluate_bin_real.mp h
  obtain ⟨_, _, hln, hpow, -, rfl⟩ := evaluate_bin_real.mp hl
  obtain ⟨p₁, hp₁, hpos, rfl⟩ := evaluate_app_real.mp hln
  obtain ⟨p₂, q₁, hp₂, hq₁, -, rfl⟩ := evaluate_bin_real.mp hpow
  obtain rfl := value_unique ha hp₁
  obtain rfl := value_unique ha hp₂
  obtain rfl := value_unique hb hq₁
  exact ⟨y, hy, hpos, rfl⟩

/-- The derivative of a power with a constant exponent is defined where the lower power is. -/
theorem constantExponent_value (ha : a.evaluate env = .ok p) (hb : b.evaluate env = .ok q)
    (h : (constantExponent a b da).evaluate env = .ok d) :
    ∃ x, da.evaluate env = .ok x ∧ PowDefinedAt p (q - 1) ∧ d = q * p ^ (q - 1) * x := by
  obtain ⟨_, x, hl, hx, -, rfl⟩ := evaluate_bin_real.mp h
  obtain ⟨q₁, _, hq₁, hpow, -, rfl⟩ := evaluate_bin_real.mp hl
  obtain ⟨p₁, _, hp₁, hsub, hdef, rfl⟩ := evaluate_bin_real.mp hpow
  obtain ⟨q₂, o, hq₂, ho, -, rfl⟩ := evaluate_bin_real.mp hsub
  obtain rfl : 1 = o := Except.ok.inj ho
  obtain rfl := value_unique ha hp₁
  obtain rfl := value_unique hb hq₁
  obtain rfl := value_unique hb hq₂
  exact ⟨x, hx, hdef, rfl⟩

/-- The derivative of a power that depends on the variable twice needs a positive base. -/
theorem variablePower_value (ha : a.evaluate env = .ok p) (hb : b.evaluate env = .ok q)
    (h : (variablePower a b da db).evaluate env = .ok d) :
    ∃ x y, da.evaluate env = .ok x ∧ db.evaluate env = .ok y ∧ 0 < p ∧
      d = p ^ q * (y * Real.log p + q * x / p) := by
  obtain ⟨_, _, hpow, hsum, -, rfl⟩ := evaluate_bin_real.mp h
  obtain ⟨p₁, q₁, hp₁, hq₁, -, rfl⟩ := evaluate_bin_real.mp hpow
  obtain ⟨_, _, hl, hr, -, rfl⟩ := evaluate_bin_real.mp hsum
  obtain ⟨y, _, hy, hln, -, rfl⟩ := evaluate_bin_real.mp hl
  obtain ⟨p₂, hp₂, hpos, rfl⟩ := evaluate_app_real.mp hln
  obtain ⟨_, p₃, hm, hp₃, -, rfl⟩ := evaluate_bin_real.mp hr
  obtain ⟨q₂, x, hq₂, hx, -, rfl⟩ := evaluate_bin_real.mp hm
  obtain rfl := value_unique ha hp₁
  obtain rfl := value_unique ha hp₂
  obtain rfl := value_unique ha hp₃
  obtain rfl := value_unique hb hq₁
  obtain rfl := value_unique hb hq₂
  exact ⟨x, y, hx, hy, hpos, rfl⟩

/-- The chain rule multiplies two values. -/
theorem chain_value {f : Fn} (h : (chain f u du).evaluate env = .ok d) :
    ∃ o y, (outerDerivative f u).evaluate env = .ok o ∧ du.evaluate env = .ok y ∧ d = o * y := by
  obtain ⟨o, y, ho, hy, -, rfl⟩ := evaluate_bin_real.mp h
  exact ⟨o, y, ho, hy, rfl⟩

theorem app_value {f : Fn} (hu : u.evaluate env = .ok w) (h : (Expr.app f u).evaluate env = .ok d) :
    f.DefinedAt w ∧ d = f.real w := by
  obtain ⟨w₁, hw₁, hdef, rfl⟩ := evaluate_app_real.mp h
  obtain rfl := value_unique hu hw₁
  exact ⟨hdef, rfl⟩

/-! ## the table of derivatives -/

/-- The inverse of a term with a value has a value unless that is zero. -/
theorem inverse_value_of (hu : u.evaluate env = .ok w) (h : (inverse u).evaluate env = .ok d) :
    w ≠ 0 ∧ d = 1 / w := by
  obtain ⟨w₁, hw₁, hne, rfl⟩ := inverse_value h
  obtain rfl := value_unique hu hw₁
  exact ⟨hne, rfl⟩

theorem neg_value (h : (Expr.neg u).evaluate env = .ok d) :
    ∃ w, u.evaluate env = .ok w ∧ d = -w := by
  obtain ⟨w, hw, rfl⟩ := evaluate_neg_real.mp h
  exact ⟨w, hw, rfl⟩

/-- Half of the derivative of the inverse sine: its root is that of one less a square. -/
theorem inverse_sqrt_value (hu : u.evaluate env = .ok w)
    (h : (inverse (Expr.app .sqrt (Expr.bin .sub unit (square u)))).evaluate env = .ok d) :
    0 < 1 - w ^ 2 ∧ d = 1 / √(1 - w ^ 2) := by
  obtain ⟨_, hroot, hne, rfl⟩ := inverse_value h
  obtain ⟨_, hdiff, hle, rfl⟩ := evaluate_app_real.mp hroot
  obtain ⟨o, s, ho, hs, -, rfl⟩ := evaluate_bin_real.mp hdiff
  obtain rfl : 1 = o := Except.ok.inj ho
  obtain rfl := square_value hu hs
  exact ⟨Real.sqrt_pos.mp (lt_of_le_of_ne (Real.sqrt_nonneg _) (Ne.symm hne)), rfl⟩

/-- The derivative of the inverse tangent. -/
theorem inverse_one_add_square_value (hu : u.evaluate env = .ok w)
    (h : (inverse (Expr.bin .add unit (square u))).evaluate env = .ok d) :
    d = 1 / (1 + w ^ 2) := by
  obtain ⟨_, hsum, -, rfl⟩ := inverse_value h
  obtain ⟨o, s, ho, hs, -, rfl⟩ := evaluate_bin_real.mp hsum
  obtain rfl : 1 = o := Except.ok.inj ho
  obtain rfl := square_value hu hs
  rfl

/-- The cotangent, as the inverse of the tangent, at a point that is no pole of either. -/
theorem hasDerivAt_cot (hw : Fn.cot.DefinedAt w) :
    HasDerivAt Fn.cot.real (-(1 / Real.sin w ^ 2)) w := by
  obtain ⟨hcos, htan⟩ := hw
  have hsin : Real.sin w ≠ 0 := by
    intro h
    rw [Real.tan_eq_sin_div_cos, h, zero_div] at htan
    exact htan rfl
  have h : HasDerivAt Fn.cot.real (-(1 / Real.cos w ^ 2) / Real.tan w ^ 2) w :=
    ((Real.hasDerivAt_tan hcos).inv htan).congr_of_eventuallyEq
      (Filter.Eventually.of_forall fun v => one_div (Real.tan v))
  rw [Real.tan_eq_sin_div_cos] at h
  exact h.congr_deriv (by field_simp)

/-- The table of derivatives of functions is right at every operand at which the function and its
entry in the table have values. -/
theorem hasDerivAt_outer {f : Fn} (hu : u.evaluate env = .ok w) (hf : f.DefinedAt w)
    (h : (outerDerivative f u).evaluate env = .ok d) : HasDerivAt f.real d w := by
  cases f with
  | sin =>
      obtain ⟨-, rfl⟩ := app_value hu h
      exact Real.hasDerivAt_sin w
  | cos =>
      obtain ⟨_, hs, rfl⟩ := neg_value h
      obtain ⟨-, rfl⟩ := app_value hu hs
      exact Real.hasDerivAt_cos w
  | tan =>
      obtain ⟨_, hs, -, rfl⟩ := inverse_value h
      obtain rfl := square_value (Expr.evaluate_app_of_definedAt .cos hu trivial) hs
      exact Real.hasDerivAt_tan hf
  | cot =>
      obtain ⟨_, hi, rfl⟩ := neg_value h
      obtain ⟨_, hs, -, rfl⟩ := inverse_value hi
      obtain rfl := square_value (Expr.evaluate_app_of_definedAt .sin hu trivial) hs
      exact hasDerivAt_cot hf
  | arcsin =>
      obtain ⟨hpos, rfl⟩ := inverse_sqrt_value hu h
      have h₁ : w ≠ -1 := by
        intro h
        obtain rfl := h
        norm_num at hpos
      have h₂ : w ≠ 1 := by
        intro h
        obtain rfl := h
        norm_num at hpos
      exact Real.hasDerivAt_arcsin h₁ h₂
  | arccos =>
      obtain ⟨_, hi, rfl⟩ := neg_value h
      obtain ⟨hpos, rfl⟩ := inverse_sqrt_value hu hi
      have h₁ : w ≠ -1 := by
        intro h
        obtain rfl := h
        norm_num at hpos
      have h₂ : w ≠ 1 := by
        intro h
        obtain rfl := h
        norm_num at hpos
      exact Real.hasDerivAt_arccos h₁ h₂
  | arctan =>
      obtain rfl := inverse_one_add_square_value hu h
      exact Real.hasDerivAt_arctan w
  | arccot =>
      obtain ⟨_, hi, rfl⟩ := neg_value h
      obtain rfl := inverse_one_add_square_value hu hi
      exact (Real.hasDerivAt_arctan w).const_sub _
  | sqrt =>
      obtain ⟨_, hm, hne, rfl⟩ := inverse_value h
      obtain ⟨t, r, ht, hr, -, rfl⟩ := evaluate_bin_real.mp hm
      obtain rfl : 2 = t := Except.ok.inj ht
      obtain ⟨-, rfl⟩ := app_value hu hr
      have hw : w ≠ 0 := by
        intro h
        obtain rfl := h
        exact hne (by simp [BinOp.real, Fn.real])
      exact Real.hasDerivAt_sqrt hw
  | ln =>
      obtain ⟨hne, rfl⟩ := inverse_value_of hu h
      rw [one_div]
      exact Real.hasDerivAt_log hne

end Term

/-! ## the total extension -/

namespace Expr

/-- The value of an expression by the total extensions of the operations. -/
noncomputable def total (env : Assignment ℝ) : Expr ℝ → ℝ
  | num v => v
  | var x => (env x).getD 0
  | bin op a b => op.real (a.total env) (b.total env)
  | neg a => -a.total env
  | app f a => f.real (a.total env)

variable {env : Assignment ℝ} {x : String} {e : Expr ℝ} {a v d : ℝ}

/-- Where an expression has a value, the total extension has it. -/
theorem total_of_evaluate (h : e.evaluate env = .ok v) : e.total env = v := by
  induction e generalizing v with
  | num w => exact evaluate_num_eq_ok.mp h
  | var y => rw [total, evaluate_var_eq_ok.mp h, Option.getD_some]
  | bin op l r ihl ihr =>
      obtain ⟨p, q, hl, hr, -, rfl⟩ := evaluate_bin_real.mp h
      rw [total, ihl hl, ihr hr]
  | neg b ih =>
      obtain ⟨p, hb, rfl⟩ := evaluate_neg_real.mp h
      rw [total, ih hb]
  | app f b ih =>
      obtain ⟨p, hb, -, rfl⟩ := evaluate_app_real.mp h
      rw [total, ih hb]

/-- What does not depend on a variable has the same value wherever that is put. -/
theorem total_update_of_isConst (h : e.isConst x = true) (s : ℝ) :
    e.total (env.update x s) = e.total env := by
  induction e with
  | num w => rfl
  | var y =>
      have hy : y ≠ x := bne_iff_ne.mp h
      rw [total, total, Assignment.update, if_neg hy]
  | bin op l r ihl ihr =>
      obtain ⟨hl, hr⟩ := Bool.and_eq_true_iff.mp h
      rw [total, total, ihl hl, ihr hr]
  | neg b ih => rw [total, total, ih h]
  | app f b ih => rw [total, total, ih h]

/-- To set a variable to its value changes nothing. -/
theorem update_self (hx : env x = some a) : env.update x a = env := by
  funext y
  unfold Assignment.update
  by_cases hy : y = x
  · rw [if_pos hy, hy, hx]
  · rw [if_neg hy]

theorem update_update (env : Assignment ℝ) (x : String) (a b : ℝ) :
    (env.update x a).update x b = env.update x b := by
  funext y
  unfold Assignment.update
  by_cases hy : y = x
  · rw [if_pos hy, if_pos hy]
  · rw [if_neg hy, if_neg hy, if_neg hy]

theorem total_var_update (env : Assignment ℝ) (x : String) (a : ℝ) :
    (var x).total (env.update x a) = a := by
  rw [total, Assignment.update, if_pos rfl, Option.getD_some]

/-- An expression put for a variable gives it its value. -/
theorem total_subst (x : String) (u e : Expr ℝ) (env : Assignment ℝ) :
    (subst x u e).total env = e.total (env.update x (u.total env)) := by
  induction e with
  | num w => rfl
  | var y =>
      rw [subst, total, Assignment.update]
      by_cases hy : y = x
      · rw [if_pos hy, if_pos hy, Option.getD_some]
      · rw [if_neg hy, if_neg hy, total]
  | bin op l r ihl ihr => rw [subst, total, total, ihl, ihr]
  | neg b ih => rw [subst, total, total, ih]
  | app f b ih => rw [subst, total, total, ih]

/-- Nothing changes if a variable is given the value that it has. -/
theorem total_update_var (x : String) (e : Expr ℝ) (env : Assignment ℝ) :
    e.total (env.update x ((var x).total env)) = e.total env := by
  induction e with
  | num w => rfl
  | var y =>
      rw [total, Assignment.update]
      by_cases hy : y = x
      · rw [if_pos hy, Option.getD_some, hy]
      · rw [if_neg hy, total]
  | bin op l r ihl ihr => exact congrArg₂ op.real ihl ihr
  | neg b ih => exact congrArg Neg.neg ih
  | app f b ih => exact congrArg f.real ih

/-- The extension at the point itself is the value. -/
theorem total_update_self (hx : env x = some a) (h : e.evaluate env = .ok v) :
    e.total (env.update x a) = v := by
  rw [update_self hx, total_of_evaluate h]

/-- What does not depend on the variable has the derivative zero. -/
theorem hasDerivAt_of_isConst (h : e.isConst x = true) :
    HasDerivAt (fun s => e.total (env.update x s)) 0 a := by
  simp only [total_update_of_isConst h]
  exact hasDerivAt_const a _

/-- The derivative of a variable is one or zero. -/
theorem hasDerivAt_var (x y : String) (env env' : Assignment ℝ) :
    HasDerivAt (fun s => (var y).total (env.update x s)) (((var y).derivative x).total env') a := by
  by_cases hy : y = x
  · have hid : (fun s => (var y).total (env.update x s)) = id := by
      funext s
      rw [total, Assignment.update, if_pos hy, Option.getD_some, id]
    rw [hid, derivative, if_pos hy]
    exact hasDerivAt_id a
  · rw [derivative, if_neg hy]
    exact hasDerivAt_of_isConst (bne_iff_ne.mpr hy)

/-- A power, by whichever of the three rules applies.  The rules that take the logarithm of the base
have no value unless the base is positive, and the one that lowers the exponent has none at a base
of zero unless the exponent was at least one. -/
theorem hasDerivAt_power {l r dl dr : Expr ℝ} {p q : ℝ} (hx : env x = some a)
    (hl : l.evaluate env = .ok p) (hr : r.evaluate env = .ok q)
    (ihl : ∀ {y}, dl.evaluate env = .ok y → HasDerivAt (fun s => l.total (env.update x s)) y a)
    (ihr : ∀ {y}, dr.evaluate env = .ok y → HasDerivAt (fun s => r.total (env.update x s)) y a)
    (hd : (powerDerivative x l r dl dr).evaluate env = .ok d) :
    HasDerivAt (fun s => l.total (env.update x s) ^ r.total (env.update x s)) d a := by
  have hp := total_update_self hx hl
  have hq := total_update_self hx hr
  unfold powerDerivative at hd
  by_cases hcl : l.isConst x = true
  · rw [if_pos hcl] at hd
    obtain ⟨y, hy, hpos, rfl⟩ := Term.constantBase_value hl hr hd
    simp only [total_update_of_isConst hcl, total_of_evaluate hl]
    have h := (ihr hy).const_rpow hpos
    rw [hq] at h
    exact h.congr_deriv (by ring)
  · rw [if_neg hcl] at hd
    by_cases hcr : r.isConst x = true
    · rw [if_pos hcr] at hd
      obtain ⟨y, hy, hdef, rfl⟩ := Term.constantExponent_value hl hr hd
      simp only [total_update_of_isConst hcr, total_of_evaluate hr]
      have hside : p ≠ 0 ∨ 1 ≤ q := by
        obtain hpos | ⟨-, hle⟩ | ⟨hneg, -⟩ := hdef
        · exact .inl hpos.ne'
        · exact .inr (by linarith)
        · exact .inl hneg.ne
      rw [← hp] at hside
      have h := (ihl hy).rpow_const hside
      rw [hp] at h
      exact h.congr_deriv (by ring)
    · rw [if_neg hcr] at hd
      obtain ⟨y, z, hy, hz, hpos, rfl⟩ := Term.variablePower_value hl hr hd
      have h := (ihl hy).rpow (ihr hz) (by rw [hp]; exact hpos)
      rw [hp, hq, Real.rpow_sub_one hpos.ne'] at h
      exact h.congr_deriv (by ring)

/-- A binary node that depends on the variable. -/
theorem hasDerivAt_bin {op : BinOp} {l r dl dr : Expr ℝ} {p q : ℝ} (hx : env x = some a)
    (hl : l.evaluate env = .ok p) (hr : r.evaluate env = .ok q) (hdef : op.DefinedAt p q)
    (ihl : ∀ {y}, dl.evaluate env = .ok y → HasDerivAt (fun s => l.total (env.update x s)) y a)
    (ihr : ∀ {y}, dr.evaluate env = .ok y → HasDerivAt (fun s => r.total (env.update x s)) y a)
    (hd : (binDerivative x op l r dl dr).evaluate env = .ok d) :
    HasDerivAt (fun s => (bin op l r).total (env.update x s)) d a := by
  have hp := total_update_self hx hl
  have hq := total_update_self hx hr
  cases op with
  | add =>
      obtain ⟨y, z, hy, hz, -, rfl⟩ := evaluate_bin_real.mp hd
      exact (ihl hy).add (ihr hz)
  | sub =>
      obtain ⟨y, z, hy, hz, -, rfl⟩ := evaluate_bin_real.mp hd
      exact (ihl hy).sub (ihr hz)
  | mul =>
      obtain ⟨y, z, hy, hz, rfl⟩ := Term.productRule_value hl hr hd
      have h := (ihl hy).mul (ihr hz)
      rw [hp, hq] at h
      exact h
  | div =>
      obtain ⟨y, z, hy, hz, rfl⟩ := Term.quotientRule_value hl hr hd
      have hne : r.total (env.update x a) ≠ 0 := by
        rw [hq]
        exact hdef
      have h := (ihl hy).div (ihr hz) hne
      rw [hp, hq] at h
      exact h
  | pow => exact hasDerivAt_power hx hl hr ihl ihr hd

/-- Where an expression and its symbolic derivative have values, the total extension of the
expression has the value of the latter as its derivative. -/
theorem hasDerivAt_total (hx : env x = some a) (hv : e.evaluate env = .ok v)
    (hd : (e.derivative x).evaluate env = .ok d) :
    HasDerivAt (fun s => e.total (env.update x s)) d a := by
  induction e generalizing v d with
  | num w =>
      obtain rfl : 0 = d := Except.ok.inj hd
      exact hasDerivAt_const a w
  | var y =>
      rw [← total_of_evaluate hd]
      exact hasDerivAt_var x y env env
  | bin op l r ihl ihr =>
      rw [derivative] at hd
      by_cases hc : (bin op l r).isConst x = true
      · rw [if_pos hc] at hd
        obtain rfl : 0 = d := Except.ok.inj hd
        exact hasDerivAt_of_isConst hc
      · rw [if_neg hc] at hd
        obtain ⟨p, q, hl, hr, hdef, -⟩ := evaluate_bin_real.mp hv
        exact hasDerivAt_bin hx hl hr hdef (ihl hl) (ihr hr) hd
  | neg b ih =>
      rw [derivative] at hd
      by_cases hc : b.isConst x = true
      · rw [if_pos hc] at hd
        obtain rfl : 0 = d := Except.ok.inj hd
        exact hasDerivAt_of_isConst (e := neg b) hc
      · rw [if_neg hc] at hd
        obtain ⟨p, hb, -⟩ := evaluate_neg_real.mp hv
        obtain ⟨y, hy, rfl⟩ := evaluate_neg_real.mp hd
        exact (ih hb hy).neg
  | app f b ih =>
      rw [derivative] at hd
      by_cases hc : b.isConst x = true
      · rw [if_pos hc] at hd
        obtain rfl : 0 = d := Except.ok.inj hd
        exact hasDerivAt_of_isConst (e := app f b) hc
      · rw [if_neg hc] at hd
        obtain ⟨p, hb, hdef, -⟩ := evaluate_app_real.mp hv
        obtain ⟨o, y, ho, hy, rfl⟩ := Term.chain_value hd
        have houter := Term.hasDerivAt_outer hb hdef ho
        rw [← total_update_self hx hb] at houter
        exact houter.comp a (ih hb hy)

end Expr

/-! ## formulas -/

namespace Formula

open Filter Topology

/-- The values of a variable at which a formula has a value, the other variables being fixed. -/
def domain (f : Formula ℝ) (env : Assignment ℝ) (x : String) : Set ℝ :=
  {s | ∃ v, f.evaluate (env.update x s) = .ok v}

/-- A formula as a function of one of its variables, on its domain. -/
noncomputable def along (f : Formula ℝ) (env : Assignment ℝ) (x : String) (s : ℝ) : ℝ :=
  (f.evaluate (env.update x s)).toOption.getD 0

/-- The derivative of a partial function at a point of its domain that is not isolated: the limit of
the difference quotients over the domain. -/
structure HasDerivative (f : Formula ℝ) (env : Assignment ℝ) (x : String) (a d : ℝ) : Prop where
  accPt : AccPt a (𝓟 (f.domain env x))
  hasDerivWithinAt : HasDerivWithinAt (f.along env x) d (f.domain env x) a

variable {f : Formula ℝ} {env : Assignment ℝ} {x : String} {a v d d' s : ℝ}

/-- On its domain a formula is its total extension. -/
theorem along_eq_total (hs : s ∈ f.domain env x) :
    f.along env x s = f.root.total (env.update x s) := by
  obtain ⟨v, hv⟩ := hs
  rw [along, hv, Expr.total_of_evaluate hv]
  rfl

/-- There is at most one derivative. -/
theorem HasDerivative.unique (h : f.HasDerivative env x a d) (h' : f.HasDerivative env x a d') :
    d' = d :=
  (uniqueDiffWithinAt_iff_accPt.mpr h.accPt).eq_deriv _ h'.hasDerivWithinAt h.hasDerivWithinAt

/-- Where the derivative has a value it is the derivative on the domain. -/
theorem hasDerivWithinAt_along (hx : env x = some a) (hv : f.evaluate env = .ok v)
    (hd : (f.root.derivative x).evaluate env = .ok d) :
    HasDerivWithinAt (f.along env x) d (f.domain env x) a := by
  have ha : a ∈ f.domain env x := ⟨v, by rw [Expr.update_self hx, hv]⟩
  exact (Expr.hasDerivAt_total hx hv hd).hasDerivWithinAt.congr
    (fun s hs => along_eq_total hs) (along_eq_total ha)

/-- A formula is differentiated by a variable of its table. -/
theorem differentiate_eq_ok (hx : f.vars.contains x = true) :
    f.differentiate x = .ok (f.withRoot (f.root.derivative x)) := by
  rw [differentiate, requireVar, if_pos hx]
  rfl

/-- **The symbolic derivative is the derivative.**  By a variable of the table a formula has a
symbolic derivative; and wherever the formula and that have values, the formula, as a function of
the variable, has the value of the symbolic derivative as its derivative, unless the point is an
isolated one of its domain.  At an end of the domain the derivative is one-sided; where the formula
has values all around, it is the usual one. -/
theorem hasDerivative_differentiate (f : Formula ℝ) (x : String) (hx : f.vars.contains x = true) :
    ∃ g, f.differentiate x = .ok g ∧
      ∀ (env : Assignment ℝ) (a v d : ℝ), env x = some a →
        f.evaluate env = .ok v → g.evaluate env = .ok d →
          (AccPt a (𝓟 (f.domain env x)) →
            f.HasDerivative env x a d ∧ ∀ d', f.HasDerivative env x a d' → d' = d) ∧
          (f.domain env x ∈ 𝓝 a → HasDerivAt (f.along env x) d a) := by
  refine ⟨_, differentiate_eq_ok hx, fun env a v d hxa hv hd => ?_⟩
  have h : HasDerivWithinAt (f.along env x) d (f.domain env x) a :=
    hasDerivWithinAt_along hxa hv hd
  constructor
  · intro hacc
    have hder : f.HasDerivative env x a d := ⟨hacc, h⟩
    exact ⟨hder, fun d' h' => hder.unique h'⟩
  · intro hnhds
    exact h.hasDerivAt hnhds

/-- The square root of a variable. -/
def squareRoot : Formula ℝ := ⟨.app .sqrt (.var "x"), ["x"]⟩

theorem hasDerivAt_squareRoot_four :
    ∃ g, squareRoot.differentiate "x" = .ok g ∧
      HasDerivAt (squareRoot.along (.single "x" 4) "x") (1 / (2 * √4) * 1) 4 := by
  obtain ⟨g, hg, h⟩ := hasDerivative_differentiate squareRoot "x" rfl
  obtain rfl := Except.ok.inj ((differentiate_eq_ok rfl).symm.trans hg)
  have hroot : squareRoot.evaluate (.single "x" 4) = .ok √4 :=
    Expr.evaluate_app_of_definedAt .sqrt rfl (by norm_num [Fn.DefinedAt])
  have hnhds : squareRoot.domain (.single "x" 4) "x" ∈ 𝓝 4 := by
    filter_upwards [Ioi_mem_nhds (show (0 : ℝ) < 4 by norm_num)] with s hs
    exact ⟨√s, Expr.evaluate_app_of_definedAt .sqrt rfl (le_of_lt hs)⟩
  have hdouble := Expr.evaluate_bin_of_definedAt .mul (a := .num 2) rfl hroot trivial
  have hinverse := Expr.evaluate_bin_of_definedAt .div (a := Term.unit) rfl hdouble
    (by norm_num [BinOp.DefinedAt, BinOp.real])
  have hderiv := Expr.evaluate_bin_of_definedAt .mul (b := Term.unit) hinverse rfl trivial
  exact ⟨_, hg, (h _ 4 _ _ rfl hroot hderiv).2 hnhds⟩

/-! ## a formula with an isolated value -/

/-- A sum of two powers, one with values to the right of zero only and one to the left. -/
noncomputable def twoSides : Formula ℝ :=
  ⟨.bin .add (.bin .pow (.var "x") (.num 1.5)) (.bin .pow (.neg (.var "x")) (.num 1.5)), ["x"]⟩

/-- A power with the exponent one and a half has values at bases that are not negative only. -/
theorem nonneg_of_powDefinedAt {s : ℝ} (h : PowDefinedAt s 1.5) : 0 ≤ s := by
  obtain hpos | ⟨hzero, -⟩ | ⟨-, n, hn⟩ := h
  · exact hpos.le
  · exact hzero.ge
  · have hreal : ((3 : ℤ) : ℝ) = ((2 * n : ℤ) : ℝ) := by
      push_cast
      linarith
    have hint : (3 : ℤ) = 2 * n := by exact_mod_cast hreal
    omega

/-- Both powers have the value zero at zero. -/
theorem evaluate_twoSides (env : Assignment ℝ) (hx : env "x" = some 0) :
    twoSides.evaluate env = .ok 0 := by
  have hvar : (Expr.var "x").evaluate env = .ok 0 := Expr.evaluate_var_eq_ok.mpr hx
  have hneg : (Expr.neg (.var "x")).evaluate env = .ok 0 :=
    Expr.evaluate_neg_real.mpr ⟨0, hvar, neg_zero⟩
  have hdef : BinOp.pow.DefinedAt 0 1.5 := .inr (.inl ⟨rfl, by norm_num⟩)
  have hleft := Expr.evaluate_bin_of_definedAt .pow (b := .num 1.5) hvar rfl hdef
  have hright := Expr.evaluate_bin_of_definedAt .pow (b := .num 1.5) hneg rfl hdef
  have hsum := Expr.evaluate_bin_of_definedAt .add hleft hright trivial
  have hvalue : BinOp.add.real (BinOp.pow.real 0 1.5) (BinOp.pow.real 0 1.5) = 0 := by
    norm_num [BinOp.real]
  rw [hvalue] at hsum
  exact hsum

/-- The formula has a value at zero only. -/
theorem domain_twoSides (env : Assignment ℝ) : twoSides.domain env "x" = {0} := by
  ext s
  rw [Set.mem_singleton_iff]
  constructor
  · intro h
    obtain ⟨v, hv⟩ := h
    obtain ⟨_, _, hleft, hright, -, -⟩ := Expr.evaluate_bin_real.mp hv
    obtain ⟨p, q, hp, hq, hdef, -⟩ := Expr.evaluate_bin_real.mp hleft
    obtain ⟨p', q', hp', hq', hdef', -⟩ := Expr.evaluate_bin_real.mp hright
    obtain ⟨r, hr, rfl⟩ := Expr.evaluate_neg_real.mp hp'
    obtain rfl : s = p := Option.some.inj (Expr.evaluate_var_eq_ok.mp hp)
    obtain rfl : s = r := Option.some.inj (Expr.evaluate_var_eq_ok.mp hr)
    obtain rfl : 1.5 = q := Except.ok.inj hq
    obtain rfl : 1.5 = q' := Except.ok.inj hq'
    have hpos := nonneg_of_powDefinedAt hdef
    have hneg := nonneg_of_powDefinedAt hdef'
    linarith
  · intro h
    obtain rfl := h
    exact ⟨0, evaluate_twoSides _ rfl⟩

/-- The derivative of either power, whose factor `0 ^ (1 / 2)` is zero. -/
theorem evaluate_constantExponent_zero {env : Assignment ℝ} {b u : Expr ℝ} {y : ℝ}
    (hb : b.evaluate env = .ok 0) (hu : u.evaluate env = .ok y) :
    (Term.constantExponent b (.num 1.5) u).evaluate env = .ok 0 := by
  have hdef : BinOp.pow.DefinedAt 0 (1.5 - 1) := .inr (.inl ⟨rfl, by norm_num⟩)
  have hexp : (Expr.bin .sub (.num 1.5) Term.unit).evaluate env = .ok (1.5 - 1) :=
    Expr.evaluate_bin_of_definedAt .sub rfl rfl trivial
  have hpow := Expr.evaluate_bin_of_definedAt .pow hb hexp hdef
  have hfactor := Expr.evaluate_bin_of_definedAt .mul (a := .num 1.5) rfl hpow trivial
  have h := Expr.evaluate_bin_of_definedAt .mul hfactor hu trivial
  have hvalue : BinOp.mul.real (BinOp.mul.real 1.5 (BinOp.pow.real 0 (1.5 - 1))) y = 0 := by
    norm_num [BinOp.real]
  rw [← hvalue]
  exact h

/-- A formula and its symbolic derivative may both have values at a point where the formula has no
derivative, since it has no value at any other point. -/
theorem not_hasDerivative_twoSides :
    ∃ g, twoSides.differentiate "x" = .ok g ∧
      twoSides.evaluate (.single "x" 0) = .ok 0 ∧ g.evaluate (.single "x" 0) = .ok 0 ∧
        ¬∃ d, twoSides.HasDerivative (.single "x" 0) "x" 0 d := by
  have hvar : (Expr.var "x").evaluate (.single "x" (0 : ℝ)) = .ok 0 := rfl
  have hneg : (Expr.neg (.var "x")).evaluate (.single "x" (0 : ℝ)) = .ok 0 :=
    Expr.evaluate_neg_real.mpr ⟨0, hvar, neg_zero⟩
  have hleft := evaluate_constantExponent_zero (u := Term.unit) hvar rfl
  have hright := evaluate_constantExponent_zero (u := .neg Term.unit) hneg rfl
  have hderiv := Expr.evaluate_bin_of_definedAt .add hleft hright trivial
  have hvalue : BinOp.add.real 0 0 = 0 := add_zero 0
  rw [hvalue] at hderiv
  refine ⟨_, differentiate_eq_ok rfl, evaluate_twoSides _ rfl, hderiv, ?_⟩
  intro h
  obtain ⟨d, hacc, -⟩ := h
  rw [domain_twoSides] at hacc
  obtain ⟨s, ⟨-, hs⟩, hne⟩ := accPt_iff_nhds.mp hacc Set.univ Filter.univ_mem
  exact hne hs

end Formula

end Fluxion

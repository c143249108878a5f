import Fluxion.Proofs.Expr.Exact
import Fluxion.Proofs.Expr.Simplify
import Fluxion.Proofs.Formula.Warnings

/-!
# Fluxion.Proofs.Formula.Undefined

What strict simplification rejects.

A formula over double precision numbers is read over the reals.  If it has a value there, with zero
nowhere raised to the power of zero, then so has everything that passes over the reals make of it,
and they do not fail (`Fluxion.Proofs.Expr.Simplify`).  Nor do passes over double precision numbers,
as long as they do the same.

* `Formula.undefined_of_degenerate`: what is rejected has no value;
* `Formula.rejected_with_value`: formulas for which the assumptions fail, and which are rejected
  although they have values.
-/

namespace Fluxion

open Fluxion.Expr (runFolds runTests)
open Term (AllExact AllSharp)

namespace Formula

/-- Strict simplification of a formula over double precision numbers keeps the value that it has
over the reals. -/
theorem simplify_denotes {f : Formula Float} {env : Assignment ℝ} {v : ℝ}
    (hfinite : f.root.AllFinite) (hexact : AllExact (runFolds .strict maxPasses f.root))
    (hsharp : AllSharp (runTests .strict maxPasses f.root.toReal))
    (h : f.root.toReal.Denotes env v) :
    ∃ g, (f.simplify .strict).result = .ok g ∧ ∃ e, g.root.Reads e ∧ e.Denotes env v := by
  obtain ⟨e', settled', he', hv⟩ := Expr.passes_denotes h hsharp
  obtain ⟨p, hp, hreads⟩ :=
    Expr.follows_passes (Expr.reads_toReal hfinite) hexact hsharp _ he'
  refine ⟨f.withRoot p.1, ?_, e', hreads.reads, hv⟩
  rw [result_simplify, hp]
  rfl

/-- **What is rejected has no value.**  Let strict simplification of a formula with finite literals
end in a diagnostic.  Read over the reals, the formula then has no value under any assignment that
does not make it raise zero to the power of zero.  This takes for granted that what the run folds is
exact wherever it is defined over the reals, and that no literal that the run compares is merely near
the number that it is compared with. -/
theorem undefined_of_degenerate (f : Formula Float) (hfinite : f.root.AllFinite)
    (hexact : AllExact (runFolds .strict maxPasses f.root))
    (hsharp : AllSharp (runTests .strict maxPasses f.root.toReal))
    (d : Diagnostic Float (Expr Float)) (h : (f.simplify .strict).result = .error (.degenerate d))
    (env : Assignment ℝ) (hzero : f.root.toReal.ZeroPowerFree env) (v : ℝ) :
    f.root.toReal.evaluate env ≠ .ok v := by
  intro hv
  obtain ⟨g, hg, -⟩ := simplify_denotes hfinite hexact hsharp ⟨hv, hzero⟩
  rw [h] at hg
  cases hg

/-- Strict simplification rejects a formula that has a value over the reals, although its literals
and all results of folding are finite. -/
structure RejectedWithValue (f : Formula Float) (env : Assignment ℝ) : Prop where
  finite : f.root.AllFinite
  folds : ∀ c ∈ runFolds .strict maxPasses f.root,
    ∃ v, c.op.compute c.left c.right = .ok v ∧ Arith.finite v = true
  rejected : ∃ d, (f.simplify .strict).result = .error (.degenerate d)
  value : ∃ v, f.root.toReal.evaluate env = .ok v

/-- `ln 1e-7`, with a literal near zero. -/
private def smallLogarithm : Formula Float := ⟨.app .ln (.num 1e-7), []⟩

/-- `x / (1.0000001 * x - x)`, with a literal near one. -/
private def narrowQuotient : Formula Float :=
  ⟨.bin .div (.var "x") (.bin .sub (.bin .mul (.num 1.0000001) (.var "x")) (.var "x")), ["x"]⟩

/-- `x / ((1e16 + 1) - 1e16)`, with a sum that is rounded. -/
private def roundedQuotient : Formula Float :=
  ⟨.bin .div (.var "x") (.bin .sub (.bin .add (.num 1e16) (.num 1)) (.num 1e16)), ["x"]⟩

/-- `ln (0 ^ x)`, with zero to the power of zero at zero. -/
private def zeroPowerLogarithm : Formula Float :=
  ⟨.app .ln (.bin .pow (.num 0) (.var "x")), ["x"]⟩

private theorem rejected_smallLogarithm : RejectedWithValue smallLogarithm (.single "x" 0) where
  finite := by
    change Arith.finite (1e-7 : Float) = true
    decide +kernel
  folds := by
    intro c hc
    cases hc
  rejected := ⟨_, rfl⟩
  value := by
    have hpos : 0 < Binary64.value 1e-7 :=
      (Binary64.value_pos_iff (by decide +kernel)).mpr (by decide +kernel)
    exact ⟨_, Expr.evaluate_app_of_definedAt .ln rfl hpos⟩

private theorem rejected_narrowQuotient : RejectedWithValue narrowQuotient (.single "x" 1) where
  finite := by
    have h : Arith.finite (1.0000001 : Float) = true := by decide +kernel
    exact ⟨trivial, ⟨h, trivial⟩, trivial⟩
  folds := by
    intro c hc
    cases hc
  rejected := ⟨_, rfl⟩
  value := by
    have hone : Binary64.value 1 < Binary64.value 1.0000001 :=
      (Binary64.parts_lt_iff (by decide +kernel) (by decide +kernel)).mp (by decide +kernel)
    have hx : (Expr.var "x").evaluate (.single "x" (1 : ℝ)) = .ok 1 := rfl
    have hc : (Expr.num (Binary64.value 1.0000001)).evaluate (.single "x" (1 : ℝ)) = .ok _ := rfl
    have hmul := Expr.evaluate_bin_of_definedAt .mul hc hx trivial
    have hsub := Expr.evaluate_bin_of_definedAt .sub hmul hx trivial
    refine ⟨_, Expr.evaluate_bin_of_definedAt .div hx hsub ?_⟩
    rw [Binary64.value_one] at hone
    simp only [BinOp.DefinedAt, BinOp.real]
    linarith

private theorem rejected_roundedQuotient : RejectedWithValue roundedQuotient (.single "x" 1) where
  finite := by
    have h : Arith.finite (1e16 : Float) = true := by decide +kernel
    exact ⟨trivial, ⟨h, Expr.readsAs_one.finite⟩, h⟩
  folds := by
    intro c hc
    have hfolds : runFolds .strict maxPasses roundedQuotient.root =
        [⟨.add, 1e16, 1⟩, ⟨.sub, 1e16 + 1 + 0, 1e16⟩] := rfl
    rw [hfolds] at hc
    rcases List.mem_cons.mp hc with rfl | hc
    · exact ⟨_, rfl, by decide +kernel⟩
    · obtain rfl := List.mem_singleton.mp hc
      exact ⟨_, rfl, by decide +kernel⟩
  rejected := ⟨_, rfl⟩
  value := by
    have hx : (Expr.var "x").evaluate (.single "x" (1 : ℝ)) = .ok 1 := rfl
    have hc : (Expr.num (Binary64.value 1e16)).evaluate (.single "x" (1 : ℝ)) = .ok _ := rfl
    have hd : (Expr.num (Binary64.value 1)).evaluate (.single "x" (1 : ℝ)) = .ok _ := rfl
    have hadd := Expr.evaluate_bin_of_definedAt .add hc hd trivial
    have hsub := Expr.evaluate_bin_of_definedAt .sub hadd hc trivial
    refine ⟨_, Expr.evaluate_bin_of_definedAt .div hx hsub ?_⟩
    simp only [BinOp.DefinedAt, BinOp.real, Binary64.value_one]
    linarith

private theorem rejected_zeroPowerLogarithm :
    RejectedWithValue zeroPowerLogarithm (.single "x" 0) where
  finite := ⟨Binary64.finite_zero, trivial⟩
  folds := by
    intro c hc
    cases hc
  rejected := ⟨_, rfl⟩
  value := by
    have hx : (Expr.var "x").evaluate (.single "x" (0 : ℝ)) = .ok 0 := rfl
    have hc : (Expr.num (Binary64.value 0)).evaluate (.single "x" (0 : ℝ)) = .ok 0 :=
      Expr.evaluate_num_eq_ok.mpr Binary64.value_zero
    have hpow := Expr.evaluate_bin_of_definedAt .pow hc hx (.inr (.inl ⟨rfl, le_rfl⟩))
    refine ⟨_, Expr.evaluate_app_of_definedAt .ln hpow ?_⟩
    simp only [Fn.DefinedAt, BinOp.real, Real.rpow_zero]
    exact one_pos

/-- Strict simplification rejects formulas that have values: where a literal is only near zero or
one, where folding rounds, and where zero is raised to the power of zero. -/
theorem rejected_with_value :
    RejectedWithValue smallLogarithm (.single "x" 0) ∧
      RejectedWithValue narrowQuotient (.single "x" 1) ∧
      RejectedWithValue roundedQuotient (.single "x" 1) ∧
      RejectedWithValue zeroPowerLogarithm (.single "x" 0) :=
  ⟨rejected_smallLogarithm, rejected_narrowQuotient, rejected_roundedQuotient,
    rejected_zeroPowerLogarithm⟩

/-- `x / (2 - 2)`. -/
private def emptyQuotient : Formula Float :=
  ⟨.bin .div (.var "x") (.bin .sub (.num 2) (.num 2)), ["x"]⟩

private theorem exact_emptyQuotient :
    AllExact (runFolds .strict maxPasses emptyQuotient.root) := by
  have hfolds : runFolds .strict maxPasses emptyQuotient.root = [⟨.sub, 2, 2⟩] := rfl
  rw [hfolds]
  intro c hc _
  obtain rfl := List.mem_singleton.mp hc
  have h2 : Arith.finite (2 : Float) = true := Expr.readsAs_two.finite
  have hr := Binary64.rounded_sub h2 h2
  rw [sub_self] at hr
  obtain ⟨hfinite, hunits⟩ := hr.exact Binary64.fits_zero
  refine ⟨2 - 2, rfl, hfinite, ?_⟩
  rw [Binary64.value_eq, hunits, Int.cast_zero, zero_mul]
  exact (sub_self _).symm

private theorem pass_number {r : ℝ} (hr : 0 ≤ r) :
    (Expr.pass .strict (.num r)).result = .ok (.num r, false) := by
  have h : ¬Arith.negative r = true := by
    rw [real_negative, not_lt]
    exact hr
  rw [Expr.pass, Term.reduceNum, if_neg h]
  rfl

/-- Over the reals, the difference of a literal and itself is folded to zero. -/
private theorem pass_difference {r : ℝ} (hr : 0 ≤ r) :
    (Expr.pass .strict (.bin .sub (.num r) (.num r))).result = .ok (.num 0, true) := by
  have hnum := pass_number hr
  have hliteral : Term.literal (Arith.add (r - r) Arith.zero) = Expr.num (0 : ℝ) := by
    have h : Arith.nonneg (0 : ℝ) = true := (real_nonneg 0).mpr le_rfl
    rw [real_add, real_zero, sub_self, add_zero, Term.literal, if_pos h]
    rfl
  have hfold : (Term.reduceBin .strict .sub (Expr.num r) (Expr.num r)).result =
      .ok (some (.num 0)) := by
    rw [← hliteral]
    have hpow : ¬(BinOp.sub = .pow ∧ Arith.isZero r = true ∧ Arith.negative r = true) := by simp
    change (Term.fold .strict .sub (Expr.num r) (Expr.num r) r r).result = _
    rw [Term.fold, if_neg hpow]
    rfl
  rw [Expr.pass, Noted.bind_result_of_ok hnum, Noted.bind_result_of_ok hnum,
    Noted.bind_result_of_ok hfold]
  rfl

private theorem reject_zeroDivisor :
    (Term.identity .strict .div (Expr.var "x") (Expr.num (0 : ℝ))).result =
      .error (.degenerate (.zeroDivisor (.bin .div (.var "x") (.num 0)))) := by
  have hnear : Term.nearZero (Expr.num (0 : ℝ)) = true := real_near_self 0
  rw [Term.identity, if_pos hnear]
  rfl

private theorem sharp_zeroDivisor :
    AllSharp (Term.binTests .strict .div (Expr.var "x") (Expr.num (0 : ℝ))) := by
  have hnear : Term.isNear Arith.zero (Expr.num (0 : ℝ)) = true := real_near_self 0
  change AllSharp (Term.identityTests .div (Expr.var "x") (Expr.num (0 : ℝ)) ++ _)
  rw [reject_zeroDivisor]
  refine Term.allSharp_append.mpr ⟨Term.allSharp_append.mpr ⟨Term.allSharp_self 0, ?_⟩,
    Term.allSharp_nil⟩
  rw [if_pos hnear]
  exact Term.allSharp_nil

/-- The run over the reals compares the divisor with zero, and no literal else. -/
private theorem sharp_quotient {r : ℝ} (hr : 0 ≤ r) (n : ℕ) :
    AllSharp (runTests .strict n (.bin .div (.var "x") (.bin .sub (.num r) (.num r)))) := by
  have hx : (Expr.pass .strict (.var "x" : Expr ℝ)).result = .ok (.var "x", false) := rfl
  have hnum := pass_number hr
  have hdifference := pass_difference hr
  cases n with
  | zero => exact Term.allSharp_nil
  | succ n =>
      refine Term.allSharp_append.mpr ⟨?_, ?_⟩
      · rw [Expr.passTests, hx]
        refine Term.allSharp_append.mpr ⟨Term.allSharp_nil, ?_⟩
        dsimp only
        rw [hdifference]
        refine Term.allSharp_append.mpr ⟨?_, sharp_zeroDivisor⟩
        rw [Expr.passTests, hnum]
        exact Term.allSharp_nil
      · have hpass : (Expr.pass .strict
            (.bin .div (.var "x") (.bin .sub (.num r) (.num r)))).result =
            .error (.degenerate (.zeroDivisor (.bin .div (.var "x") (.num 0)))) := by
          rw [Expr.pass, Noted.bind_result_of_ok hx]
          dsimp only
          rw [Noted.bind_result_of_ok hdifference]
          exact Noted.bind_result_of_error (Noted.bind_result_of_error reject_zeroDivisor _) _
        rw [hpass]
        exact Term.allSharp_nil

private theorem sharp_emptyQuotient :
    AllSharp (runTests .strict maxPasses emptyQuotient.root.toReal) := by
  have h2 : 0 ≤ Binary64.value 2 := by
    rw [Binary64.value_two]
    exact zero_le_two
  exact sharp_quotient h2 maxPasses

/-- The quotient is rejected, and it has no value at one. -/
theorem undefined_emptyQuotient :
    emptyQuotient.root.AllFinite ∧ AllExact (runFolds .strict maxPasses emptyQuotient.root) ∧
      AllSharp (runTests .strict maxPasses emptyQuotient.root.toReal) ∧
      (∃ d, (emptyQuotient.simplify .strict).result = .error (.degenerate d)) ∧
      emptyQuotient.root.toReal.ZeroPowerFree (.single "x" 1) ∧
      ∀ v, emptyQuotient.root.toReal.evaluate (.single "x" 1) ≠ .ok v := by
  have hfinite : emptyQuotient.root.AllFinite :=
    ⟨trivial, Expr.readsAs_two.finite, Expr.readsAs_two.finite⟩
  have hrejected : (emptyQuotient.simplify .strict).result =
      .error (.degenerate (.zeroDivisor (.bin .div (.var "x") (.num (2 - 2 + 0))))) := rfl
  have hzero : emptyQuotient.root.toReal.ZeroPowerFree (.single "x" 1) :=
    ⟨trivial, ⟨trivial, trivial, fun h => nomatch h.1⟩, fun h => nomatch h.1⟩
  exact ⟨hfinite, exact_emptyQuotient, sharp_emptyQuotient, ⟨_, hrejected⟩, hzero,
    undefined_of_degenerate emptyQuotient hfinite exact_emptyQuotient sharp_emptyQuotient _
      hrejected _ hzero⟩

end Formula

end Fluxion

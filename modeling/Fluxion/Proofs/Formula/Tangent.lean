import Fluxion.Proofs.Formula.Taylor

/-!
# Fluxion.Proofs.Formula.Tangent

The tangent of a formula is its linear approximation, and agrees with its series of the first order.

Both need two values at a point, that of the formula and that of its derivative.  A tangent puts the
point into the derivative as the rules give it, a series into the simplified derivative, and they
build sums of different shapes.  That they have the same values rests on simplification keeping the
value at the point, before and after the point is put in.

The linear approximation is its own Taylor polynomial (`Formula.taylorSum_line`), so a series of the
first order keeps what a Taylor series keeps (`Formula.SeriesInvariant`), with values at the point
alone (`Formula.IsSlope`) in the place of values around it.

* `Formula.seriesInvariant_line`: what the loop of a series of the first order keeps;
* `Formula.returns_tangent`: the values of a tangent;
* `Formula.evaluate_tangent`: both.
-/

namespace Fluxion.Formula

open Noted (Returns)
open Term (AllSharp allSharp_append)
open Fluxion.Expr (Denotes)

variable {s : Strictness} {f : Formula ℝ} {x : String} {point : ℝ} {env : Assignment ℝ} {v d : ℝ}

/-- The line through a point with a slope. -/
def line (point v d : ℝ) (r : ℝ) : ℝ := v + d * (r - point)

/-- The comparisons in a tangent: those for the value and the slope, and those for the sum. -/
noncomputable def tangentTests (s : Strictness) (f : Formula ℝ) (x : String) (point : ℝ) :
    List Term.Test :=
  let value := Expr.subst x (Term.literal point) f.root
  let slope := Expr.subst x (Term.literal point) (f.root.derivative x)
  Expr.runTests s maxPasses value ++ (Expr.runTests s maxPasses slope ++
    match (Expr.passes s maxPasses value).result, (Expr.passes s maxPasses slope).result with
    | .ok (a, _), .ok (b, _) =>
      Expr.runTests s maxPasses (.bin .add a (.bin .mul b (distance x point)))
    | _, _ => [])

/-! ## lines -/

/-- The derivative of a line is its slope. -/
theorem hasDerivAt_line (point v d r : ℝ) : HasDerivAt (line point v d) d r := by
  have h := (((hasDerivAt_id r).sub_const point).const_mul d).const_add v
  rwa [mul_one] at h

/-- A line has its value at the point. -/
theorem iteratedDeriv_zero_line (point v d : ℝ) : iteratedDeriv 0 (line point v d) point = v := by
  rw [iteratedDeriv_zero, line, sub_self, mul_zero, add_zero]

/-- A line has its slope at the point. -/
theorem iteratedDeriv_one_line (point v d : ℝ) : iteratedDeriv 1 (line point v d) point = d := by
  rw [iteratedDeriv_one, (hasDerivAt_line point v d point).deriv]

/-- A line is its own Taylor polynomial of the first order. -/
theorem taylorSum_line (point v d r : ℝ) :
    taylorSum (line point v d) point 2 r = line point v d r := by
  rw [taylorSum, Finset.sum_range_succ, Finset.sum_range_one, iteratedDeriv_zero_line,
    iteratedDeriv_one_line]
  norm_num [line]

/-! ## the series -/

/-- What the loop of a series of the first order keeps of a derivative: it has the right value at the
point, and so has the derivative that is still to come. -/
structure IsSlope (s : Strictness) (x : String) (point : ℝ) (env : Assignment ℝ) (F : ℝ → ℝ)
    (power more : ℕ) (e : Expr ℝ) : Prop where
  first : more ≤ 1
  sharp : AllSharp (e.loopTests s x point more)
  value : Denotes (env.update x point) e (iteratedDeriv power F point)
  slope : more = 1 → Denotes (env.update x point) (e.derivative x)
    (iteratedDeriv (power + 1) F point)

/-- The simplified derivative is the last one, and has the same value at the point. -/
theorem IsSlope.next {F : ℝ → ℝ} {power more : ℕ} {e : Expr ℝ}
    (h : IsSlope s x point env F power (more + 1) e) :
    Returns (fun p => IsSlope s x point env F (power + 1) more p.1)
      (Expr.passes s maxPasses (e.derivative x)) := by
  obtain rfl : more = 0 := by
    have := h.first
    omega
  obtain ⟨hrun, hrest⟩ := allSharp_append.mp (allSharp_append.mp h.sharp).2
  obtain ⟨next, settled, hnext, hvalue⟩ := Expr.passes_denotes (h.slope rfl) hrun
  rw [hnext] at hrest
  exact Noted.returns_of_ok hnext ⟨Nat.zero_le 1, hrest, hvalue, nofun⟩

section

variable [Numeral ℝ]

/-- The loop of a series of the first order keeps the values of a line. -/
theorem seriesInvariant_line {F : ℝ → ℝ} :
    SeriesInvariant s x point
      (fun power more g => IsSlope s x point env F power more g.root)
      (IsCoefficient x point env F)
      (fun power terms => ∀ r, Denotes (env.update x r) (terms.getD (.num Arith.zero))
        (taylorSum F point power r))
      (fun _ => False) where
  value hg := (returns_simplified
    (returns_coefficient (allSharp_coefficientTests hg.sharp) hg.value)).mono
      fun _ h => h.choose_spec
  next hg := (returns_simplified hg.next).mono fun _ h => h.choose_spec
  skip hc hzero hterms r := hc.skip hzero (hterms r)
  term hc _ hterms := hc.ends_term hterms

/-- The series of order one is the line of the value and the slope. -/
theorem returns_firstOrder (hx : f.vars.contains x = true)
    (hv : Denotes (env.update x point) f.root v)
    (hd : Denotes (env.update x point) (f.root.derivative x) d)
    (hsharp : AllSharp (f.seriesTests s x point 1)) :
    Returns (fun g => ∀ r, Denotes (env.update x r) g.root (line point v d r))
      (f.series s x point (1 : ℕ)) := by
  have hslope : IsSlope s x point env (line point v d) 0 1 f.root :=
    ⟨le_rfl, (allSharp_append.mp hsharp).1, hv.of_eq (iteratedDeriv_zero_line point v d).symm,
      fun _ => hd.of_eq (iteratedDeriv_one_line point v d).symm⟩
  refine (returns_series seriesInvariant_line hx hslope hsharp).mono fun g hg r => ?_
  rw [← taylorSum_line]
  exact hg r

/-! ## the tangent -/

/-- A tangent has the values of the line through the point. -/
theorem returns_tangent (hx : f.vars.contains x = true)
    (hv : Denotes (env.update x point) f.root v)
    (hd : Denotes (env.update x point) (f.root.derivative x) d)
    (hsharp : AllSharp (f.tangentTests s x point)) :
    Returns (fun g => ∀ r, Denotes (env.update x r) g.root (line point v d r))
      (f.tangent s x point) := by
  -- the point is put in, so the value does not depend on the variable any more
  have hput : ∀ {e : Expr ℝ} {w : ℝ}, Denotes (env.update x point) e w → ∀ r : ℝ,
      Denotes (env.update x r) (Expr.subst x (Term.literal point) e) w := by
    intro e w he r
    refine (Expr.denotes_literal.mpr rfl : Denotes _ _ point).subst ?_
    rwa [Expr.update_update]
  obtain ⟨hvalueTests, hrest⟩ := allSharp_append.mp hsharp
  obtain ⟨hslopeTests, hsum⟩ := allSharp_append.mp hrest
  obtain ⟨⟨a, _⟩, ha, hav⟩ := (Expr.returns_passes_denotes (hput hv) hvalueTests).exists_ok
  obtain ⟨⟨b, _⟩, hb, hbd⟩ := (Expr.returns_passes_denotes (hput hd) hslopeTests).exists_ok
  rw [ha, hb] at hsum
  have hline : ∀ r, Denotes (env.update x r) (.bin .add a (.bin .mul b (distance x point)))
      (line point v d r) := by
    intro r
    have hproduct := (hbd r).binary .mul (denotes_distance x point r env) trivial (by decide)
    exact (hav r).binary .add hproduct trivial (by decide)
  have hpasses := Expr.returns_passes_denotes hline hsum
  refine (returns_requireVar hx).bind fun _ _ => ?_
  refine (Noted.returns_of_ok (simplified_result ha) rfl).bind fun value hvalue => ?_
  refine (Noted.returns_of_ok (simplified_result hb) rfl).bind fun slope hslope => ?_
  subst hvalue hslope
  exact (returns_simplified hpasses).mono fun _ h => h.choose_spec

/-- **The tangent of a formula is its linear approximation, and its series of the first order.**
Over the reals, let a formula and its derivative have values at a point, with zero nowhere raised to
the power of zero there, and let no literal that simplification compares on the way be merely close
to the number that it is compared with.  Then neither the tangent at the point nor the series of the
first order fails, strict or not, and both have at every value of the variable the value of the line
through the point that has the value of the derivative for its slope. -/
theorem evaluate_tangent (s s' : Strictness) (f f' : Formula ℝ) (x : String) (point : ℝ)
    (env : Assignment ℝ) (v d : ℝ) (hf' : f.differentiate x = .ok f')
    (hv : f.evaluate (env.update x point) = .ok v)
    (hz : f.root.ZeroPowerFree (env.update x point))
    (hd : f'.evaluate (env.update x point) = .ok d)
    (hz' : f'.root.ZeroPowerFree (env.update x point))
    (htangent : AllSharp (f.tangentTests s x point))
    (hseries : AllSharp (f.seriesTests s' x point 1)) :
    ∃ g h, (f.tangent s x point).result = .ok g ∧ (f.series s' x point (1 : ℕ)).result = .ok h ∧
      ∀ r, g.evaluate (env.update x r) = .ok (v + d * (r - point)) ∧
        h.evaluate (env.update x r) = .ok (v + d * (r - point)) := by
  obtain ⟨⟨⟩, hrequire, hroot⟩ := bind_eq_ok.mp hf'
  obtain rfl := pure_eq_ok.mp hroot
  have hx : f.vars.contains x = true := by
    by_contra hx
    rw [requireVar, if_neg hx] at hrequire
    cases hrequire
  obtain ⟨g, hg, hline⟩ := (returns_tangent hx ⟨hv, hz⟩ ⟨hd, hz'⟩ htangent).exists_ok
  obtain ⟨h, hh, hline'⟩ := (returns_firstOrder hx ⟨hv, hz⟩ ⟨hd, hz'⟩ hseries).exists_ok
  exact ⟨g, h, hg, hh, fun r => ⟨(hline r).1, (hline' r).1⟩⟩

end

/-! ## the sine -/

open Term (allSharp_nil allSharp_binTests allSharp_passTests_bin allSharp_runTests)

/-- The sum that the tangent to the sine at zero is simplified from. -/
private noncomputable def sineTangent : Expr ℝ :=
  .bin .add (.num 0) (.bin .mul (.num 1) (distance "x" 0))

private theorem distance_zero : distance "x" (0 : ℝ) = .var "x" :=
  if_pos ((real_isZero 0).mpr rfl)

private theorem subst_slope : Expr.subst "x" (Term.literal (0 : ℝ)) (sine.root.derivative "x") =
    .bin .mul (.app .cos (.num 0)) (.num 1) := by
  rw [sine, derivative_sine, Expr.subst, subst_app]
  rfl

/-- The cosine is computed and multiplied by one in the same pass. -/
private theorem pass_slope (s : Strictness) :
    (Expr.pass s (.bin .mul (.app .cos (.num (0 : ℝ))) (.num 1))).result =
      .ok (.num 1, true) := by
  have hone : (Term.literal (BinOp.mul.real (1 : ℝ) 1) : Expr ℝ) = .num 1 := by
    rw [Term.literal, if_pos ((real_nonneg _).mpr (by norm_num [BinOp.real]))]
    norm_num [BinOp.real]
    rfl
  have hdefined : BinOp.mul.DefinedAt (1 : ℝ) 1 := trivial
  have hfold : Term.reduceBin s .mul (Expr.num (1 : ℝ)) (.num 1) = pure (some (.num 1)) := by
    refine (Term.fold_of_definedAt (a := Expr.num 1) (b := Expr.num 1) hdefined).trans ?_
    rw [hone]
  refine Expr.pass_bin_of_some (pass_cosineAtZero s) (Expr.pass_one s) ?_
  rw [hfold]
  rfl

private theorem pass_oneTimes (s : Strictness) :
    (Expr.pass s (.bin .mul (.num (1 : ℝ)) (.var "x"))).result = .ok (.var "x", true) :=
  Expr.pass_bin_of_some (Expr.pass_one s) rfl (Noted.bind_result_of_ok (identity_oneTimes s) _)

private theorem pass_sineTangent (s : Strictness) :
    (Expr.pass s sineTangent).result = .ok (.var "x", true) := by
  have hidentity : (Term.identity s .add (Expr.num (0 : ℝ)) (.var "x")).result =
      .ok (some (.var "x")) := by
    simp only [Term.identity, nearZero_zero]
    rfl
  rw [sineTangent, distance_zero]
  exact Expr.pass_bin_of_some (Expr.pass_zero s) (pass_oneTimes s)
    (Noted.bind_result_of_ok hidentity _)

private theorem sharp_slope (s : Strictness) :
    AllSharp (Expr.passTests s (.bin .mul (.app .cos (.num (0 : ℝ))) (.num 1))) :=
  allSharp_passTests_bin (pass_cosineAtZero s) (Expr.pass_one s) (sharp_atZero s .cos)
    allSharp_nil (allSharp_binTests sharp_one sharp_one allSharp_nil)

private theorem sharp_sineTangent (s : Strictness) : AllSharp (Expr.passTests s sineTangent) := by
  have hx : AllSharp (Term.nearTest 0 (.var "x")) ∧ AllSharp (Term.nearTest 1 (.var "x")) :=
    ⟨allSharp_nil, allSharp_nil⟩
  have hproduct : AllSharp (Expr.passTests s (.bin .mul (.num 1) (.var "x"))) :=
    allSharp_passTests_bin (Expr.pass_one s) rfl allSharp_nil allSharp_nil
      (allSharp_binTests sharp_one hx allSharp_nil)
  rw [sineTangent, distance_zero]
  exact allSharp_passTests_bin (Expr.pass_zero s) (pass_oneTimes s) allSharp_nil hproduct
    (allSharp_binTests sharp_zero hx allSharp_nil)

private theorem sharp_tangent_sine (s : Strictness) : AllSharp (sine.tangentTests s "x" 0) := by
  have hslope : (Expr.passes s maxPasses (.bin .mul (.app .cos (.num (0 : ℝ))) (.num 1))).result =
      .ok (.num 1, true) := Expr.passes_of_changed (pass_slope s) (Expr.pass_one s)
  unfold tangentTests
  rw [subst_slope]
  simp only [sine, subst_app, passes_sineAtZero, hslope]
  refine allSharp_append.mpr
    ⟨allSharp_runTests (pass_sineAtZero s) (Expr.pass_zero s) (sharp_atZero s .sin) allSharp_nil _,
      allSharp_append.mpr ⟨?_, ?_⟩⟩
  · exact allSharp_runTests (pass_slope s) (Expr.pass_one s) (sharp_slope s) allSharp_nil _
  · exact allSharp_runTests (pass_sineTangent s) rfl (sharp_sineTangent s) allSharp_nil _

/-- The tangent to the sine at zero. -/
theorem evaluate_tangent_sine :
    let sine' : Formula ℝ := sine.withRoot (.bin .mul (.app .cos (.var "x")) (.num 1))
    let env : Assignment ℝ := fun _ => none
    sine.differentiate "x" = .ok sine' ∧
      sine.evaluate (env.update "x" 0) = .ok 0 ∧ sine.root.ZeroPowerFree (env.update "x" 0) ∧
      sine'.evaluate (env.update "x" 0) = .ok 1 ∧ sine'.root.ZeroPowerFree (env.update "x" 0) ∧
      AllSharp (sine.tangentTests .strict "x" 0) ∧
      AllSharp (@seriesTests ⟨fun _ => "", fun _ => "", fun _ => ""⟩ .strict sine "x" 0 1) ∧
      ∃ g h, (@tangent ℝ _ ⟨fun _ => "", fun _ => "", fun _ => ""⟩ .strict sine "x" 0).result =
          .ok g ∧
        (@series ℝ _ ⟨fun _ => "", fun _ => "", fun _ => ""⟩ .strict sine "x" 0 (1 : ℕ)).result =
          .ok h ∧
        ∀ r, g.evaluate (env.update "x" r) = .ok (0 + 1 * (r - 0)) ∧
          h.evaluate (env.update "x" r) = .ok (0 + 1 * (r - 0)) := by
  intro sine' env
  have hvar : Denotes (env.update "x" 0) (.var "x") 0 := Expr.denotes_var (if_pos rfl)
  have hsine : Denotes (env.update "x" 0) sine.root 0 :=
    Expr.denotes_app.mpr ⟨0, hvar, trivial, Real.sin_zero⟩
  have hcosine : Denotes (env.update "x" 0) (.app .cos (.var "x")) 1 :=
    Expr.denotes_app.mpr ⟨0, hvar, trivial, Real.cos_zero⟩
  have hproduct : Denotes (env.update "x" 0) sine'.root 1 :=
    (hcosine.binary .mul (Expr.denotes_num.mpr rfl) trivial (by decide)).of_eq (mul_one 1)
  have hf' : sine.differentiate "x" = .ok sine' := rfl
  have htangent := sharp_tangent_sine .strict
  have hseries := @sharp_sine ⟨fun _ => "", fun _ => "", fun _ => ""⟩ .strict
  exact ⟨hf', hsine.1, hsine.2, hproduct.1, hproduct.2, htangent, hseries,
    @evaluate_tangent ⟨fun _ => "", fun _ => "", fun _ => ""⟩ .strict .strict sine sine' "x" 0 env
      0 1 hf' hsine.1 hsine.2 hproduct.1 hproduct.2 htangent hseries⟩

end Fluxion.Formula

import Fluxion.Proofs.Expr.Derivative
import Fluxion.Proofs.Expr.Pass
import Fluxion.Proofs.Formula.Series

/-!
# Fluxion.Proofs.Formula.Taylor

The series of a formula is its Taylor polynomial.

The loop of a series alternates two derivatives of an expression: the symbolic one, and the one that
simplification makes of it.  If all expressions that it comes to (`Expr.loopTrees`) have values
around the center, and no literal that simplification compares on the way (`Formula.seriesTests`) is
merely close to the number it is compared with, then the loop keeps that

* the derivative has around the center the values of the derivative of that order,
* the coefficients are its values at the center, and
* the sum of the terms has at every point the value of the Taylor polynomial so far.

* `Formula.seriesInvariant_taylor`: what the loop keeps;
* `Formula.evaluate_series`: the values of the series.
-/

namespace Fluxion

open Noted (Ends Returns)
open Term (AllSharp allSharp_append)

namespace Expr

variable {s : Strictness} {x : String} {e u : Expr ℝ} {env : Assignment ℝ} {v w : ℝ}

/-- A variable has its value. -/
theorem denotes_var {y : String} (h : env y = some v) : Denotes env (var y) v :=
  ⟨evaluate_var_eq_ok.mpr h, trivial⟩

/-- An expression put for a variable gives it its value. -/
theorem Denotes.subst (hu : Denotes env u w) (h : Denotes (env.update x w) e v) :
    Denotes env (Expr.subst x u e) v := by
  induction e generalizing v with
  | num _ => exact denotes_num.mpr (denotes_num.mp h)
  | var y =>
      have hy := evaluate_var_eq_ok.mp h.1
      unfold Assignment.update at hy
      unfold Expr.subst
      split
      · next hname =>
        rw [if_pos hname] at hy
        exact Option.some.inj hy ▸ hu
      · next hname =>
        rw [if_neg hname] at hy
        exact denotes_var hy
  | bin op a b iha ihb =>
      obtain ⟨p, q, hp, hq, hop⟩ := denotes_bin.mp h
      exact denotes_bin.mpr ⟨p, q, iha hp, ihb hq, hop⟩
  | neg a ih =>
      obtain ⟨p, hp, hv⟩ := denotes_neg.mp h
      exact denotes_neg.mpr ⟨p, ih hp, hv⟩
  | app f a ih =>
      obtain ⟨p, hp, hf⟩ := denotes_app.mp h
      exact denotes_app.mpr ⟨p, ih hp, hf⟩

/-- A run of passes keeps all values of an expression, under several assignments. -/
theorem returns_passes_denotes {ι : Type} [Nonempty ι] {envs : ι → Assignment ℝ} {vs : ι → ℝ}
    {n : ℕ} (h : ∀ i, Denotes (envs i) e (vs i)) (ht : AllSharp (runTests s n e)) :
    Returns (fun p => ∀ i, Denotes (envs i) p.1 (vs i)) (passes s n e) := by
  have hresult : ∀ i, ∃ p, (passes s n e).result = .ok p ∧ Denotes (envs i) p.1 (vs i) := by
    intro i
    obtain ⟨t, settled, ht, hdenotes⟩ := passes_denotes (h i) ht
    exact ⟨(t, settled), ht, hdenotes⟩
  obtain ⟨p, hp, -⟩ := hresult (Classical.arbitrary ι)
  refine Noted.returns_of_ok hp fun i => ?_
  obtain ⟨q, hq, hdenotes⟩ := hresult i
  rw [Except.ok.inj (hp.symm.trans hq)]
  exact hdenotes

/-! ## what the loop comes to -/

/-- The derivatives that the loop of a series comes to, `more` of them after an expression: each as
the rules give it, and simplified. -/
noncomputable def loopTrees (s : Strictness) (x : String) : ℕ → Expr ℝ → List (Expr ℝ)
  | 0, e => [e]
  | more + 1, e =>
    e :: e.derivative x ::
      match (passes s maxPasses (e.derivative x)).result with
      | .ok (next, _) => loopTrees s x more next
      | .error _ => []

/-- The loop starts at the expression. -/
theorem mem_loopTrees {more : ℕ} : e ∈ e.loopTrees s x more := by
  cases more with
  | zero => exact List.mem_singleton.mpr rfl
  | succ more => exact List.mem_cons_self

/-- The comparisons for a coefficient: those of its simplification, and that with zero. -/
noncomputable def coefficientTests (s : Strictness) (x : String) (center : ℝ) (e : Expr ℝ) :
    List Term.Test :=
  runTests s maxPasses (Expr.subst x (Term.literal center) e) ++
    match (passes s maxPasses (Expr.subst x (Term.literal center) e)).result with
    | .ok (c, _) => Term.nearTest Arith.zero c
    | .error _ => []

/-- The comparisons in the loop of a series, `more` derivatives after an expression. -/
noncomputable def loopTests (s : Strictness) (x : String) (center : ℝ) :
    ℕ → Expr ℝ → List Term.Test
  | 0, e => coefficientTests s x center e
  | more + 1, e =>
    coefficientTests s x center e ++ (runTests s maxPasses (e.derivative x) ++
      match (passes s maxPasses (e.derivative x)).result with
      | .ok (next, _) => loopTests s x center more next
      | .error _ => [])

end Expr

namespace Formula

open Fluxion.Expr (Denotes)

variable {s : Strictness} {f : Formula ℝ} {x : String} {center : ℝ} {env : Assignment ℝ}

/-- The comparisons in a series: those of the loop, and those for the sum. -/
noncomputable def seriesTests [Numeral ℝ] (s : Strictness) (f : Formula ℝ) (x : String)
    (center : ℝ) (order : ℕ) : List Term.Test :=
  f.root.loopTests s x center order ++
    match (seriesFrom s x center 0 order f none).result with
    | .ok terms => Expr.runTests s maxPasses (terms.getD (.num Arith.zero))
    | .error _ => []

/-! ## terms -/

/-- The distance of a variable from the center is the difference. -/
theorem denotes_distance (x : String) (center r : ℝ) (env : Assignment ℝ) :
    Denotes (env.update x r) (distance x center) (r - center) := by
  have hvar : Denotes (env.update x r) (.var x) r := Expr.denotes_var (if_pos rfl)
  unfold distance
  split
  · next h =>
    rw [(real_isZero _).mp h, sub_zero]
    exact hvar
  · exact hvar.binary .sub (Expr.denotes_literal.mpr rfl) trivial (by decide)

/-- The term of a positive power. -/
theorem denotes_term {c : Expr ℝ} {v r : ℝ} (hc : Denotes (env.update x r) c v) {power : ℕ}
    (hpower : 0 < power) :
    Denotes (env.update x r)
      (.bin .div (.bin .mul c (.bin .pow (distance x center) (.num (power : ℝ))))
        (.num (power.factorial : ℝ))) (v / power.factorial * (r - center) ^ power) := by
  have hexponent : (power : ℝ) ≠ 0 := Nat.cast_ne_zero.mpr hpower.ne'
  have hfactorial : (power.factorial : ℝ) ≠ 0 := Nat.cast_ne_zero.mpr power.factorial_ne_zero
  have hdefined : PowDefinedAt (r - center) ((power : ℤ) : ℝ) :=
    powDefinedAt_intCast.mpr (.inr (Int.natCast_nonneg power))
  rw [Int.cast_natCast] at hdefined
  have hpow : Denotes (env.update x r) (.bin .pow (distance x center) (.num (power : ℝ)))
      ((r - center) ^ power) :=
    Expr.denotes_bin.mpr ⟨_, _, denotes_distance x center r env, Expr.denotes_num.mpr rfl, hdefined,
      Real.rpow_natCast _ _, fun h => hexponent h.2.2⟩
  have hproduct := hc.binary .mul hpow trivial (by decide)
  refine (hproduct.binary .div (Expr.denotes_num.mpr rfl) hfactorial (by decide)).of_eq ?_
  exact (div_mul_eq_mul_div _ _ _).symm

/-- A sum with one more term. -/
theorem denotes_addTerm {terms : Option (Expr ℝ)} {t : Expr ℝ} {v w : ℝ}
    (hterms : Denotes env (terms.getD (.num Arith.zero)) v) (ht : Denotes env t w) :
    Denotes env (addTerm terms t) (v + w) := by
  cases terms with
  | none =>
      obtain rfl : 0 = v := Expr.denotes_num.mp hterms
      rw [zero_add]
      exact ht
  | some e => exact hterms.binary .add ht trivial (by decide)

/-! ## derivatives -/

/-- Where an expression has around a point the values of a function, its symbolic derivative has
those of the derivative. -/
theorem eq_iteratedDeriv_succ {e : Expr ℝ} {F : ℝ → ℝ} {power : ℕ} {I : Set ℝ} (hI : IsOpen I)
    (he : ∀ r ∈ I, Denotes (env.update x r) e (iteratedDeriv power F r)) {r v : ℝ} (hr : r ∈ I)
    (hv : Denotes (env.update x r) (e.derivative x) v) : v = iteratedDeriv (power + 1) F r := by
  have hderiv := Expr.hasDerivAt_total (if_pos rfl : env.update x r x = some r) (he r hr).1 hv.1
  simp only [Expr.update_update] at hderiv
  have hnear : iteratedDeriv power F =ᶠ[nhds r] fun t => e.total (env.update x t) := by
    filter_upwards [hI.mem_nhds hr] with t ht
    exact (Expr.total_of_evaluate (he t ht).1).symm
  rw [iteratedDeriv_succ, hnear.deriv_eq, hderiv.deriv]

/-! ## the loop -/

section

variable {I : Set ℝ} {F : ℝ → ℝ} {power more : ℕ} {e : Expr ℝ}

/-- What the loop of a series keeps of a derivative: all that it will come to has values on `I`, no
literal that it will compare is merely close, and the values are those of the derivative of `F`. -/
structure IsDerivative (s : Strictness) (x : String) (center : ℝ) (env : Assignment ℝ) (I : Set ℝ)
    (F : ℝ → ℝ) (power more : ℕ) (e : Expr ℝ) : Prop where
  defined : ∀ t ∈ e.loopTrees s x more, ∀ r ∈ I, ∃ v, Denotes (env.update x r) t v
  sharp : AllSharp (e.loopTests s x center more)
  value : ∀ r ∈ I, Denotes (env.update x r) e (iteratedDeriv power F r)

/-- A coefficient, which may be compared with zero. -/
structure IsCoefficient (x : String) (center : ℝ) (env : Assignment ℝ) (F : ℝ → ℝ) (power : ℕ)
    (c : Expr ℝ) : Prop where
  sharp : AllSharp (Term.nearTest Arith.zero c)
  value (r : ℝ) : Denotes (env.update x r) c (iteratedDeriv power F center)

/-- The simplified value at the center is the coefficient. -/
theorem returns_coefficient (hsharp : AllSharp (e.coefficientTests s x center))
    (hcenter : Denotes (env.update x center) e (iteratedDeriv power F center)) :
    Returns (fun p => IsCoefficient x center env F power p.1)
      (Expr.passes s maxPasses (Expr.subst x (Term.literal center) e)) := by
  obtain ⟨hrun, hnear⟩ := allSharp_append.mp hsharp
  have hvalue : ∀ r : ℝ, Denotes (env.update x r) (Expr.subst x (Term.literal center) e)
      (iteratedDeriv power F center) := by
    intro r
    refine (Expr.denotes_literal.mpr rfl : Denotes _ _ center).subst ?_
    rw [Expr.update_update]
    exact hcenter
  obtain ⟨⟨c, settled⟩, hc, hdenotes⟩ := (Expr.returns_passes_denotes hvalue hrun).exists_ok
  rw [hc] at hnear
  exact Noted.returns_of_ok hc ⟨hnear, hdenotes⟩

/-- The comparisons in the loop begin with those for a coefficient. -/
theorem allSharp_coefficientTests (h : AllSharp (e.loopTests s x center more)) :
    AllSharp (e.coefficientTests s x center) := by
  cases more with
  | zero => exact h
  | succ more => exact (allSharp_append.mp h).1

/-- The value of a derivative at the center is the coefficient. -/
theorem IsDerivative.coefficient (h : IsDerivative s x center env I F power more e)
    (hcenter : center ∈ I) :
    Returns (fun p => IsCoefficient x center env F power p.1)
      (Expr.passes s maxPasses (Expr.subst x (Term.literal center) e)) :=
  returns_coefficient (allSharp_coefficientTests h.sharp) (h.value center hcenter)

/-- A coefficient that is taken for zero adds nothing. -/
theorem IsCoefficient.skip {c : Expr ℝ} {terms : Option (Expr ℝ)}
    (hc : IsCoefficient x center env F power c) (hzero : Term.nearZero c = true) {r : ℝ}
    (hterms : Denotes (env.update x r) (terms.getD (.num Arith.zero))
      (taylorSum F center power r)) :
    Denotes (env.update x r) (terms.getD (.num Arith.zero))
      (taylorSum F center (power + 1) r) := by
  have hvalue := hc.value r
  rw [Term.eq_num_of_isNear hc.sharp hzero] at hvalue
  rw [taylorSum_succ_of_zero (Expr.denotes_num.mp hvalue).symm]
  exact hterms

/-- The term of a coefficient is added to the sum. -/
theorem IsCoefficient.ends_term {c : Expr ℝ} {terms : Option (Expr ℝ)}
    (hc : IsCoefficient x center env F power c)
    (hterms : ∀ r, Denotes (env.update x r) (terms.getD (.num Arith.zero))
      (taylorSum F center power r)) :
    Returns (fun t => ∀ r, Denotes (env.update x r)
        ((some (addTerm terms t)).getD (.num Arith.zero)) (taylorSum F center (power + 1) r))
      (.lift ((seriesTerm x center power c).mapError .fault) :
        Working ℝ (CalculusError ℝ) (Expr ℝ)) := by
  rcases Nat.eq_zero_or_pos power with rfl | hpower
  · refine Noted.ends_pure fun r => ?_
    rw [taylorSum_one]
    exact denotes_addTerm (hterms r) (hc.value r)
  · rw [seriesTerm_of_pos hpower]
    refine Noted.ends_pure fun r => ?_
    rw [taylorSum_succ]
    exact denotes_addTerm (hterms r) (denotes_term (hc.value r) hpower)

/-- The simplified derivative is the next derivative. -/
theorem IsDerivative.next (h : IsDerivative s x center env I F power (more + 1) e) (hI : IsOpen I)
    (hcenter : center ∈ I) :
    Returns (fun p => IsDerivative s x center env I F (power + 1) more p.1)
      (Expr.passes s maxPasses (e.derivative x)) := by
  obtain ⟨hrun, hrest⟩ := allSharp_append.mp (allSharp_append.mp h.sharp).2
  have hvalue : ∀ r : I, Denotes (env.update x r) (e.derivative x)
      (iteratedDeriv (power + 1) F r) := by
    intro r
    obtain ⟨v, hv⟩ := h.defined _ (List.mem_cons_of_mem _ List.mem_cons_self) r r.2
    exact hv.of_eq (eq_iteratedDeriv_succ hI h.value r.2 hv)
  have : Nonempty I := ⟨⟨center, hcenter⟩⟩
  obtain ⟨⟨next, settled⟩, hnext, hdenotes⟩ := (Expr.returns_passes_denotes hvalue hrun).exists_ok
  have hdefined := h.defined
  rw [Expr.loopTrees, hnext] at hdefined
  rw [hnext] at hrest
  refine Noted.returns_of_ok hnext ⟨fun t ht => ?_, hrest, fun r hr => hdenotes ⟨r, hr⟩⟩
  exact hdefined t (List.mem_cons_of_mem _ (List.mem_cons_of_mem _ ht))

variable [Numeral ℝ]

/-- The loop of a series keeps the values of the derivatives, and those of the Taylor polynomial. -/
theorem seriesInvariant_taylor (hI : IsOpen I) (hcenter : center ∈ I) :
    SeriesInvariant s x center
      (fun power more g => IsDerivative s x center env I F power more g.root)
      (IsCoefficient x center env F)
      (fun power terms => ∀ r, Denotes (env.update x r) (terms.getD (.num Arith.zero))
        (taylorSum F center power r))
      (fun _ => False) where
  value hg := (returns_simplified (hg.coefficient hcenter)).mono fun _ h => h.choose_spec
  next hg := (returns_simplified (hg.next hI hcenter)).mono fun _ h => h.choose_spec
  skip hc hzero hterms r := hc.skip hzero (hterms r)
  term hc _ hterms := hc.ends_term hterms

/-- A loop that keeps the values of the Taylor polynomial ends in a series with these values, unless
a literal that is compared in the sum is merely close. -/
theorem returns_series {D : ℕ → ℕ → Formula ℝ → Prop} {order : ℕ}
    (h : SeriesInvariant s x center D (IsCoefficient x center env F)
      (fun power terms => ∀ r, Denotes (env.update x r) (terms.getD (.num Arith.zero))
        (taylorSum F center power r))
      (fun _ => False))
    (hx : f.vars.contains x = true) (hf : D 0 order f)
    (hsharp : AllSharp (f.seriesTests s x center order)) :
    Returns (fun g => ∀ r, Denotes (env.update x r) g.root (taylorSum F center (order + 1) r))
      (f.series s x center order) := by
  have hsum := (allSharp_append.mp hsharp).2
  have hnone : ∀ r, Denotes (env.update x r) ((none : Option (Expr ℝ)).getD (.num Arith.zero))
      (taylorSum F center 0 r) := fun r => Expr.denotes_num.mpr rfl
  have hpower : 0 + order + 1 = order + 1 := by omega
  obtain ⟨terms, hterms, hvalue⟩ := (h.ends hf hnone).exists_ok
  rw [hterms] at hsum
  rw [hpower] at hvalue
  have hpasses := Expr.returns_passes_denotes hvalue hsum
  refine ends_series_of (returns_requireVar hx) (Noted.returns_of_ok hterms rfl) fun t ht => ?_
  subst ht
  exact (returns_simplified hpasses).mono fun _ h => h.choose_spec

/-- **The series of a formula is its Taylor polynomial.**  Over the reals, let all derivatives that
the loop of a series comes to, before and after they are simplified, have values on an open interval
around the center, with zero nowhere raised to the power of zero, and let no literal that
simplification compares on the way be merely close to the number that it is compared with.  Then the
series does not fail, strict or not, and it has at every point the value of the Taylor polynomial of
the formula as a function of the variable. -/
theorem evaluate_series (s : Strictness) (f : Formula ℝ) (x : String) (center : ℝ) (order : ℕ)
    (env : Assignment ℝ) (lower upper : ℝ) (hx : f.vars.contains x = true)
    (hcenter : center ∈ Set.Ioo lower upper)
    (hdefined : ∀ t ∈ f.root.loopTrees s x order, ∀ r ∈ Set.Ioo lower upper,
      (∃ v, t.evaluate (env.update x r) = .ok v) ∧ t.ZeroPowerFree (env.update x r))
    (hsharp : AllSharp (f.seriesTests s x center order)) :
    ∃ g, (f.series s x center order).result = .ok g ∧
      ∀ r, g.evaluate (env.update x r) = .ok (∑ i ∈ Finset.range (order + 1),
        iteratedDeriv i (f.along env x) center / i.factorial * (r - center) ^ i) := by
  have hloop := (allSharp_append.mp hsharp).1
  have hdenotes : ∀ t ∈ f.root.loopTrees s x order, ∀ r ∈ Set.Ioo lower upper,
      ∃ v, Denotes (env.update x r) t v := by
    intro t ht r hr
    obtain ⟨⟨v, hv⟩, hzero⟩ := hdefined t ht r hr
    exact ⟨v, hv, hzero⟩
  have hvalue : ∀ r ∈ Set.Ioo lower upper,
      Denotes (env.update x r) f.root (iteratedDeriv 0 (f.along env x) r) := by
    intro r hr
    obtain ⟨v, hv⟩ := hdenotes f.root Expr.mem_loopTrees r hr
    have hroot : f.evaluate (env.update x r) = .ok v := hv.1
    rw [iteratedDeriv_zero, along, hroot]
    exact hv
  obtain ⟨g, hg, hdenotes⟩ := (returns_series (seriesInvariant_taylor isOpen_Ioo hcenter) hx
    ⟨hdenotes, hloop, hvalue⟩ hsharp).exists_ok
  exact ⟨g, hg, fun r => (hdenotes r).1⟩

end

/-! ## the sine -/

open Term (allSharp_nil allSharp_intCast allSharp_untilNear allSharp_binTests
  allSharp_passTests_bin allSharp_runTests)

/-- The sine of a variable. -/
noncomputable def sine : Formula ℝ := ⟨.app .sin (.var "x"), ["x"]⟩

/-- The first power of a variable as a term of a series. -/
private noncomputable def linearTerm : Expr ℝ :=
  .bin .div (.bin .mul (.num 1) (.bin .pow (.var "x") (.num 1))) (.num 1)

/-- Zero and one are sharply compared with zero and with one. -/
theorem sharp_zero :
    AllSharp (Term.nearTest 0 (.num 0)) ∧ AllSharp (Term.nearTest 1 (.num 0)) := by
  have h0 := allSharp_intCast 0 0
  have h1 := allSharp_intCast 0 1
  rw [Int.cast_zero] at h0 h1
  rw [Int.cast_one] at h1
  exact ⟨h0, h1⟩

theorem sharp_one :
    AllSharp (Term.nearTest 0 (.num 1)) ∧ AllSharp (Term.nearTest 1 (.num 1)) := by
  have h0 := allSharp_intCast 1 0
  have h1 := allSharp_intCast 1 1
  rw [Int.cast_one] at h0 h1
  rw [Int.cast_zero] at h0
  exact ⟨h0, h1⟩

theorem nearZero_zero : Term.nearZero (Expr.num (0 : ℝ)) = true := real_near_self 0

theorem nearZero_one : Term.nearZero (Expr.num (1 : ℝ)) = false := real_not_near_one_zero

theorem nearOne_one : Term.nearOne (Expr.num (1 : ℝ)) = true := real_near_self 1

/-- A neutral one on the right. -/
private theorem identity_one (s : Strictness) {op : BinOp} (hop : op ≠ .add ∧ op ≠ .sub)
    {a : Expr ℝ} (ha : Term.nearZero a = false) :
    (Term.identity s op a (.num 1)).result = .ok (some a) := by
  cases op with
  | add => exact absurd rfl hop.1
  | sub => exact absurd rfl hop.2
  | mul | div | pow =>
      simp only [Term.identity, ha, nearZero_one, nearOne_one]
      rfl

theorem pass_sineAtZero (s : Strictness) :
    (Expr.pass s (.app .sin (.num (0 : ℝ)))).result = .ok (.num 0, true) := by
  refine Expr.pass_app_of_some (Expr.pass_zero s) ?_
  unfold Term.reduceApp
  rw [if_pos nearZero_zero]
  rfl

theorem pass_cosineAtZero (s : Strictness) :
    (Expr.pass s (.app .cos (.num (0 : ℝ)))).result = .ok (.num 1, true) := by
  refine Expr.pass_app_of_some (Expr.pass_zero s) ?_
  unfold Term.reduceApp
  rw [if_pos nearZero_zero]
  rfl

private theorem pass_cosine (s : Strictness) :
    (Expr.pass s (.app .cos (.var "x") : Expr ℝ)).result = .ok (.app .cos (.var "x"), false) := rfl

private theorem pass_cosineTimesOne (s : Strictness) :
    (Expr.pass s (.bin .mul (.app .cos (.var "x")) (.num (1 : ℝ)))).result =
      .ok (.app .cos (.var "x"), true) :=
  Expr.pass_bin_of_some (pass_cosine s) (Expr.pass_one s)
    (Noted.bind_result_of_ok (identity_one s (by decide) rfl) _)

private theorem pass_firstPower (s : Strictness) :
    (Expr.pass s (.bin .pow (.var "x") (.num (1 : ℝ)))).result = .ok (.var "x", true) :=
  Expr.pass_bin_of_some rfl (Expr.pass_one s)
    (Noted.bind_result_of_ok (identity_one s (by decide) rfl) _)

/-- A neutral one on the left. -/
theorem identity_oneTimes (s : Strictness) :
    (Term.identity s .mul (Expr.num (1 : ℝ)) (.var "x")).result = .ok (some (.var "x")) := by
  simp only [Term.identity, nearZero_one, nearOne_one]
  rfl

private theorem pass_oneTimesPower (s : Strictness) :
    (Expr.pass s (.bin .mul (.num (1 : ℝ)) (.bin .pow (.var "x") (.num 1)))).result =
      .ok (.var "x", true) :=
  Expr.pass_bin_of_some (Expr.pass_one s) (pass_firstPower s)
    (Noted.bind_result_of_ok (identity_oneTimes s) _)

private theorem pass_linearTerm (s : Strictness) :
    (Expr.pass s linearTerm).result = .ok (.var "x", true) :=
  Expr.pass_bin_of_some (pass_oneTimesPower s) (Expr.pass_one s)
    (Noted.bind_result_of_ok (identity_one s (by decide) rfl) _)

/-! ### runs of passes -/

theorem passes_sineAtZero (s : Strictness) :
    (Expr.passes s maxPasses (.app .sin (.num (0 : ℝ)))).result = .ok (.num 0, true) :=
  Expr.passes_of_changed (pass_sineAtZero s) (Expr.pass_zero s)

private theorem passes_cosineAtZero (s : Strictness) :
    (Expr.passes s maxPasses (.app .cos (.num (0 : ℝ)))).result = .ok (.num 1, true) :=
  Expr.passes_of_changed (pass_cosineAtZero s) (Expr.pass_one s)

private theorem passes_cosineTimesOne (s : Strictness) :
    (Expr.passes s maxPasses (.bin .mul (.app .cos (.var "x")) (.num (1 : ℝ)))).result =
      .ok (.app .cos (.var "x"), true) :=
  Expr.passes_of_changed (pass_cosineTimesOne s) (pass_cosine s)

/-! ### comparisons -/

/-- The comparisons for a function of zero are sharp. -/
theorem sharp_atZero (s : Strictness) (g : Fn) :
    AllSharp (Expr.passTests s (.app g (.num 0))) := by
  refine allSharp_append.mpr ⟨allSharp_nil, ?_⟩
  rw [Expr.pass_zero]
  refine allSharp_untilNear ?_
  simp [sharp_zero]

private theorem sharp_cosine (s : Strictness) :
    AllSharp (Expr.passTests s (.app .cos (.var "x"))) := by
  refine allSharp_append.mpr ⟨allSharp_nil, allSharp_untilNear ?_⟩
  simp [Term.nearTest, allSharp_nil]

private theorem sharp_cosineTimesOne (s : Strictness) :
    AllSharp (Expr.passTests s (.bin .mul (.app .cos (.var "x")) (.num 1))) :=
  allSharp_passTests_bin (pass_cosine s) (Expr.pass_one s) (sharp_cosine s) allSharp_nil
    (allSharp_binTests ⟨allSharp_nil, allSharp_nil⟩ sharp_one allSharp_nil)

private theorem sharp_linearTerm (s : Strictness) : AllSharp (Expr.passTests s linearTerm) := by
  have hx : AllSharp (Term.nearTest 0 (.var "x")) ∧ AllSharp (Term.nearTest 1 (.var "x")) :=
    ⟨allSharp_nil, allSharp_nil⟩
  have hvar : (Expr.pass s (.var "x" : Expr ℝ)).result = .ok (.var "x", false) := rfl
  have hpower : AllSharp (Expr.passTests s (.bin .pow (.var "x") (.num 1))) :=
    allSharp_passTests_bin hvar (Expr.pass_one s) allSharp_nil allSharp_nil
      (allSharp_binTests hx sharp_one allSharp_nil)
  have hproduct :
      AllSharp (Expr.passTests s (.bin .mul (.num 1) (.bin .pow (.var "x") (.num 1)))) :=
    allSharp_passTests_bin (Expr.pass_one s) (pass_firstPower s) allSharp_nil hpower
      (allSharp_binTests sharp_one hx allSharp_nil)
  exact allSharp_passTests_bin (pass_oneTimesPower s) (Expr.pass_one s) hproduct allSharp_nil
    (allSharp_binTests hx sharp_one allSharp_nil)

/-! ### the series -/

theorem literal_zero : (Term.literal (0 : ℝ) : Expr ℝ) = .num 0 :=
  if_pos ((real_nonneg 0).mpr le_rfl)

/-- Zero is put for the variable of a function. -/
theorem subst_app (g : Fn) :
    Expr.subst "x" (Term.literal (0 : ℝ)) (.app g (.var "x")) = (.app g (.num 0) : Expr ℝ) := by
  rw [Expr.subst, Expr.subst, if_pos rfl, literal_zero]

theorem derivative_sine :
    (Expr.app .sin (.var "x") : Expr ℝ).derivative "x" =
      .bin .mul (.app .cos (.var "x")) (.num 1) := rfl

private theorem sharp_coefficient {s : Strictness} {g : Fn} {c : ℝ}
    (hfirst : (Expr.pass s (.app g (.num (0 : ℝ)))).result = .ok (.num c, true))
    (hlast : (Expr.pass s (.num c)).result = .ok (.num c, false))
    (hc : AllSharp (Term.nearTest 0 (.num c))) :
    AllSharp ((Expr.app g (.var "x")).coefficientTests s "x" 0) := by
  have hpasses : (Expr.passes s maxPasses (.app g (.num (0 : ℝ)))).result = .ok (.num c, true) :=
    Expr.passes_of_changed hfirst hlast
  rw [Expr.coefficientTests, subst_app, hpasses]
  exact allSharp_append.mpr
    ⟨allSharp_runTests hfirst hlast (sharp_atZero s g) allSharp_nil _, hc⟩

section

variable [Numeral ℝ]

private theorem simplified_sineAtZero (s : Strictness) :
    ((sine.atPoint "x" 0).simplified s).result = .ok (sine.withRoot (.num 0)) := by
  have hroot : (sine.atPoint "x" 0).root = .app .sin (.num 0) := subst_app .sin
  have hpasses := passes_sineAtZero s
  rw [← hroot] at hpasses
  exact simplified_result hpasses

private theorem simplified_cosineAtZero (s : Strictness) :
    (((sine.withRoot (.app .cos (.var "x"))).atPoint "x" 0).simplified s).result =
      .ok (sine.withRoot (.num 1)) := by
  have hroot : ((sine.withRoot (.app .cos (.var "x"))).atPoint "x" 0).root = .app .cos (.num 0) :=
    subst_app .cos
  have hpasses := passes_cosineAtZero s
  rw [← hroot] at hpasses
  exact simplified_result hpasses

/-- The term of the first power is the only one, since the sine is zero at zero. -/
private theorem seriesFrom_sine (s : Strictness) :
    (seriesFrom s "x" (0 : ℝ) 0 1 sine none).result = .ok (some linearTerm) := by
  have hzero : Term.nearZero (sine.withRoot (.num (0 : ℝ))).root = true := real_near_self 0
  have hone : ¬Term.nearZero (sine.withRoot (.num (1 : ℝ))).root = true :=
    Bool.eq_false_iff.mp nearZero_one
  have hnext : ((sine.withRoot (sine.root.derivative "x")).simplified s).result =
      .ok (sine.withRoot (.app .cos (.var "x"))) := simplified_result (passes_cosineTimesOne s)
  have hterm : seriesTerm "x" (0 : ℝ) (0 + 1) (.num 1) = .ok linearTerm := by
    rw [seriesTerm_of_pos Nat.one_pos, distance, if_pos ((real_isZero 0).mpr rfl),
      Nat.factorial_one, Nat.cast_one]
    rfl
  have hlift : (.lift ((seriesTerm "x" (0 : ℝ) (0 + 1) (.num 1)).mapError .fault) :
      Working ℝ (CalculusError ℝ) (Expr ℝ)).result = .ok linearTerm :=
    congrArg (Except.mapError CalculusError.fault) hterm
  have hsum : (do
      let term ← .lift ((seriesTerm "x" (0 : ℝ) (0 + 1) (.num 1)).mapError .fault)
      pure (some (addTerm none term)) : Working ℝ (CalculusError ℝ) (Option (Expr ℝ))).result =
      .ok (some linearTerm) := Noted.bind_result_of_ok hlift _
  unfold seriesFrom
  rw [Noted.bind_result_of_ok (simplified_sineAtZero s), Noted.bind_result_of_ok rfl, if_pos hzero,
    Noted.bind_result_of_ok rfl, Noted.bind_result_of_ok hnext]
  unfold seriesFrom
  rw [Noted.bind_result_of_ok (simplified_cosineAtZero s), Noted.bind_result_of_ok rfl, if_neg hone]
  exact Noted.bind_result_of_ok hsum _

/-- The comparisons for the series of the sine are sharp. -/
theorem sharp_sine (s : Strictness) : AllSharp (sine.seriesTests s "x" 0 1) := by
  have hderivative : AllSharp (Expr.runTests s maxPasses (sine.root.derivative "x")) :=
    allSharp_runTests (pass_cosineTimesOne s) (pass_cosine s) (sharp_cosineTimesOne s)
      (sharp_cosine s) _
  have hloop : AllSharp (sine.root.loopTests s "x" 0 1) := by
    refine allSharp_append.mpr
      ⟨sharp_coefficient (pass_sineAtZero s) (Expr.pass_zero s) sharp_zero.1,
        allSharp_append.mpr ⟨hderivative, ?_⟩⟩
    rw [sine, derivative_sine, passes_cosineTimesOne]
    exact sharp_coefficient (pass_cosineAtZero s) (Expr.pass_one s) sharp_one.1
  refine allSharp_append.mpr ⟨hloop, ?_⟩
  rw [seriesFrom_sine]
  exact allSharp_runTests (pass_linearTerm s) rfl (sharp_linearTerm s) allSharp_nil _

end

private theorem denotes_loopTrees_sine (s : Strictness) (env : Assignment ℝ) (r : ℝ) :
    ∀ t ∈ sine.root.loopTrees s "x" 1, ∃ v, Denotes (env.update "x" r) t v := by
  have hvar : Denotes (env.update "x" r) (.var "x") r := Expr.denotes_var (if_pos rfl)
  have hsine : Denotes (env.update "x" r) (.app .sin (.var "x")) (Real.sin r) :=
    Expr.denotes_app.mpr ⟨r, hvar, trivial, rfl⟩
  have hcosine : Denotes (env.update "x" r) (.app .cos (.var "x")) (Real.cos r) :=
    Expr.denotes_app.mpr ⟨r, hvar, trivial, rfl⟩
  have htrees : sine.root.loopTrees s "x" 1 =
      [.app .sin (.var "x"), .bin .mul (.app .cos (.var "x")) (.num 1), .app .cos (.var "x")] := by
    rw [sine, Expr.loopTrees, derivative_sine, passes_cosineTimesOne]
    rfl
  rw [htrees]
  simp only [List.forall_mem_cons, List.not_mem_nil, false_implies, implies_true, and_true]
  exact ⟨⟨_, hsine⟩, ⟨_, hcosine.binary .mul (Expr.denotes_num.mpr rfl) trivial (by decide)⟩,
    ⟨_, hcosine⟩⟩

/-- The Taylor polynomial of the sine at zero, of the first order. -/
theorem evaluate_series_sine :
    sine.vars.contains "x" = true ∧ (0 : ℝ) ∈ Set.Ioo (-1 : ℝ) 1 ∧
      (∀ t ∈ sine.root.loopTrees .strict "x" 1, ∀ r ∈ Set.Ioo (-1 : ℝ) 1,
        (∃ v, t.evaluate (Assignment.update (fun _ => none) "x" r) = .ok v) ∧
          t.ZeroPowerFree (Assignment.update (fun _ => none) "x" r)) ∧
      AllSharp (@seriesTests ⟨fun _ => "", fun _ => "", fun _ => ""⟩ .strict sine "x" 0 1) ∧
      ∃ g, (@series ℝ _ ⟨fun _ => "", fun _ => "", fun _ => ""⟩ .strict sine "x" 0
          (1 : ℕ)).result = .ok g ∧
        ∀ r, g.evaluate (Assignment.update (fun _ => none) "x" r) = .ok (∑ i ∈ Finset.range (1 + 1),
          iteratedDeriv i (sine.along (fun _ => none) "x") 0 / i.factorial * (r - 0) ^ i) := by
  have hx : sine.vars.contains "x" = true := rfl
  have hcenter : (0 : ℝ) ∈ Set.Ioo (-1 : ℝ) 1 := ⟨by norm_num, by norm_num⟩
  have hdefined : ∀ t ∈ sine.root.loopTrees .strict "x" 1, ∀ r ∈ Set.Ioo (-1 : ℝ) 1,
      (∃ v, t.evaluate (Assignment.update (fun _ => none) "x" r) = .ok v) ∧
        t.ZeroPowerFree (Assignment.update (fun _ => none) "x" r) := by
    intro t ht r _
    obtain ⟨v, hv⟩ := denotes_loopTrees_sine .strict (fun _ => none) r t ht
    exact ⟨⟨v, hv.1⟩, hv.2⟩
  have hsharp := @sharp_sine ⟨fun _ => "", fun _ => "", fun _ => ""⟩ .strict
  exact ⟨hx, hcenter, hdefined, hsharp, @evaluate_series ⟨fun _ => "", fun _ => "", fun _ => ""⟩
    .strict sine "x" 0 1 (fun _ => none) (-1) 1 hx hcenter hdefined hsharp⟩

end Formula

end Fluxion

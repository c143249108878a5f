import Fluxion.Proofs.Expr.Hereditary
import Fluxion.Proofs.Expr.Polynomial
import Fluxion.Proofs.Formula.Series

/-!
# Fluxion.Proofs.Formula.Polynomial

Taylor series of polynomials.

A polynomial is its own Taylor polynomial of every order that is not below its degree.  What the loop
of a series keeps is that the derivatives and coefficients are polynomials with the values that the
calculus of functions gives them (`Expr.Represents`); the terms of the sum are quotients by
factorials.

* `Expr.polynomial`: the polynomial that an expression is, and so its degree;
* `taylorSum_eval`: the Taylor polynomial of a polynomial;
* `Formula.seriesInvariant_polynomial`: what the loop keeps;
* `Formula.evaluate_series_of_isPolynomial`: the series has the values of the polynomial.
-/

namespace Fluxion

open Noted (Ends Returns)

namespace Expr

/-! ## degrees -/

/-- The polynomial that an expression is. -/
noncomputable def polynomial : Expr ℝ → MvPolynomial String ℝ
  | num v => MvPolynomial.C v
  | var x => MvPolynomial.X x
  | bin .add a b => a.polynomial + b.polynomial
  | bin .sub a b => a.polynomial - b.polynomial
  | bin .mul a b => a.polynomial * b.polynomial
  | bin .pow a (num v) => a.polynomial ^ ⌊v⌋₊
  | neg a => -a.polynomial
  | bin _ _ _ | app _ _ => 0

variable {e : Expr ℝ} {x : String} {env : Assignment ℝ}

/-- A polynomial as one in a single variable, the others having their values. -/
noncomputable def inVariable (x : String) (env : Assignment ℝ) (p : MvPolynomial String ℝ) :
    Polynomial ℝ :=
  MvPolynomial.aeval
    (fun y => if y = x then Polynomial.X else Polynomial.C ((var y).total env)) p

theorem eval_inVariable (he : e.IsPolynomial) (r : ℝ) :
    (inVariable x env e.polynomial).eval r = e.total (env.update x r) := by
  induction e with
  | num v => simp [inVariable, polynomial, total]
  | var y =>
      by_cases hy : y = x
      · simp [inVariable, polynomial, total, Assignment.update, hy]
      · simp [inVariable, polynomial, total, Assignment.update, hy]
  | bin op a b iha ihb =>
      cases op with
      | add =>
          rw [total, ← iha he.1, ← ihb he.2, BinOp.real, ← Polynomial.eval_add]
          simp only [inVariable, polynomial, map_add]
      | sub =>
          rw [total, ← iha he.1, ← ihb he.2, BinOp.real, ← Polynomial.eval_sub]
          simp only [inVariable, polynomial, map_sub]
      | mul =>
          rw [total, ← iha he.1, ← ihb he.2, BinOp.real, ← Polynomial.eval_mul]
          simp only [inVariable, polynomial, map_mul]
      | div => exact he.elim
      | pow =>
          obtain ⟨ha, n, rfl⟩ := he
          rw [total_power, ← iha ha, ← Polynomial.eval_pow]
          simp only [inVariable, polynomial, map_pow, Nat.floor_natCast]
  | neg a ih =>
      rw [total, ← ih he, ← Polynomial.eval_neg]
      simp only [inVariable, polynomial, map_neg]
  | app _ _ _ => exact he.elim

/-- The degree in the variable bounds that of the polynomial in this variable only. -/
theorem natDegree_inVariable_le (p : MvPolynomial String ℝ) :
    (inVariable x env p).natDegree ≤ p.degreeOf x := by
  rw [inVariable, MvPolynomial.aeval_def, MvPolynomial.eval₂_eq]
  refine Polynomial.natDegree_sum_le_of_forall_le _ _ fun d hd => ?_
  have hfactor : ∀ y ∈ d.support,
      ((if y = x then Polynomial.X else Polynomial.C ((var y).total env) : Polynomial ℝ) ^
        d y).natDegree ≤ if y = x then d y else 0 := by
    intro y _
    by_cases hy : y = x
    · simp [hy]
    · simp [hy]
  calc _ ≤ (∏ y ∈ d.support,
          (if y = x then Polynomial.X else Polynomial.C ((var y).total env) : Polynomial ℝ) ^
            d y).natDegree := Polynomial.natDegree_C_mul_le _ _
    _ ≤ ∑ y ∈ d.support, if y = x then d y else 0 :=
        (Polynomial.natDegree_prod_le _ _).trans (Finset.sum_le_sum hfactor)
    _ ≤ d x := by
        rw [Finset.sum_ite_eq']
        split
        · exact le_rfl
        · exact Nat.zero_le _
    _ ≤ p.degreeOf x := MvPolynomial.monomial_le_degreeOf x hd

end Expr

/-- A polynomial is its Taylor polynomial of every order that is not below its degree. -/
theorem taylorSum_eval (p : Polynomial ℝ) {n : ℕ} (hn : p.natDegree ≤ n) (c r : ℝ) :
    Formula.taylorSum (fun s => p.eval s) c (n + 1) r = p.eval r := by
  have hderiv : ∀ i, iteratedDeriv i (fun s => p.eval s) =
      fun s => (Polynomial.derivative^[i] p).eval s := by
    intro i
    induction i with
    | zero => exact iteratedDeriv_zero
    | succ i ih =>
        rw [iteratedDeriv_succ, ih, Function.iterate_succ_apply']
        funext s
        exact Polynomial.deriv _
  have hcoeff : ∀ i, iteratedDeriv i (fun s => p.eval s) c / i.factorial =
      (p.taylor c).coeff i := by
    intro i
    have hfactorial : (i.factorial : ℝ) ≠ 0 := Nat.cast_ne_zero.mpr i.factorial_ne_zero
    rw [hderiv, Polynomial.taylor_coeff, ← Polynomial.factorial_smul_hasseDeriv]
    change (i.factorial • Polynomial.hasseDeriv i p).eval c / _ = _
    rw [nsmul_eq_mul, Polynomial.eval_mul, Polynomial.eval_natCast,
      mul_div_cancel_left₀ _ hfactorial]
  have hdegree : (p.taylor c).natDegree < n + 1 := by
    rw [Polynomial.natDegree_taylor]
    exact Nat.lt_succ_of_le hn
  calc Formula.taylorSum (fun s => p.eval s) c (n + 1) r
      = ∑ i ∈ Finset.range (n + 1), (p.taylor c).coeff i * (r - c) ^ i :=
        Finset.sum_congr rfl fun i _ => by rw [hcoeff]
    _ = (p.taylor c).eval (r - c) := (Polynomial.eval_eq_sum_range' hdegree _).symm
    _ = p.eval r := Polynomial.taylor_eval_sub _ _ _

namespace Expr

variable {quotient : Expr ℝ → Expr ℝ → Prop} {allowed : String → Prop} {e : Expr ℝ} {x : String}
  {value value' : Assignment ℝ → ℝ}

theorem names_literal (v : ℝ) : ∀ y ∈ (Term.literal v : Expr ℝ).names, allowed y := by
  unfold Term.literal
  split
  · exact nofun
  · exact nofun

/-- The names in an expression are among some. -/
theorem hereditary_names (allowed : String → Prop) :
    Hereditary fun e : Expr ℝ => ∀ y ∈ e.names, allowed y where
  bin := List.forall_mem_append
  neg := Iff.rfl
  app := Iff.rfl
  zero := nofun
  one := nofun
  two := nofun
  literal _ := names_literal _
  signed _ _ := names_literal _

/-- A polynomial in some of the variables, with given values. -/
structure Represents (quotient : Expr ℝ → Expr ℝ → Prop) (allowed : String → Prop) (e : Expr ℝ)
    (value : Assignment ℝ → ℝ) : Prop where
  isPolynomial : e.IsPolynomialOver quotient
  names : ∀ y ∈ e.names, allowed y
  total (env : Assignment ℝ) : e.total env = value env

theorem Represents.of_eq (h : Represents quotient allowed e value)
    (hvalue : ∀ env, value env = value' env) : Represents quotient allowed e value' :=
  ⟨h.isPolynomial, h.names, fun env => (h.total env).trans (hvalue env)⟩

/-- Simplification keeps the values. -/
theorem Represents.passes (hdiv : ∀ a b, quotient a b → Tidy quotient (bin .div a b))
    (h : Represents quotient allowed e value) (n : ℕ) :
    Returns (fun p => Represents quotient allowed p.1 value) (passes .lenient n e) := by
  obtain ⟨⟨t, settled⟩, ht, hreplaces⟩ := (returns_passes hdiv h.isPolynomial n).exists_ok
  exact Noted.returns_of_ok ht ⟨hreplaces.isPolynomial, (hereditary_names allowed).passes h.names ht,
    fun env => (hreplaces.total env).trans (h.total env)⟩

/-- The simplified derivative has the values of the derivative. -/
theorem Represents.passes_derivative (h : Represents (fun _ _ => False) allowed e value)
    (x : String) {n : ℕ} (hn : 0 < n) :
    Returns (fun p => Represents (fun _ _ => False) allowed p.1
        fun env => deriv (fun s => value (env.update x s)) ((var x).total env))
      (Expr.passes .lenient n (e.derivative x)) := by
  have htidy := tidy_derivative h.isPolynomial x
  obtain ⟨⟨t, settled⟩, ht, hreplaces⟩ :=
    (htidy.returns_passes (fun _ _ hq => hq.elim) hn).exists_ok
  have hnames := (hereditary_names allowed).derivative x h.names
  refine Noted.returns_of_ok ht ⟨hreplaces.isPolynomial,
    (hereditary_names allowed).passes hnames ht, fun env => ?_⟩
  have hderiv := hasDerivAt_of_isPolynomial h.isPolynomial x env ((var x).total env)
  simp only [h.total, total_update_var] at hderiv
  rw [hreplaces.total, hderiv.deriv]

/-- A polynomial put for a variable gives a polynomial. -/
theorem isPolynomial_subst {u : Expr ℝ} (hu : u.IsPolynomial) (he : e.IsPolynomial) :
    (subst x u e).IsPolynomial := by
  induction e with
  | num _ => exact he
  | var y =>
      unfold subst
      split
      · exact hu
      · trivial
  | bin op a b iha ihb =>
      cases op with
      | add | sub | mul => exact ⟨iha he.1, ihb he.2⟩
      | div => exact he.elim
      | pow =>
          obtain ⟨ha, n, rfl⟩ := he
          exact ⟨iha ha, n, rfl⟩
  | neg a ih => exact ih he
  | app _ _ _ => exact he.elim

theorem represents_literal (k : ℤ) :
    Represents quotient allowed (Term.literal (k : ℝ)) fun _ => k :=
  ⟨isPolynomialOver_literal k, names_literal k, total_literal k⟩

/-- A whole number put for a variable. -/
theorem Represents.subst (h : Represents (fun _ _ => False) allowed e value) (x : String) (c : ℤ) :
    Represents (fun _ _ => False) allowed (Expr.subst x (Term.literal (c : ℝ)) e)
      fun env => value (env.update x c) where
  isPolynomial := isPolynomial_subst (isPolynomialOver_literal c) h.isPolynomial
  names := (hereditary_names allowed).subst x (names_literal c) h.names
  total env := by rw [total_subst, total_literal, h.total]

end Expr

namespace Formula

open Fluxion.Expr (Represents IsShare)

variable {f : Formula ℝ} {x : String} {center : ℤ}

/-! ## the loop -/

/-- The values of a formula along a variable, by the total extension. -/
noncomputable def totalAlong (f : Formula ℝ) (x : String) (env : Assignment ℝ) (s : ℝ) : ℝ :=
  f.root.total (env.update x s)

theorem totalAlong_update (f : Formula ℝ) (x : String) (env : Assignment ℝ) (r : ℝ) :
    f.totalAlong x (env.update x r) = f.totalAlong x env := by
  funext s
  rw [totalAlong, Expr.update_update, totalAlong]

/-- The variable of a series and those of the formula. -/
def IsNameOf (f : Formula ℝ) (x y : String) : Prop := y = x ∨ y ∈ f.root.names

/-- The distance from the center. -/
theorem represents_distance (f : Formula ℝ) (x : String) (center : ℤ) :
    Represents (fun _ _ => False) (f.IsNameOf x) (distance x (center : ℝ))
      fun env => (Expr.var x).total env - center := by
  have hname : ∀ y ∈ (Expr.var x : Expr ℝ).names, f.IsNameOf x y :=
    fun y hy => .inl (List.mem_singleton.mp hy)
  unfold distance
  split
  · next h =>
    have hzero : (center : ℝ) = 0 := (real_isZero _).mp h
    exact ⟨trivial, hname, fun env => by rw [hzero, sub_zero]⟩
  · have hcenter : Represents (fun _ _ => False) (f.IsNameOf x) (Term.literal (center : ℝ))
        fun _ => center := Expr.represents_literal center
    exact ⟨⟨trivial, hcenter.isPolynomial⟩, List.forall_mem_append.mpr ⟨hname, hcenter.names⟩,
      fun env => congrArg ((Expr.var x).total env - ·) (hcenter.total env)⟩

/-- The term of a positive power.  It is zero at the center, so it is not constant unless it is zero
everywhere. -/
theorem represents_term {c : Expr ℝ} {value : Assignment ℝ → ℝ}
    (hc : Represents (fun _ _ => False) (f.IsNameOf x) c value) {power : ℕ} (hpower : 0 < power) :
    Represents IsShare (f.IsNameOf x)
      (.bin .div (.bin .mul c (.bin .pow (distance x (center : ℝ)) (.num (power : ℝ))))
        (.num (power.factorial : ℝ)))
      fun env => value env / power.factorial * ((Expr.var x).total env - center) ^ power := by
  have hdistance := f.represents_distance x center
  have htotal : ∀ env,
      (Expr.bin .mul c (.bin .pow (distance x (center : ℝ)) (.num (power : ℝ)))).total env =
        value env * ((Expr.var x).total env - center) ^ power := by
    intro env
    rw [← hc.total, ← hdistance.total, ← Expr.total_power]
    rfl
  have hconst : ∀ v, (∀ env,
      (Expr.bin .mul c (.bin .pow (distance x (center : ℝ)) (.num (power : ℝ)))).total env = v) →
        v = 0 := by
    intro v hv
    have hplace : (Expr.var x).total (Assignment.single x (center : ℝ)) = center := by
      rw [Expr.total, Assignment.single, if_pos rfl, Option.getD_some]
    rw [← hv (Assignment.single x (center : ℝ)), htotal, hplace, sub_self, zero_pow hpower.ne',
      mul_zero]
  refine ⟨⟨⟨hc.isPolynomial, hdistance.isPolynomial, power, rfl⟩, hconst, power.factorial,
    power.factorial_pos, rfl⟩, ?_, fun env => ?_⟩
  · have hnumbers : ∀ y ∈ ([] : List String), f.IsNameOf x y := fun y hy =>
      absurd hy List.not_mem_nil
    exact List.forall_mem_append.mpr ⟨List.forall_mem_append.mpr
      ⟨hc.names, List.forall_mem_append.mpr ⟨hdistance.names, hnumbers⟩⟩, hnumbers⟩
  · rw [div_mul_eq_mul_div, ← htotal]
    rfl

/-- A sum with one more term. -/
theorem represents_addTerm {terms : Option (Expr ℝ)} {t : Expr ℝ} {value value' : Assignment ℝ → ℝ}
    (hterms : Represents IsShare (f.IsNameOf x) (terms.getD (.num Arith.zero)) value)
    (ht : Represents IsShare (f.IsNameOf x) t value') :
    Represents IsShare (f.IsNameOf x) (addTerm terms t) fun env => value env + value' env := by
  cases terms with
  | none =>
      refine ht.of_eq fun env => ?_
      have hzero : value env = 0 := (hterms.total env).symm
      rw [hzero, zero_add]
  | some e =>
      exact ⟨⟨hterms.isPolynomial, ht.isPolynomial⟩,
        List.forall_mem_append.mpr ⟨hterms.names, ht.names⟩,
        fun env => congrArg₂ (· + ·) (hterms.total env) (ht.total env)⟩

/-- Of an order that is not below the degree, the Taylor polynomial is the polynomial. -/
theorem taylorSum_eq_total (hf : f.root.IsPolynomial) {order : ℕ}
    (horder : f.root.polynomial.degreeOf x ≤ order) (c : ℝ) (env : Assignment ℝ) :
    taylorSum (f.totalAlong x env) c (order + 1) ((Expr.var x).total env) = f.root.total env := by
  have halong : f.totalAlong x env = fun s => (Expr.inVariable x env f.root.polynomial).eval s :=
    funext fun s => (Expr.eval_inVariable hf s).symm
  have hdegree : (Expr.inVariable x env f.root.polynomial).natDegree ≤ order :=
    (Expr.natDegree_inVariable_le _).trans horder
  rw [halong, taylorSum_eval _ hdegree, Expr.eval_inVariable hf, Expr.total_update_var]

section

variable [Numeral ℝ]

/-- The loop of a series keeps polynomials, with the values that the calculus of functions gives. -/
theorem seriesInvariant_polynomial (f : Formula ℝ) (x : String) (center : ℤ) :
    SeriesInvariant .lenient x (center : ℝ)
      (fun power _ g => Represents (fun _ _ => False) (f.IsNameOf x) g.root
        fun env => iteratedDeriv power (f.totalAlong x env) ((Expr.var x).total env))
      (fun power c => Represents (fun _ _ => False) (f.IsNameOf x) c
        fun env => iteratedDeriv power (f.totalAlong x env) center)
      (fun power terms => Represents IsShare (f.IsNameOf x) (terms.getD (.num Arith.zero))
        fun env => taylorSum (f.totalAlong x env) center power ((Expr.var x).total env))
      (fun _ => False) where
  value {power more g} hg := by
    have h := (hg.subst x center).passes (fun _ _ hq => hq.elim) maxPasses
    refine (returns_simplified h).mono fun _ hvalue => ?_
    refine hvalue.choose_spec.of_eq fun env => ?_
    rw [totalAlong_update, Expr.total_var_update]
  next {power more g} hg := by
    have hpasses : 0 < maxPasses := by decide
    have h := hg.passes_derivative x hpasses
    refine (returns_simplified h).mono fun _ hnext => ?_
    refine hnext.choose_spec.of_eq fun env => ?_
    simp only [totalAlong_update, Expr.total_var_update]
    rw [iteratedDeriv_succ]
  skip {power c terms} hc hzero hterms := by
    refine hterms.of_eq fun env => ?_
    have hvalue := hc.total env
    rw [Expr.eq_zero_of_nearZero hc.isPolynomial hzero] at hvalue
    exact (taylorSum_succ_of_zero hvalue.symm _).symm
  term {power c terms} hc _ hterms := by
    rcases Nat.eq_zero_or_pos power with rfl | hpower
    · have hcoefficient : Represents IsShare (f.IsNameOf x) c _ :=
        ⟨Expr.IsPolynomial.over hc.isPolynomial, hc.names, hc.total⟩
      exact Noted.ends_pure ((represents_addTerm hterms hcoefficient).of_eq fun env =>
        (taylorSum_one _ _ _).symm)
    · rw [seriesTerm_of_pos hpower]
      exact Noted.ends_pure ((represents_addTerm hterms (represents_term hc hpower)).of_eq
        fun env => (taylorSum_succ _ _ _ _).symm)

/-- The terms of a series add up to the Taylor polynomial. -/
theorem returns_seriesFrom_polynomial (hf : f.root.IsPolynomial) (x : String) (center : ℤ)
    (order : ℕ) :
    Returns (fun terms => Represents IsShare (f.IsNameOf x) (terms.getD (.num Arith.zero))
        fun env => taylorSum (f.totalAlong x env) center (order + 1) ((Expr.var x).total env))
      (seriesFrom .lenient x (center : ℝ) 0 order f none) := by
  have hroot : Represents (fun _ _ => False) (f.IsNameOf x) f.root
      fun env => iteratedDeriv 0 (f.totalAlong x env) ((Expr.var x).total env) := by
    refine ⟨hf, fun y hy => .inr hy, fun env => ?_⟩
    rw [iteratedDeriv_zero, totalAlong, Expr.total_update_var]
  have hnone : Represents IsShare (f.IsNameOf x)
      ((none : Option (Expr ℝ)).getD (.num Arith.zero))
      fun env => taylorSum (f.totalAlong x env) center 0 ((Expr.var x).total env) :=
    ⟨Expr.isPolynomialOver_zero, nofun, fun env => rfl⟩
  have hpower : order + 1 = 0 + order + 1 := by omega
  rw [hpower]
  exact (f.seriesInvariant_polynomial x center).ends hroot hnone

/-- **The Taylor series of a polynomial is the polynomial.**  Let a formula be built from whole
numbers and variables by sums, differences, products, negations and whole powers.  Then its series
by a variable of the table, around a whole number and of an order that is not below the degree in
the variable, does not fail if simplification is lenient; and under every assignment of the
variables the series and the formula have the same value. -/
theorem evaluate_series_of_isPolynomial (f : Formula ℝ) (x : String) (center : ℤ) (order : ℕ)
    (hx : f.vars.contains x = true) (hf : f.root.IsPolynomial)
    (horder : f.root.polynomial.degreeOf x ≤ order) :
    ∃ g, (f.series .lenient x (center : ℝ) order).result = .ok g ∧
      ∀ env : Assignment ℝ, (∀ y, y = x ∨ y ∈ f.root.names → ∃ r, env y = some r) →
        ∃ v, f.evaluate env = .ok v ∧ g.evaluate env = .ok v := by
  have hseries : Returns (fun g => Represents IsShare (f.IsNameOf x) g.root
      fun env => taylorSum (f.totalAlong x env) center (order + 1) ((Expr.var x).total env))
      (f.series .lenient x (center : ℝ) order) := by
    refine ends_series_of (returns_requireVar hx) (returns_seriesFrom_polynomial hf x center order)
      fun terms hterms => ?_
    have hpasses := hterms.passes (fun _ _ => Expr.tidy_div) maxPasses
    exact (returns_simplified hpasses).mono fun _ h => h.choose_spec
  obtain ⟨g, hg, hvalue⟩ := hseries.exists_ok
  refine ⟨g, hg, fun env henv => ⟨f.root.total env, ?_, ?_⟩⟩
  · exact Expr.evaluate_of_isPolynomial hf fun y hy => henv y (.inr hy)
  · have hevaluate := Expr.evaluate_of_isPolynomialOver (fun _ _ => Expr.evaluate_of_isShare)
      hvalue.isPolynomial fun y hy => henv y (hvalue.names y hy)
    rw [hvalue.total, taylorSum_eq_total hf horder] at hevaluate
    exact hevaluate

end

/-- A square, times a power with the exponent zero. -/
noncomputable def squareTimesOne : Formula ℝ :=
  ⟨.bin .mul (.bin .pow (.var "x") (.num (2 : ℕ))) (.bin .pow (.var "x") (.num (0 : ℕ))), ["x"]⟩

/-- The second derivative has a factor with the exponent zero less one, which is not defined at
zero. -/
theorem evaluate_series_squareTimesOne :
    squareTimesOne.vars.contains "x" = true ∧ squareTimesOne.root.IsPolynomial ∧
      squareTimesOne.root.polynomial.degreeOf "x" ≤ 2 ∧
      ∃ g, (@series ℝ _ ⟨fun _ => "", fun _ => "", fun _ => ""⟩ .lenient squareTimesOne "x"
          ((-1 : ℤ) : ℝ) (2 : ℕ)).result = .ok g ∧
        squareTimesOne.evaluate (.single "x" 3) = .ok 9 ∧ g.evaluate (.single "x" 3) = .ok 9 := by
  have hx : squareTimesOne.vars.contains "x" = true := rfl
  have hf : squareTimesOne.root.IsPolynomial := ⟨⟨trivial, 2, rfl⟩, ⟨trivial, 0, rfl⟩⟩
  have hdegree : squareTimesOne.root.polynomial.degreeOf "x" ≤ 2 := by
    have hpolynomial : squareTimesOne.root.polynomial =
        MvPolynomial.X "x" ^ 2 * MvPolynomial.X "x" ^ 0 := by
      simp only [squareTimesOne, Expr.polynomial, Nat.floor_natCast]
    rw [hpolynomial, pow_zero, mul_one, MvPolynomial.degreeOf_X_self_pow]
  obtain ⟨g, hg, h⟩ := @evaluate_series_of_isPolynomial ⟨fun _ => "", fun _ => "", fun _ => ""⟩
    squareTimesOne "x" (-1) 2 hx hf hdegree
  have henv : ∀ y, y = "x" ∨ y ∈ squareTimesOne.root.names →
      ∃ r, Assignment.single "x" (3 : ℝ) y = some r := by
    intro y hy
    have hname : y = "x" := by simpa [squareTimesOne, Expr.names] using hy
    exact ⟨3, if_pos hname⟩
  obtain ⟨v, hv, hvalue⟩ := h (.single "x" 3) henv
  have hnine : v = 9 := by
    rw [← Expr.total_of_evaluate hv]
    simp [squareTimesOne, Expr.total, BinOp.real, Assignment.single]
    norm_num
  rw [hnine] at hv hvalue
  exact ⟨hx, hf, hdegree, g, hg, hv, hvalue⟩

end Formula

end Fluxion

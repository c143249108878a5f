import Fluxion.Proofs.Expr.Simplify
import Fluxion.Proofs.Formula.Factorial
import Fluxion.Proofs.Noted

/-!
# Fluxion.Proofs.Formula.Series

Taylor series, term by term.

A series is added up in a loop that holds a derivative and the sum of the terms so far.  What the
loop keeps (`Formula.SeriesInvariant`) is a condition on each of them, and one on the coefficients
in between.

* `Formula.SeriesInvariant.ends`: the induction on the number of terms;
* `Formula.ends_series_of`: a series is the simplified sum;
* `Formula.taylorSum`: what the sum is to be over the reals.
-/

namespace Fluxion.Formula

open Noted (Ends Returns)

/-! ## the loop -/

section

variable {α : Type} [Arith α] [Numeral α] {s : Strictness} {x : String} {center : α}

/-- What the loop of a series keeps: `D` holds of the derivative of an order with so many terms
after it, `C` of its simplified value at the center, and `S` of the sum of the terms below a power.
Failures on the way are of the kind `E`. -/
structure SeriesInvariant (s : Strictness) (x : String) (center : α)
    (D : Nat → Nat → Formula α → Prop) (C : Nat → Expr α → Prop)
    (S : Nat → Option (Expr α) → Prop) (E : CalculusError α → Prop) : Prop where
  value {power more : Nat} {f : Formula α} : D power more f →
    Ends (fun g => C power g.root) E ((f.atPoint x center).simplified s)
  next {power more : Nat} {f : Formula α} : D power (more + 1) f →
    Ends (D (power + 1) more) E ((f.withRoot (f.root.derivative x)).simplified s)
  skip {power : Nat} {c : Expr α} {terms : Option (Expr α)} : C power c →
    Term.nearZero c = true → S power terms → S (power + 1) terms
  term {power : Nat} {c : Expr α} {terms : Option (Expr α)} : C power c →
    ¬Term.nearZero c = true → S power terms →
    Ends (fun t => S (power + 1) (some (addTerm terms t))) E
      (.lift ((seriesTerm x center power c).mapError .fault) : Working α _ (Expr α))

variable {D : Nat → Nat → Formula α → Prop} {C : Nat → Expr α → Prop}
  {S : Nat → Option (Expr α) → Prop} {E : CalculusError α → Prop}

/-- From a power on: the sum with all terms that follow. -/
theorem SeriesInvariant.ends (h : SeriesInvariant s x center D C S E) {power more : Nat}
    {f : Formula α} {terms : Option (Expr α)} (hf : D power more f) (hterms : S power terms) :
    Ends (S (power + more + 1)) E (seriesFrom s x center power more f terms) := by
  induction more generalizing power f terms with
  | zero =>
      unfold seriesFrom
      refine (h.value hf).bind fun value hvalue => (Noted.ends_note _).bind fun _ _ => ?_
      dsimp only
      split
      · next hzero =>
        exact (Noted.ends_pure (h.skip hvalue hzero hterms)).bind fun _ hts => Noted.ends_pure hts
      · next hzero =>
        exact (h.term hvalue hzero hterms).bind fun _ hts => Noted.ends_pure hts
  | succ more ih =>
      have hpower : power + (more + 1) + 1 = power + 1 + more + 1 := by omega
      unfold seriesFrom
      rw [hpower]
      refine (h.value hf).bind fun value hvalue => (Noted.ends_note _).bind fun _ _ => ?_
      dsimp only
      split
      · next hzero =>
        refine (Noted.ends_pure (h.skip hvalue hzero hterms)).bind fun _ hts => ?_
        exact (h.next hf).bind fun _ hnext => ih hnext hts
      · next hzero =>
        refine (h.term hvalue hzero hterms).bind fun _ hts => ?_
        exact (h.next hf).bind fun _ hnext => ih hnext hts

/-- A series is the simplified sum of its terms. -/
theorem ends_series_of {Q : Formula α → Prop} {T : Option (Expr α) → Prop} {f : Formula α}
    {order : Nat} (hx : Ends (fun _ => True) E (.lift (f.requireVar x) : Working α _ Unit))
    (hterms : Ends T E (seriesFrom s x center 0 order f none))
    (hsum : ∀ terms, T terms →
      Ends Q E ((f.withRoot (terms.getD (.num Arith.zero))).simplified s)) :
    Ends Q E (f.series s x center order) :=
  hx.bind fun _ _ => hterms.bind hsum

end

/-! ## terms over the reals -/

variable {x : String} {center : ℝ} {env : Assignment ℝ}

/-- A variable of the table is one. -/
theorem returns_requireVar {f : Formula ℝ} (hx : f.vars.contains x = true) :
    Returns (fun _ => True) (.lift (f.requireVar x) : Working ℝ (CalculusError ℝ) Unit) := by
  rw [requireVar, if_pos hx]
  exact Noted.returns_of_ok rfl trivial

/-- The simplified formula is what its passes leave. -/
theorem simplified_result [Numeral ℝ] {s : Strictness} {f : Formula ℝ} {e : Expr ℝ} {settled : Bool}
    (h : (Expr.passes s maxPasses f.root).result = .ok (e, settled)) :
    (f.simplified s).result = .ok (f.withRoot e) :=
  congrArg (Except.mapError CalculusError.simplify) (simplify_result h)

theorem returns_simplified [Numeral ℝ] {s : Strictness} {f : Formula ℝ} {P : Expr ℝ × Bool → Prop}
    (h : Returns P (Expr.passes s maxPasses f.root)) :
    Returns (fun g => ∃ settled, P (g.root, settled)) (f.simplified s) := by
  obtain ⟨⟨e, settled⟩, he, hP⟩ := h.exists_ok
  exact Noted.returns_of_ok (simplified_result he) ⟨settled, hP⟩

/-- The terms of the Taylor polynomial of a function that are below a power. -/
noncomputable def taylorSum (F : ℝ → ℝ) (c : ℝ) (power : ℕ) (r : ℝ) : ℝ :=
  ∑ i ∈ Finset.range power, iteratedDeriv i F c / i.factorial * (r - c) ^ i

theorem taylorSum_succ (F : ℝ → ℝ) (c : ℝ) (power : ℕ) (r : ℝ) :
    taylorSum F c (power + 1) r =
      taylorSum F c power r + iteratedDeriv power F c / power.factorial * (r - c) ^ power :=
  Finset.sum_range_succ _ _

/-- A derivative that is zero at the center has no term. -/
theorem taylorSum_succ_of_zero {F : ℝ → ℝ} {c : ℝ} {power : ℕ} (h : iteratedDeriv power F c = 0)
    (r : ℝ) : taylorSum F c (power + 1) r = taylorSum F c power r := by
  rw [taylorSum_succ, h, zero_div, zero_mul, add_zero]

/-- The first term is the value at the center. -/
theorem taylorSum_one (F : ℝ → ℝ) (c r : ℝ) :
    taylorSum F c 1 r = taylorSum F c 0 r + iteratedDeriv 0 F c := by
  rw [taylorSum_succ, Nat.factorial_zero, Nat.cast_one, div_one, pow_zero, mul_one]

/-- A term of a positive power. -/
theorem seriesTerm_of_pos {power : ℕ} (hpower : 0 < power) (c : Expr ℝ) :
    seriesTerm x center power c = .ok (.bin .div (.bin .mul c
      (.bin .pow (distance x center) (.num (power : ℝ)))) (.num (power.factorial : ℝ))) := by
  rw [seriesTerm, if_neg hpower.ne', factorial_eq]
  rfl

end Fluxion.Formula

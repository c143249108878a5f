import Fluxion.Proofs.Formula.Factorial
import Fluxion.Proofs.Formula.Lenient
import Fluxion.Proofs.Formula.Series
import Fluxion.Solution

/-!
# Fluxion.Proofs.Solution

How solving a problem fails.

Most failures are mistakes in the problem: its text is no formula, or a strict simplification comes
across a diagnostic.  Two are not: a number without a parity, which takes a number in the problem
that is not finite, and a factorial that is too large, which takes a Taylor series of an order above
`maxFactorial`.

* `CalculusError.Explained`: what a failure tells about the numbers and the order of a problem;
* `Formula.ends_series`, `Formula.ends_tangent`, `Problem.ends_solve`: the operations.
-/

namespace Fluxion

open Noted (Ends)

/-! ## calculus -/

/-- What a failure of calculus tells: a number without a parity takes a number that is not finite,
and a number that is too large takes an order above `maxFactorial`. -/
def CalculusError.Explained (finite : Prop) (order : Nat) : CalculusError Float → Prop
  | .simplify (.fault f) => (f = .infiniteInteger ∨ f = .undefinedInteger) ∧ ¬finite
  | .fault f => f = .integerTooLarge ∧ maxFactorial < order
  | .simplify (.degenerate _) | .unknownVariable _ _ | .negativeOrder _ => True

namespace Formula

variable {finite : Prop} {order : Nat} {s : Strictness} {x : String} {f : Formula Float}

theorem ends_requireVar : Ends (fun _ => True) (CalculusError.Explained finite order)
    (.lift (f.requireVar x) : Working Float _ Unit) := by
  refine Noted.ends_lift (fun _ _ => trivial) fun e he => ?_
  unfold requireVar at he
  split at he
  · cases he
  · exact Except.error.inj he ▸ trivial

/-- Simplification keeps numbers finite, and then does not fail for want of a parity. -/
theorem ends_simplified (hf : finite → f.root.AllFinite) :
    Ends (fun g => finite → g.root.AllFinite) (CalculusError.Explained finite order)
      (f.simplified s) := by
  refine Ends.mapError ⟨fun g hg hfinite => ?_, fun e he => ?_⟩
  · obtain ⟨settled, hpasses⟩ := passes_of_result hg
    exact Expr.hereditary_allFinite.passes (hf hfinite) hpasses
  · rw [simplify_eq_error] at he
    cases e with
    | degenerate d => trivial
    | fault f => exact ⟨Expr.fault_of_passes he, fun hfinite => Expr.passes_ne_fault (hf hfinite) he⟩

theorem allFinite_atPoint {v : Float} (hv : Arith.finite v = true) (hf : f.root.AllFinite) :
    (f.atPoint x v).root.AllFinite :=
  Expr.hereditary_allFinite.subst x (Expr.allFinite_literal hv) hf

theorem allFinite_distance {center : Float} (hcenter : Arith.finite center = true) :
    (distance x center).AllFinite := by
  unfold distance
  split
  · trivial
  · exact ⟨trivial, Expr.allFinite_literal hcenter⟩

section

variable {center : Float}

/-- A term of a series has finite numbers, unless the factorial is too large. -/
theorem ends_seriesTerm (hcenter : finite → Arith.finite center = true) {power : Nat}
    (hpower : power ≤ order) {c : Expr Float} (hc : finite → c.AllFinite) :
    Ends (fun t => finite → t.AllFinite) (CalculusError.Explained finite order)
      (.lift ((seriesTerm x center power c).mapError .fault) : Working Float _ (Expr Float)) := by
  by_cases hzero : power = 0
  · rw [seriesTerm, if_pos hzero]
    exact Noted.ends_pure hc
  · rw [seriesTerm, if_neg hzero]
    have hn := ofNat_spec power
    have hd := ofNat_spec (factorial power)
    cases hpow : (Arith.ofNat power : Except MathFault Float) with
    | error e =>
        rw [hpow] at hn
        refine Noted.ends_fail ⟨hn, Nat.lt_of_lt_of_le (Nat.lt_of_not_le fun hle => ?_) hpower⟩
        rw [ofNat_of_finite (finite_ofNat power (Nat.lt_succ_of_le hle))] at hpow
        cases hpow
    | ok n =>
        rw [hpow] at hn
        cases hfact : (Arith.ofNat (factorial power) : Except MathFault Float) with
        | error e =>
            rw [hfact] at hd
            refine Noted.ends_fail ⟨hd, Nat.lt_of_lt_of_le (Nat.lt_of_not_le fun hle => ?_) hpower⟩
            rw [ofNat_of_finite (finite_factorial hle)] at hfact
            cases hfact
        | ok d =>
            rw [hfact] at hd
            refine Noted.ends_pure fun hfinite => ?_
            exact ⟨⟨hc hfinite, allFinite_distance (hcenter hfinite), hn⟩, hd⟩

theorem allFinite_addTerm {terms : Option (Expr Float)} {t : Expr Float}
    (hterms : ∀ e, terms = some e → e.AllFinite) (ht : t.AllFinite) :
    (addTerm terms t).AllFinite := by
  cases terms with
  | none => exact ht
  | some e => exact ⟨hterms e rfl, ht⟩

/-- The loop of a series keeps the numbers of the derivatives and of the sum finite. -/
theorem seriesInvariant_allFinite (hcenter : finite → Arith.finite center = true) :
    SeriesInvariant s x center
      (fun power more f => power + more ≤ order ∧ (finite → f.root.AllFinite))
      (fun power c => power ≤ order ∧ (finite → c.AllFinite))
      (fun _ terms => finite → ∀ e, terms = some e → e.AllFinite)
      (CalculusError.Explained finite order) where
  value {power more f} hf := by
    obtain ⟨horder, hfinite⟩ := hf
    have hpower : power ≤ order := by omega
    exact (ends_simplified fun h => allFinite_atPoint (hcenter h) (hfinite h)).mono
      fun _ hvalue => ⟨hpower, hvalue⟩
  next {power more f} hf := by
    obtain ⟨horder, hfinite⟩ := hf
    have hpower : power + 1 + more ≤ order := by omega
    exact (ends_simplified fun h => Expr.hereditary_allFinite.derivative x (hfinite h)).mono
      fun _ hnext => ⟨hpower, hnext⟩
  skip _ _ hterms := hterms
  term hc _ hterms := (ends_seriesTerm hcenter hc.1 hc.2).mono fun _ ht h _ he =>
    Option.some.inj he ▸ allFinite_addTerm (hterms h) (ht h)

theorem ends_series (hcenter : finite → Arith.finite center = true)
    (hf : finite → f.root.AllFinite) :
    Ends (fun _ => True) (CalculusError.Explained finite order) (f.series s x center order) := by
  have hnone : finite → ∀ e : Expr Float, (none : Option (Expr Float)) = some e → e.AllFinite :=
    fun _ _ => nofun
  refine ends_series_of ends_requireVar
    ((seriesInvariant_allFinite hcenter).ends ⟨(Nat.zero_add order).le, hf⟩ hnone)
    fun terms hterms => ?_
  have hroot : finite → (terms.getD (.num Arith.zero)).AllFinite := by
    intro h
    cases terms with
    | none => exact Expr.readsAs_zero.finite
    | some e => exact hterms h e rfl
  exact (ends_simplified hroot).mono fun _ _ => trivial

theorem ends_tangent (hcenter : finite → Arith.finite center = true)
    (hf : finite → f.root.AllFinite) :
    Ends (fun _ => True) (CalculusError.Explained finite order) (f.tangent s x center) := by
  refine ends_requireVar.bind fun _ _ => ?_
  refine (ends_simplified fun h => allFinite_atPoint (hcenter h) (hf h)).bind fun value hvalue => ?_
  have hslope : finite → ((f.withRoot (f.root.derivative x)).atPoint x center).root.AllFinite :=
    fun h => allFinite_atPoint (hcenter h) (Expr.hereditary_allFinite.derivative x (hf h))
  refine (ends_simplified hslope).bind fun slope hslope => ?_
  refine (ends_simplified fun h => ?_).mono fun _ _ => trivial
  exact ⟨hvalue h, hslope h, allFinite_distance (hcenter h)⟩

end

end Formula

/-! ## problems -/

/-- The numbers of a problem that enter its solution are finite. -/
structure Problem.Finite (p : Problem Float) : Prop where
  seriesAt : Arith.finite p.seriesAt = true
  tangentAt : Arith.finite p.tangentAt = true
  function : ∀ f, p.formula.result = .ok f → f.root.AllFinite

/-- What a failure to solve a problem tells. -/
def SolveError.Explained (finite : Prop) (order : Nat) : SolveError Float → Prop
  | .calculus e => e.Explained finite order
  | .read _ | .foreignVariable _ _ | .names _ => True

/-- A function that has the variable of the problem is read as it is. -/
theorem Problem.formula_of_read {p : Problem Float} {f : Formula Float}
    (hf : Formula.read p.function = .ok f) (hx : p.var ∈ f.vars) : p.formula.result = .ok f := by
  obtain ⟨tokens, htokens, hf⟩ := bind_eq_ok.mp hf
  have htokens' := mapError_eq_ok.mp htokens
  have hcontains : f.vars.contains p.var = true := List.contains_iff_mem.mpr hx
  rw [Problem.formula, htokens', Noted.bind_result_of_ok rfl, Noted.bind_result_of_ok rfl, hf,
    Noted.bind_result_of_ok rfl]
  simp only [hcontains, Bool.not_true, Bool.and_false, Bool.false_eq_true, if_false]
  exact mapError_eq_ok.mpr (bind_eq_ok.mpr ⟨f.vars, Names.add_eq_self hcontains, rfl⟩)

/-- Reading the function of a problem fails for a mistake in its text. -/
theorem Problem.ends_formula (p : Problem Float) {finite : Prop} {order : Nat} :
    Ends (fun f => p.formula.result = .ok f) (SolveError.Explained finite order) p.formula := by
  refine ⟨fun _ h => h, ?_⟩
  have hlift : ∀ {δ γ : Type} {g : δ → SolveError Float} (r : Except δ γ),
      (∀ e, (g e).Explained finite order) →
      Ends (fun _ => True) (SolveError.Explained finite order)
        (.lift (r.mapError g) : Working Float _ γ) := by
    intro δ γ g r hg
    refine Noted.ends_lift (fun _ _ => trivial) fun e he => ?_
    cases r with
    | ok a => cases he
    | error e' => exact Except.error.inj he ▸ hg e'
  suffices h : Ends (fun _ => True) (SolveError.Explained finite order) p.formula from h.error
  have hnames : ∀ f : Formula Float, Ends (fun _ => True) (SolveError.Explained finite order)
      (.lift ((f.addVar p.var).mapError .names) : Working Float _ (Formula Float)) :=
    fun f => hlift (g := .names) _ fun _ => trivial
  refine (hlift (g := .read ∘ .lexical) _ fun _ => trivial).bind fun tokens _ =>
    (Noted.ends_note _).bind fun _ _ =>
    (hlift (g := .read) _ fun _ => trivial).bind fun f _ => ?_
  dsimp only
  split
  · exact (Noted.ends_fail (P := fun _ => True) trivial).bind fun _ _ => hnames f
  · exact hnames f

/-- **How solving a problem fails.**  If it fails for want of a parity, some number of the problem is
not finite; if it fails for a number that is too large, the order of the Taylor series is above
`maxFactorial`; any other failure is a mistake in the problem. -/
theorem Problem.ends_solve (p : Problem Float) (s : Strictness) :
    Ends (fun _ => True) (SolveError.Explained p.Finite p.seriesOrder) (p.solve s) := by
  have hcalculus : ∀ {γ : Type} {P : γ → Prop} {x : Working Float (CalculusError Float) γ},
      Ends P (CalculusError.Explained p.Finite p.seriesOrder) x →
      Ends P (SolveError.Explained p.Finite p.seriesOrder) (x.mapError .calculus) :=
    fun h => h.mapError (g := SolveError.calculus)
  refine p.ends_formula.bind fun f hf => (Noted.ends_note _).bind fun _ _ => ?_
  have hroot : p.Finite → f.root.AllFinite := fun h => h.function f hf
  have hderivative : Ends (fun g => p.Finite → g.root.AllFinite)
      (SolveError.Explained p.Finite p.seriesOrder)
      (.lift ((f.differentiate p.var).mapError .calculus) :
        Working Float (SolveError Float) (Formula Float)) := by
    refine Noted.ends_lift (fun g hg h => ?_) fun e he => ?_
    · rw [Formula.root_of_differentiate (mapError_eq_ok.mp hg)]
      exact Expr.hereditary_allFinite.derivative _ (hroot h)
    · unfold Formula.differentiate Formula.requireVar at he
      split at he
      · cases he
      · exact Except.error.inj he ▸ trivial
  refine hderivative.bind fun derivative hd => (hcalculus (Formula.ends_simplified hd)).bind
    fun _ _ => (hcalculus (Formula.ends_series (·.seriesAt) hroot)).bind fun _ _ =>
    (hcalculus (Formula.ends_tangent (·.tangentAt) hroot)).bind fun _ _ => Noted.ends_pure trivial

end Fluxion

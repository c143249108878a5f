import Fluxion.Proofs.Expr.Weight
import Fluxion.Proofs.Expr.Reading
import Fluxion.Proofs.Formula.Strictness

/-!
# Fluxion.Proofs.Expr.Fault

Where simplification fails.

Of all the rules only one can fail for another reason than a diagnostic: the rule for whole powers
of a negation asks for the parity of the exponent, and a number that is not finite has none.  So a
pass fails exactly if it comes to such a power (`Expr.ComesToEndless`), and passes over an expression
with finite numbers do not, since what they compute is finite again.

* `Expr.comesToEndless_of_fault`: a pass that fails, other than for a diagnostic;
* `Expr.pass_lenient_eq_error`, `Expr.passes_eq_error`: a lenient pass, and a run of passes;
* `Expr.passes_ne_fault`: finite numbers.
-/

namespace Fluxion

open Arith

/-! ## the parity of a number -/

namespace Binary64

open Float.Model Float.Model.UnpackedFloat

variable {v w d : Float} {f : MathFault}

/-- What is not finite is not near a number that is. -/
theorem not_near_of_not_finite (hv : finite v = false) (hw : finite w = true) :
    near v w = false := by
  have hsub : parts (v - w) =
      (Float.Model.pack (UnpackedFloat.sub Format.binary64 (parts v) (parts w))).unpack := rfl
  have hdiff : (UnpackedFloat.sub Format.binary64 (parts v) (parts w)) = parts v := by
    rw [finite_eq] at hv hw
    cases hu : parts v with
    | zero | finite => rw [hu] at hv; cases hv
    | notANumber => rfl
    | infinity s =>
        cases ht : parts w with
        | notANumber | infinity => rw [ht] at hw; cases hw
        | zero | finite => cases s <;> rfl
  rw [hdiff, unpack_pack (representable_parts v)] at hsub
  change closer tolerance v w = false
  rw [closer_eq, hsub]
  exact not_abs_lt_of_not_finite (Bool.eq_false_iff.mp hv) finite_tolerance

/-- A number without a parity is not finite: it is infinite, or no number at all. -/
theorem of_parity_eq_error (h : Arith.parity d v = .error f) :
    finite v = false ∧ (f = .infiniteInteger ∨ f = .undefinedInteger ∧ ¬Proper v) := by
  replace h : Binary64.parity d v = .error f := h
  unfold Binary64.parity at h
  split at h
  · next hnan =>
    have hparts : parts v = .notANumber := by
      change (parts v).isNaN = true at hnan
      cases hu : parts v with
      | notANumber => rfl
      | zero | finite | infinity => rw [hu] at hnan; cases hnan
    refine ⟨by rw [finite_eq, hparts]; rfl, .inr ⟨(Except.error.inj h).symm, fun hproper => ?_⟩⟩
    have hself := hproper.beq_self
    rw [beq_eq, hparts] at hself
    cases hself
  · split at h
    · next hinf =>
      refine ⟨Bool.eq_false_iff.mpr fun hv => ?_, .inl (Except.error.inj h).symm⟩
      rw [(not_isNaN_of_finite hv).2] at hinf
      cases hinf
    · split at h <;> cases h

/-- An infinite number has no parity. -/
theorem parity_of_not_finite (hproper : Proper v) (hv : finite v = false) :
    Arith.parity d v = .error .infiniteInteger := by
  have hself := hproper.beq_self
  rw [finite_eq] at hv
  rw [beq_eq] at hself
  cases hu : parts v with
  | zero | finite => rw [hu] at hv; cases hv
  | notANumber => rw [hu] at hself; cases hself
  | infinity s =>
      have hnan : v.isNaN = false := by
        change (parts v).isNaN = false
        rw [hu]
        rfl
      have hinf : v.isInf = true := by
        change (parts v).isInf = true
        rw [hu]
        rfl
      change Binary64.parity d v = _
      rw [Binary64.parity, hnan, hinf, if_neg Bool.false_ne_true, if_pos rfl]

end Binary64

open Binary64

namespace Expr

variable {s : Strictness}

/-! ## numbers that are kept -/

theorem allFinite_literal {v : Float} (h : finite v = true) :
    (Term.literal v : Expr Float).AllFinite := by
  unfold Term.literal
  split
  · exact h
  · exact finite_neg h

/-- The numbers of the rules are finite. -/
theorem hereditary_allFinite : Hereditary AllFinite where
  bin := Iff.rfl
  neg := Iff.rfl
  app := Iff.rfl
  zero := readsAs_zero.finite
  one := readsAs_one.finite
  two := readsAs_two.finite
  literal h := allFinite_literal (LawfulArith.finite_add_zero h)
  signed h _ := allFinite_literal (LawfulArith.finite_add_zero h)

/-! ## the rule -/

/-- A power without parity: its base is a negation, but not of a number, and its exponent is a
number that is not finite. -/
def EndlessPower (a b : Expr Float) : Prop :=
  ∃ u v, a = neg u ∧ Term.number? u = none ∧ b = num v ∧ finite v = false

theorem eq_num_of_view {α : Type} [Arith α] {b : Expr α} {v : α} (h : Term.view b = .number v) :
    b = num v := by
  cases b with
  | num w => rw [View.number.inj h]
  | var _ | bin _ _ _ | neg _ | app _ _ => cases h

section

variable {op : BinOp} {a b : Expr Float} {f : MathFault}

theorem fold_ne_fault {v w : Float} :
    (Term.fold s op a b v w).result ≠ .error (.fault f) := by
  unfold Term.fold
  repeat' split
  all_goals cases s <;> exact nofun

theorem identity_ne_fault : (Term.identity s op a b).result ≠ .error (.fault f) := by
  unfold Term.identity
  repeat' split
  all_goals cases s <;> exact nofun

/-- The rule for whole powers of a negation fails for want of a parity. -/
theorem parity_of_fault (h : (Term.negBase op a b).result = .error (.fault f)) :
    op = .pow ∧ ∃ u v, a = neg u ∧ b = num v ∧ Arith.parity Arith.tolerance v = .error f := by
  unfold Term.negBase at h
  split at h
  · next u v hu hv =>
    refine ⟨rfl, u, v, eq_neg_of_view hu, eq_num_of_view hv, ?_⟩
    split at h
    · cases h
    · cases h
    · cases h
    · next f' hf =>
      obtain rfl : f' = f := SimplifyError.fault.inj (Except.error.inj h)
      exact hf
  · cases h

/-- A rule that fails has come to a power without parity. -/
theorem endlessPower_of_fault (h : (Term.reduceBin s op a b).result = .error (.fault f)) :
    op = .pow ∧ EndlessPower a b ∧
      (f = .infiniteInteger ∨ f = .undefinedInteger ∧ ¬b.AllProper) := by
  unfold Term.reduceBin at h
  split at h
  · exact absurd h fold_ne_fault
  · next hnot =>
    split at h
    · cases h
    · rcases Noted.bind_eq_error h with h | ⟨o, -, h⟩
      · exact absurd h identity_ne_fault
      · split at h
        · cases h
        · split at h
          · cases h
          · obtain ⟨rfl, u, v, rfl, rfl, hparity⟩ := parity_of_fault h
            obtain ⟨hfinite, hf⟩ := of_parity_eq_error hparity
            have hnumber : Term.number? u = none := by
              cases hn : Term.number? u with
              | none => rfl
              | some w => exact absurd rfl (hnot (Arith.neg w) v (congrArg (Option.map _) hn))
            exact ⟨rfl, ⟨u, v, rfl, hnumber, rfl, hfinite⟩, hf⟩

/-- At a power without parity a rule fails: no other rule applies to it. -/
theorem EndlessPower.fault (h : EndlessPower a b) (hb : b.AllProper) :
    (Term.reduceBin s .pow a b).result = .error (.fault .infiniteInteger) := by
  obtain ⟨u, v, rfl, hu, rfl, hv⟩ := h
  have hleft : Term.literal? (neg u) = (none : Option Float) := congrArg (Option.map Arith.neg) hu
  have hzero : near v zero = false := not_near_of_not_finite hv readsAs_zero.finite
  have hone : near v one = false := not_near_of_not_finite hv readsAs_one.finite
  have hidentity : Term.identity s .pow (neg u) (num v) = return none := by
    change (if near v zero then _ else if near v one then _ else _) = _
    rw [hzero, hone]
    rfl
  have hcollapse : Term.collapse? .pow (neg u) (num v) = none := rfl
  have hparity : Arith.parity Arith.tolerance v = .error .infiniteInteger :=
    parity_of_not_finite hb hv
  have hbase : Term.negBase .pow (neg u) (num v) =
      (.fail (.fault .infiniteInteger) : Simplifying Float (Expr Float) (Option (Expr Float))) := by
    unfold Term.negBase
    dsimp only [Term.view, view]
    rw [hparity]
  unfold Term.reduceBin
  rw [hleft]
  dsimp only
  change ((Term.identity s .pow (neg u) (num v)) >>= _).result = _
  rw [hidentity, Noted.bind_result_of_ok rfl]
  dsimp only
  rw [hcollapse]
  dsimp only
  rw [hbase]
  rfl

end

/-! ## passes -/

/-- A pass comes to a power without parity: the operands have had their pass, and what is left of
them is such a power. -/
inductive ComesToEndless (s : Strictness) : Expr Float → Prop where
  | here {a b : Expr Float} {a' b' : Expr Float × Bool} (ha : (pass s a).result = .ok a')
      (hb : (pass s b).result = .ok b') (h : EndlessPower a'.1 b'.1) :
      ComesToEndless s (bin .pow a b)
  | left (op : BinOp) {a : Expr Float} (b : Expr Float) (h : ComesToEndless s a) :
      ComesToEndless s (bin op a b)
  | right (op : BinOp) {a b : Expr Float} {a' : Expr Float × Bool}
      (ha : (pass s a).result = .ok a') (h : ComesToEndless s b) : ComesToEndless s (bin op a b)
  | neg {a : Expr Float} (h : ComesToEndless s a) : ComesToEndless s (neg a)
  | app (f : Fn) {a : Expr Float} (h : ComesToEndless s a) : ComesToEndless s (app f a)

theorem reduceApp_ne_fault {fn : Fn} {a : Expr Float} {f : MathFault} :
    (Term.reduceApp s fn a).result ≠ .error (.fault f) := by
  unfold Term.reduceApp
  repeat' split
  all_goals cases s <;> exact nofun

/-- A pass that fails, other than for a diagnostic, has come to a power without parity. -/
theorem comesToEndless_of_fault {e : Expr Float} {f : MathFault}
    (h : (pass s e).result = .error (.fault f)) :
    e.ComesToEndless s ∧ (f = .infiniteInteger ∨ f = .undefinedInteger ∧ ¬e.AllProper) := by
  induction e with
  | num v => cases h
  | var x => cases h
  | bin op a b iha ihb =>
      rcases Noted.bind_eq_error h with h | ⟨a', ha, h⟩
      · obtain ⟨hends, hf⟩ := iha h
        exact ⟨.left op b hends, hf.imp_right fun hf => ⟨hf.1, fun he => hf.2 he.1⟩⟩
      · rcases Noted.bind_eq_error h with h | ⟨b', hb, h⟩
        · obtain ⟨hends, hf⟩ := ihb h
          exact ⟨.right op ha hends, hf.imp_right fun hf => ⟨hf.1, fun he => hf.2 he.2⟩⟩
        · rcases Noted.bind_eq_error h with h | ⟨o, -, h⟩
          · obtain ⟨rfl, hends, hf⟩ := endlessPower_of_fault h
            have hproper : (bin .pow a b).AllProper → b'.1.AllProper :=
              fun he => hereditary_allProper.pass he.2 hb
            exact ⟨.here ha hb hends, hf.imp_right fun hf => ⟨hf.1, hf.2 ∘ hproper⟩⟩
          · cases h
  | neg a ih =>
      rcases Noted.bind_eq_error h with h | ⟨a', -, h⟩
      · obtain ⟨hends, hf⟩ := ih h
        exact ⟨.neg hends, hf⟩
      · cases h
  | app fn a ih =>
      rcases Noted.bind_eq_error h with h | ⟨a', -, h⟩
      · obtain ⟨hends, hf⟩ := ih h
        exact ⟨.app fn hends, hf⟩
      · rcases Noted.bind_eq_error h with h | ⟨o, -, h⟩
        · exact absurd h reduceApp_ne_fault
        · cases h

/-- A pass that comes to a power without parity fails. -/
theorem ComesToEndless.fault {e : Expr Float} (h : e.ComesToEndless s) (he : e.AllProper) :
    (pass s e).result = .error (.fault .infiniteInteger) := by
  induction h with
  | here ha hb hends =>
      rw [pass, Noted.bind_result_of_ok ha, Noted.bind_result_of_ok hb]
      exact Noted.bind_result_of_error (hends.fault (hereditary_allProper.pass he.2 hb)) _
  | left op b _ ih => exact Noted.bind_result_of_error (ih he.1) _
  | right op ha _ ih =>
      rw [pass, Noted.bind_result_of_ok ha]
      exact Noted.bind_result_of_error (ih he.2) _
  | neg _ ih => exact Noted.bind_result_of_error (ih he) _
  | app f _ ih => exact Noted.bind_result_of_error (ih he) _

/-- A lenient pass only fails at a power without parity. -/
theorem pass_lenient_eq_error {e : Expr Float} (he : e.AllProper)
    {err : SimplifyError Float (Expr Float)} :
    (pass .lenient e).result = .error err ↔
      err = .fault .infiniteInteger ∧ e.ComesToEndless .lenient := by
  constructor
  · intro h
    cases err with
    | degenerate d => exact absurd h ((stopsAt_pass e).tolerant d _ rfl)
    | fault f =>
        obtain ⟨hends, rfl | ⟨-, hnot⟩⟩ := comesToEndless_of_fault h
        · exact ⟨rfl, hends⟩
        · exact absurd he hnot
  · rintro ⟨rfl, hends⟩
    exact hends.fault he

/-! ## runs of passes -/

/-- A run fails exactly if after some passes that change something there is one that fails. -/
theorem passes_eq_error {α : Type} [Arith α] {n : Nat} {e : Expr α}
    {err : SimplifyError α (Expr α)} :
    (passes s n e).result = .error err ↔
      ∃ k < n, ∃ t, (passes s k e).result = .ok (t, false) ∧ (pass s t).result = .error err := by
  induction n generalizing e with
  | zero =>
      constructor
      · exact nofun
      · rintro ⟨k, hk, -⟩
        exact absurd hk (Nat.not_lt_zero k)
  | succ n ih =>
      constructor
      · intro h
        rcases Noted.bind_eq_error h with h | ⟨⟨e₁, changed⟩, he₁, h⟩
        · exact ⟨0, Nat.succ_pos n, e, rfl, h⟩
        · cases changed with
          | false => cases h
          | true =>
              obtain ⟨k, hk, t, ht, herr⟩ := ih.mp h
              refine ⟨k + 1, Nat.succ_lt_succ hk, t, ?_, herr⟩
              rw [passes, untilSettled, Noted.bind_result_of_ok he₁]
              exact ht
      · rintro ⟨k, hk, t, ht, herr⟩
        cases k with
        | zero =>
            obtain rfl : e = t := (Prod.mk.inj (Except.ok.inj ht)).1
            exact Noted.bind_result_of_error herr _
        | succ k =>
            rcases passes_succ ht with ⟨e₁, he₁, ht, -⟩ | ⟨-, hsettled, -⟩
            · rw [passes, untilSettled, Noted.bind_result_of_ok he₁]
              exact ih.mpr ⟨k, Nat.lt_of_succ_lt_succ hk, t, ht, herr⟩
            · cases hsettled

/-- Among finite numbers there is no power without parity. -/
theorem not_comesToEndless {e : Expr Float} (he : e.AllFinite) : ¬e.ComesToEndless s := by
  intro h
  induction h with
  | here ha hb hends =>
      obtain ⟨u, v, -, -, hv, hinfinite⟩ := hends
      have hb' := hereditary_allFinite.pass he.2 hb
      rw [hv] at hb'
      exact absurd hb' (Bool.eq_false_iff.mp hinfinite)
  | left op b _ ih => exact ih he.1
  | right op ha _ ih => exact ih he.2
  | neg _ ih => exact ih he
  | app f _ ih => exact ih he

/-- A run that fails, other than for a diagnostic, has come to a number without parity. -/
theorem fault_of_passes {n : Nat} {e : Expr Float} {f : MathFault}
    (h : (passes s n e).result = .error (.fault f)) :
    f = .infiniteInteger ∨ f = .undefinedInteger := by
  obtain ⟨k, -, t, -, h⟩ := passes_eq_error.mp h
  exact (comesToEndless_of_fault h).2.imp_right And.left

/-- Passes over an expression with finite numbers fail for diagnostics only. -/
theorem passes_ne_fault {n : Nat} {e : Expr Float} (he : e.AllFinite) {f : MathFault} :
    (passes s n e).result ≠ .error (.fault f) := by
  intro h
  obtain ⟨k, -, t, ht, h⟩ := passes_eq_error.mp h
  exact not_comesToEndless (hereditary_allFinite.passes he ht) (comesToEndless_of_fault h).1

end Expr

end Fluxion

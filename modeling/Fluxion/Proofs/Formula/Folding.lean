import Fluxion.Formula.Calculus
import Fluxion.Proofs.Expr.Value
import Fluxion.Proofs.Formula.Degenerate
import Fluxion.Proofs.Formula.Warnings
import Fluxion.Proofs.Number.SignedZero
import Fluxion.Proofs.Number.Tolerance

/-!
# Fluxion.Proofs.Formula.Folding

Folding, against evaluation.

An expression of numbers is simplified to its value in one pass.  On the way up every operand has
become a number, or the negation of one, that stands for its value (`Expr.Stands`); a node on such
operands is always folded, so none of the other rules comes to its turn, and what it is folded to
stands for its value again.  Values must be finite, and zero or not within the tolerance of zero,
since the negation of a number that is merely near zero is dropped.

* `Expr.stands_reduceBin`, `Expr.stands_reduceNeg`: what becomes of a node;
* `Expr.pass_numeric`, `Expr.passes_numeric`: a pass, and a run of passes;
* `Formula.simplify_numeric`: the same of double precision numbers.
-/

namespace Fluxion

open Arith

variable {α : Type}

/-- A finite number that is zero if it is near zero. -/
structure Arith.Clear [Arith α] (v : α) : Prop where
  finite : finite v = true
  isZero_of_near : near v zero = true → isZero v = true

namespace Expr

/-- Made of numbers by operations and negation. -/
def IsNumeric : Expr α → Prop
  | num _ => True
  | var _ | app _ _ => False
  | bin _ a b => a.IsNumeric ∧ b.IsNumeric
  | neg a => a.IsNumeric

theorem self_mem_subterms (e : Expr α) : e ∈ e.subterms := by
  cases e <;> simp [subterms]

variable [Arith α]

/-- Numbers, and negations of numbers that are not near zero, as they stand for values. -/
inductive Stands : Expr α → α → Prop where
  | number {w v : α} (hw : negative w = false) (hv : Arith.Alike w v) : Stands (num w) v
  | negation {w : α} (hw : negative w = false) (hnear : near w zero = false) :
      Stands (neg (num w)) (Arith.neg w)

theorem Stands.literal? {a : Expr α} {v : α} (h : Stands a v) :
    ∃ u, Term.literal? a = some u ∧ Arith.Alike u v := by
  cases h with
  | number hw hv => exact ⟨_, rfl, hv⟩
  | negation hw hnear => exact ⟨_, rfl, .refl _⟩

variable [SignedZero α] {s : Strictness} {a b : Expr α} {v w x : α}

theorem not_negative_of_isZero (h : isZero v = true) : negative v = false :=
  (LawfulArith.proper_of_nonneg (SignedZero.nonneg_of_isZero h)).not_negative

/-- The literal of a number stands for it, and for what it is alike. -/
theorem stands_literal (hv : Clear v) (hx : Arith.Alike x v) :
    Stands (Term.literal (add x zero)) v := by
  have halike : Arith.Alike (add x zero) v := (SignedZero.alike_add_zero x).trans hx
  unfold Term.literal
  by_cases hnonneg : nonneg (add x zero) = true
  · rw [if_pos hnonneg]
    exact .number (LawfulArith.proper_of_nonneg hnonneg).not_negative halike
  · rw [if_neg hnonneg]
    have hzero : isZero v = false := by
      rw [Bool.eq_false_iff, ← halike.isZero_eq]
      exact fun h => hnonneg (SignedZero.nonneg_of_isZero h)
    have heq := halike.eq hzero
    rw [heq] at hnonneg ⊢
    have hproper := LawfulArith.proper_neg hv.finite (Bool.eq_false_iff.mpr hnonneg)
    have hnear : near (Arith.neg v) zero = false := by
      rw [LawfulArith.near_neg_zero, Bool.eq_false_iff]
      exact fun h => Bool.eq_false_iff.mp hzero (hv.isZero_of_near h)
    have hstands := Stands.negation hproper.not_negative hnear
    rwa [SignedZero.neg_neg] at hstands

theorem stands_pass_num (hv : Clear v) :
    ∃ r c, pass s (num v) = ⟨[], .ok (r, c)⟩ ∧ Stands r v := by
  by_cases hneg : negative v = true
  · refine ⟨_, true, ?_, stands_literal hv (.refl v)⟩
    simp [pass, Term.reduceNum, hneg, settled]
  · refine ⟨num v, false, ?_, .number (Bool.eq_false_iff.mpr hneg) (.refl v)⟩
    simp [pass, Term.reduceNum, hneg, settled]

/-- A node on numbers is folded. -/
theorem stands_reduceBin {op : BinOp} (ha : Stands a v) (hb : Stands b w) (hw : Clear w)
    (hcompute : op.compute v w = .ok x) (hx : Clear x) :
    ∃ t, Term.reduceBin s op a b = ⟨[], .ok (some t)⟩ ∧ Stands t x := by
  obtain ⟨u, hu, huv⟩ := ha.literal?
  obtain ⟨u', hu', huw⟩ := hb.literal?
  obtain ⟨x', hx', halike⟩ := SignedZero.compute_alike hw.finite huv huw hcompute
  have hpower : ¬(op = .pow ∧ isZero u = true ∧ negative u' = true) := by
    rintro ⟨rfl, hzero, hneg⟩
    have hne : isZero w = false := by
      rw [Bool.eq_false_iff, ← huw.isZero_eq]
      intro h
      rw [not_negative_of_isZero h] at hneg
      cases hneg
    rw [huw.eq hne] at hneg
    exact SignedZero.pow_ne_ok (huv.isZero_eq ▸ hzero) hw.finite hneg hcompute
  have hfinite : finite x' = true := by
    rcases halike with rfl | ⟨h, -⟩
    · exact hx.finite
    · exact SignedZero.finite_of_isZero h
  refine ⟨_, ?_, stands_literal hx halike⟩
  simp only [Term.reduceBin, hu, hu', Term.fold, if_neg hpower, hx', hfinite, if_true]
  rfl

/-- The negation of a negation, of zero and of other numbers. -/
theorem stands_reduceNeg (ha : Stands a v) (hv : Clear v) {c : Bool} :
    ∃ r c', settled c (neg a) (Term.reduceNeg a) = (r, c') ∧ Stands r (Arith.neg v) := by
  cases ha with
  | @negation w hw hnear =>
      refine ⟨num w, true, rfl, ?_⟩
      rw [SignedZero.neg_neg]
      exact .number hw (.refl w)
  | @number w _ hw halike =>
      by_cases hnear : near w zero = true
      · have hzero : isZero v = true := by
          rcases halike with rfl | ⟨-, h⟩
          · exact hv.isZero_of_near hnear
          · exact h
        refine ⟨num zero, true, ?_, ?_⟩
        · have hreduce : Term.reduceNeg (num w) = some (num zero) := if_pos hnear
          rw [hreduce]
          rfl
        · exact .number LawfulArith.proper_zero.not_negative
            (.inr ⟨LawfulArith.proper_zero.beq_self, SignedZero.isZero_neg hzero⟩)
      · have hzero : isZero v = false := by
          rw [Bool.eq_false_iff, ← halike.isZero_eq]
          exact fun h => hnear (SignedZero.near_of_isZero h)
        rw [halike.eq hzero] at hw hnear ⊢
        refine ⟨neg (num v), c, ?_, .negation hw (Bool.eq_false_iff.mpr hnear)⟩
        have hreduce : Term.reduceNeg (num v) = none := if_neg hnear
        rw [hreduce]
        rfl

/-- One pass over an expression of numbers gives its value and notes nothing. -/
theorem pass_numeric {env : Assignment α} {e : Expr α} (he : e.IsNumeric)
    (hvalue : e.evaluate env = .ok v)
    (hclear : ∀ t ∈ e.subterms, ∀ w, t.evaluate env = .ok w → Clear w) :
    ∃ r c, pass s e = ⟨[], .ok (r, c)⟩ ∧ Stands r v := by
  induction e generalizing v with
  | num u =>
      obtain rfl := Except.ok.inj hvalue
      exact stands_pass_num (hclear (num u) (by simp [subterms]) u rfl)
  | var x | app f a => exact he.elim
  | bin op a b iha ihb =>
      obtain ⟨u, w, hu, hw, hcompute⟩ := evaluate_bin_eq_ok.mp hvalue
      have hleft : ∀ t ∈ a.subterms, t ∈ (bin op a b).subterms := by simp +contextual [subterms]
      have hright : ∀ t ∈ b.subterms, t ∈ (bin op a b).subterms := by simp +contextual [subterms]
      obtain ⟨a', c, hpass, ha⟩ := iha he.1 hu fun t ht => hclear t (hleft t ht)
      obtain ⟨b', d, hpass', hb⟩ := ihb he.2 hw fun t ht => hclear t (hright t ht)
      obtain ⟨t, hreduce, ht⟩ := stands_reduceBin (s := s) ha hb
        (hclear b (hright b (self_mem_subterms b)) w hw) hcompute
        (hclear _ (self_mem_subterms _) v hvalue)
      refine ⟨t, true, ?_, ht⟩
      simp [pass, hpass, hpass', hreduce, settled, Noted.bind_eq, Noted.bind]
  | neg a ih =>
      obtain ⟨u, hu, rfl⟩ := evaluate_neg_eq_ok.mp hvalue
      have harg : ∀ t ∈ a.subterms, t ∈ (neg a).subterms := by simp +contextual [subterms]
      obtain ⟨a', c, hpass, ha⟩ := ih he hu fun t ht => hclear t (harg t ht)
      obtain ⟨r, c', hsettled, hr⟩ :=
        stands_reduceNeg ha (hclear a (harg a (self_mem_subterms a)) u hu) (c := c)
      refine ⟨r, c', ?_, hr⟩
      simp [pass, hpass, hsettled, Noted.bind_eq, Noted.bind]

omit [SignedZero α] in
/-- What stands for a value stays as it is. -/
theorem Stands.pass {r : Expr α} (h : Stands r v) : Expr.pass s r = ⟨[], .ok (r, false)⟩ := by
  cases h with
  | number hw hv => simp [Expr.pass, Term.reduceNum, hw, settled]
  | @negation w hw hnear =>
      have hreduce : Term.reduceNeg (num w) = none := if_neg (Bool.eq_false_iff.mp hnear)
      simp [Expr.pass, Term.reduceNum, hw, settled, hreduce, Noted.bind_eq, Noted.bind]

/-- Passes over an expression of numbers end with its value. -/
theorem passes_numeric {n : Nat} {env : Assignment α} {e : Expr α} (he : e.IsNumeric)
    (hvalue : e.evaluate env = .ok v)
    (hclear : ∀ t ∈ e.subterms, ∀ w, t.evaluate env = .ok w → Clear w) :
    ∃ r, passes s (n + 2) e = ⟨[], .ok (r, true)⟩ ∧ Stands r v := by
  obtain ⟨r, c, hpass, hr⟩ := pass_numeric (s := s) he hvalue hclear
  refine ⟨r, ?_, hr⟩
  cases c <;> simp [passes, untilSettled, hpass, hr.pass, Noted.bind_eq, Noted.bind]

end Expr

/-! ## double precision numbers -/

open Binary64

theorem Binary64.le_of_not_negative {v : Float} (hv : finite v = true) (h : negative v = false) :
    0 ≤ v := by
  have hvalue : ¬value v < 0 := fun hlt => Bool.eq_false_iff.mp h ((negative_iff hv).mpr hlt)
  exact of_decide_eq_true ((nonneg_iff hv).mpr (not_lt.mp hvalue))

/-- The negation of a number above zero is below zero, and the number is its magnitude. -/
theorem Binary64.neg_lt_and_abs_neg {w : Float} (hfinite : finite (-w) = true)
    (hw : negative w = false) (hnear : near w zero = false) : -w < 0 ∧ (-w).abs = w := by
  have hparts := parts_neg w
  rw [negative_eq] at hw
  rw [finite_eq, hparts] at hfinite
  cases h : parts w with
  | notANumber | infinity s =>
      rw [h] at hfinite
      cases hfinite
  | zero s =>
      rw [near_of_isZero (isZero_iff_parts.mpr ⟨s, h⟩)] at hnear
      cases hnear
  | finite s m e hm =>
      rw [h] at hw hparts
      cases s with
      | negative => cases hw
      | positive =>
          constructor
          · have hneg : negative (-w) = true := by
              rw [negative_eq, hparts]
              rfl
            exact of_decide_eq_true hneg
          · apply parts_injective
            rw [parts_abs, hparts, h]
            rfl

/-- What stands for a value that is below zero, or that is not. -/
theorem Expr.Stands.eq_literal {power : Float → Float → Float} {r : Expr (Powered power)}
    {v : Float} (h : Stands r v) (hv : finite v = true) :
    (v < 0 ∧ r = .neg (.num v.abs)) ∨
      (0 ≤ v ∧ ∃ w : Float, r = .num w ∧ (w = v ∨ w == 0 ∧ v == 0)) := by
  cases h with
  | @number w _ hw halike =>
      refine .inr ⟨?_, w, rfl, halike⟩
      rcases halike with rfl | ⟨-, hzero⟩
      · exact le_of_not_negative hv hw
      · exact of_decide_eq_true (nonneg_of_isZero (v := v) hzero)
  | @negation w hw hnear =>
      obtain ⟨hlt, habs⟩ := neg_lt_and_abs_neg hv hw hnear
      exact .inl ⟨hlt, congrArg (fun u => Expr.neg (.num u)) habs.symm⟩

/-- What is zero or at least the tolerance in magnitude is not merely near zero. -/
theorem Binary64.clear_of_abs {power : Float → Float → Float} {w : Float} (hfinite : w.isFinite)
    (h : w == 0 ∨ Binary64.tolerance ≤ w.abs) : Clear (α := Powered power) w where
  finite := hfinite
  isZero_of_near hnear := by
    rcases h with hzero | hle
    · exact hzero
    · have hle' : value Binary64.tolerance ≤ value w.abs :=
        (parts_le_iff finite_tolerance (finite_abs hfinite)).mp (decide_eq_true_iff.mp hle)
      have hlt : (parts w.abs).lt (parts tolerance) = true := by
        rw [parts_abs]
        exact (near_zero_eq w).symm.trans hnear
      exact absurd ((parts_lt_iff (finite_abs hfinite) finite_tolerance).mp hlt) hle'.not_gt

namespace Formula

/-- **Folding is evaluation.**  An expression of numbers, operations and negations that has a value,
and in which all values are finite and either zero or at least the tolerance in magnitude, is
simplified to its value without a note: to the negation of its magnitude if it is below zero, and
to the number otherwise, which is the value up to the sign of zero.  Of the machine's powers only
the values at zero are relied on. -/
theorem simplify_numeric {power : Float → Float → Float} (hpower : PowerAtZero power)
    (s : Strictness) {f : Formula (Powered power)} {env : Assignment (Powered power)} {v : Float}
    (hnumeric : f.root.IsNumeric) (hvalue : f.evaluate env = .ok v)
    (hclear : ∀ t ∈ f.root.subterms, ∀ w : Float, t.evaluate env = .ok w →
      w.isFinite ∧ (w == 0 ∨ Binary64.tolerance ≤ w.abs)) :
    ∃ r, f.simplify s = ⟨[], .ok (f.withRoot r)⟩ ∧
      ((v < 0 ∧ r = .neg (.num v.abs)) ∨
        (0 ≤ v ∧ ∃ w : Float, r = .num w ∧ (w = v ∨ w == 0 ∧ v == 0))) := by
  have := signedZero hpower
  obtain ⟨r, hpasses, hr⟩ := Expr.passes_numeric (s := s) (n := 62) hnumeric hvalue
    fun t ht w hw => (hclear t ht w hw).elim clear_of_abs
  refine ⟨r, ?_, hr.eq_literal (hclear _ (Expr.self_mem_subterms _) v hvalue).1⟩
  have hmax : maxPasses = 62 + 2 := rfl
  rw [simplify, hmax, hpasses]
  rfl

/-- `(-3) ^ 2 / -2 + (-0) ^ 4` is simplified to the negation of four and a half. -/
theorem simplify_numeric_quotient :
    let env : Assignment (Powered squaring) := fun _ => none
    let square : Expr (Powered squaring) := .bin .pow (.neg (.num (3 : Float))) (.num (2 : Float))
    let zero : Expr (Powered squaring) := .bin .pow (.neg (.num (0 : Float))) (.num (4 : Float))
    let f : Formula (Powered squaring) :=
      ⟨.bin .add (.bin .div square (.neg (.num (2 : Float)))) zero, []⟩
    PowerAtZero squaring ∧ f.root.IsNumeric ∧ f.evaluate env = .ok (-4.5 : Float) ∧
      (∀ t ∈ f.root.subterms, ∀ w : Float, t.evaluate env = .ok w →
        w.isFinite ∧ (w == 0 ∨ Binary64.tolerance ≤ w.abs)) ∧
      f.simplify .strict = ⟨[], .ok (f.withRoot (.neg (.num (4.5 : Float))))⟩ := by
  intro env square zero f
  have hnumeric : f.root.IsNumeric := by simp [f, square, zero, Expr.IsNumeric]
  have hvalue : f.evaluate env = .ok (-4.5 : Float) := by
    obtain ⟨w, hw, heq⟩ := exists_ok_of_any (r := f.evaluate env)
      (t := fun w : Float => decide (w = -4.5)) (by decide +kernel)
    exact hw.trans (congrArg Except.ok (of_decide_eq_true (p := (_ : Float) = _) heq))
  have hclear : ∀ t ∈ f.root.subterms, ∀ w : Float, t.evaluate env = .ok w →
      w.isFinite ∧ (w == 0 ∨ Binary64.tolerance ≤ w.abs) := by
    have hall : ∀ t ∈ f.root.subterms, (t.evaluate env).toOption.all
        fun w : Float => decide (w.isFinite ∧ (w == 0 ∨ Binary64.tolerance ≤ w.abs)) := by
      decide +kernel
    intro t ht w hw
    have h := hall t ht
    rw [hw] at h
    exact of_decide_eq_true h
  obtain ⟨r, hr, hliteral⟩ :=
    simplify_numeric powerAtZero_squaring .strict hnumeric hvalue hclear
  refine ⟨powerAtZero_squaring, hnumeric, hvalue, hclear, ?_⟩
  rcases hliteral with ⟨-, rfl⟩ | ⟨hle, -⟩
  · exact hr
  · exact absurd hle (by decide +kernel)

end Formula

end Fluxion

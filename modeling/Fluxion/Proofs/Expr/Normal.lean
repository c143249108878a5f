import Fluxion.Proofs.Expr.Fault

/-!
# Fluxion.Proofs.Expr.Normal

The expressions that simplification leaves alone.

The rules are tried in an order, and a rule may be kept from its turn by one before it: two numbers
only meet the rule for operations on numbers, and a division by zero none of the rules for neutral
operands.  `Expr.Normal` says without that order which expressions are in the form that the rules
lead to, node by node.

* `Expr.Normal`: normal expressions;
* `Expr.reduceBin_normal`, `Expr.reduceNeg_normal`, `Expr.reduceApp_normal`: where no rule applies;
* `Expr.pass_normal`: a pass changes nothing exactly if the expression is normal.
-/

namespace Fluxion

namespace Expr

open Binary64

/-! ## normal expressions -/

section

variable {α : Type} [Arith α]

/-- An operation on numbers that is not carried out: it has no value, or none that is finite, or is
a negative power of zero. -/
def DegenerateFold (op : BinOp) (v w : α) : Prop :=
  (op = .pow ∧ Arith.isZero v = true ∧ Arith.negative w = true) ∨
    ∀ r, op.compute v w = .ok r → Arith.finite r = false

/-- No operand is neutral or absorbing.  A division by zero is left alone, whatever is divided, and
so is zero to the power of a negation. -/
@[mk_iff]
structure NoNeutral (op : BinOp) (a b : Expr α) : Prop where
  sum : op = .add ∨ op = .sub ∨ op = .mul → Term.nearZero a = false ∧ Term.nearZero b = false
  quotient : op = .div → Term.nearZero a = true → Term.nearZero b = true
  power : op = .pow → Term.nearZero b = false ∧ (Term.nearZero a = true → Term.isNeg b = true)
  /-- no factor and no base is one -/
  left : op = .mul ∨ op = .pow → Term.nearOne a = false
  /-- no factor, no divisor and no exponent is one -/
  right : op = .mul ∨ op = .div ∨ op = .pow → Term.nearOne b = false

/-- A binary node that is in normal form if its operands are, when they are not two numbers. -/
structure NormalNode (op : BinOp) (a b : Expr α) : Prop where
  signs : op ≠ .pow → Term.isNeg a = false ∧ Term.isNeg b = false
  operands : NoNeutral op a b
  apart : op ≠ .pow → a.same b = false
  /-- a negation has no whole power -/
  base : op = .pow → Term.isNeg a = true → ∀ n p, b = num n →
    Arith.parity Arith.tolerance n ≠ .ok (some p)

/-- A function that is in normal form if its operand is. -/
@[mk_iff]
structure NormalApp (f : Fn) (a : Expr α) : Prop where
  zero : f ∈ [.sin, .tan, .arcsin, .arctan, .sqrt, .cos] → Term.nearZero a = false
  one : f ∈ [.ln, .sqrt] → Term.nearOne a = false
  sign : f ∈ [.cos, .sin, .tan, .cot, .arcsin, .arctan] → Term.isNeg a = false

/-- A binary node that is in normal form if its operands are. -/
def NormalBin (op : BinOp) (a b : Expr α) : Prop :=
  match Term.literal? a, Term.literal? b with
  | some v, some w => DegenerateFold op v w
  | _, _ => NormalNode op a b

/-- On two literals a normal operation is one that cannot be folded. -/
theorem normalBin_of_literals {op : BinOp} {a b : Expr α} {v w : α}
    (ha : Term.literal? a = some v) (hb : Term.literal? b = some w) :
    NormalBin op a b ↔ DegenerateFold op v w := by
  rw [NormalBin, ha, hb]

/-- On other operands a normal operation is one to which no rule applies. -/
theorem normalBin_of_not_literals {op : BinOp} {a b : Expr α}
    (h : ∀ v w, Term.literal? a = some v → Term.literal? b = some w → False) :
    NormalBin op a b ↔ NormalNode op a b := by
  unfold NormalBin
  split
  case h_1 v w ha hb => exact (h v w ha hb).elim
  case h_2 => rfl

/-- Expressions in normal form. -/
def Normal : Expr α → Prop
  | num v => Arith.negative v = false
  | var _ => True
  | bin op a b => a.Normal ∧ b.Normal ∧ NormalBin op a b
  | neg a => a.Normal ∧ Term.isNeg a = false ∧ Term.nearZero a = false
  | app f a => a.Normal ∧ NormalApp f a

/-- A normal expression has no number below zero. -/
theorem Normal.noNegative {e : Expr α} (h : e.Normal) : e.NoNegative := by
  induction e with
  | num v => exact h
  | var x => trivial
  | bin op a b iha ihb => exact ⟨iha h.1, ihb h.2.1⟩
  | neg a ih => exact ih h.1
  | app f a ih => exact ih h.1

/-! ## rules -/

variable {op : BinOp} {a b : Expr α} {o : Option (Expr α)}

omit [Arith α] in
@[simp] theorem report_lenient_result {β γ : Type} (d : Diagnostic α β)
    (x : Simplifying α β γ) : (Strictness.lenient.report d >>= fun _ => x).result = x.result :=
  Noted.bind_result_of_ok rfl _

/-- Only a degenerate operation on numbers is not folded. -/
theorem fold_eq_none_iff {v w : α} :
    (Term.fold .lenient op a b v w).result = .ok none ↔ DegenerateFold op v w := by
  unfold Term.fold DegenerateFold
  split
  case isTrue h => exact iff_of_true rfl (.inl h)
  case isFalse h =>
    rw [or_iff_right h]
    cases hr : op.compute v w with
    | error f => cases f <;> exact iff_of_true rfl nofun
    | ok r =>
      cases hfinite : Arith.finite r with
      | true => simp [hfinite]
      | false => simp [hfinite]

/-- No sign is hoisted exactly if no operand has one, or from a power. -/
theorem hoistNeg_eq_none_iff :
    Term.hoistNeg? op a b = none ↔
      (op ≠ .pow → Term.isNeg a = false ∧ Term.isNeg b = false) := by
  unfold Term.hoistNeg? Term.isNeg
  cases op <;> cases Term.view a <;> cases Term.view b <;> simp

/-- Nothing collapses exactly if the operands differ, or in a power. -/
theorem collapse_eq_none_iff :
    Term.collapse? op a b = none ↔ (op ≠ .pow → a.same b = false) := by
  have hsame : Term.same a b = a.same b := rfl
  unfold Term.collapse?
  rw [hsame]
  cases a.same b <;> cases op <;> simp

/-- The base of a power keeps its sign exactly if the exponent is not a whole number. -/
theorem negBase_normal (h : (Term.negBase op a b).result = .ok o) :
    o = none ↔ (op = .pow → Term.isNeg a = true → ∀ n p, b = num n →
      Arith.parity Arith.tolerance n ≠ .ok (some p)) := by
  unfold Term.negBase at h
  split at h
  case h_1 x n hx hn =>
    obtain rfl := eq_neg_of_view hx
    obtain rfl := eq_num_of_view hn
    split at h
    · next hp =>
      cases h
      refine iff_of_true rfl ?_
      rintro - - _ p ⟨⟩
      simp [hp]
    · next hp =>
      cases h
      exact iff_of_false nofun fun hbase => hbase rfl rfl n .even rfl hp
    · next hp =>
      cases h
      exact iff_of_false nofun fun hbase => hbase rfl rfl n .odd rfl hp
    · cases h
  case h_2 hother =>
    obtain rfl : o = none := (Except.ok.inj h).symm
    refine iff_of_true rfl ?_
    rintro rfl hneg n p rfl
    unfold Term.isNeg at hneg
    cases hview : Term.view a with
    | negation x => exact absurd rfl (hother x n rfl hview)
    | number v => simp [hview] at hneg
    | other => simp [hview] at hneg

end

variable {op : BinOp} {a b : Expr Float} {o : Option (Expr Float)}

/-- A number that is near a finite one has a value near that of the other one. -/
theorem abs_value_sub_lt {v w : Float} (hw : Arith.finite w = true)
    (h : Arith.near v w = true) : |value v - value w| < value tolerance := by
  have hv : Arith.finite v = true := by
    by_contra hv
    rw [not_near_of_not_finite (Bool.eq_false_iff.mpr hv) hw] at h
    cases h
  by_contra hle
  have hfar : closer tolerance v w = false :=
    not_closer_of_le finite_tolerance hv hw (not_lt.mp hle)
  exact Bool.false_ne_true (hfar.symm.trans h)

/-- No number is near zero and near one. -/
theorem not_near_one {v : Float} (h : Arith.near v Arith.zero = true) :
    Arith.near v Arith.one = false := by
  refine Bool.eq_false_iff.mpr fun hone => ?_
  have hzero : |value v - value 0| < value tolerance := abs_value_sub_lt finite_zero h
  have hone : |value v - value 1| < value tolerance := abs_value_sub_lt rfl hone
  have hle := value_tolerance.2
  rw [value_zero, abs_lt] at hzero
  rw [value_one, abs_lt] at hone
  linarith

/-- What is near zero is not near one. -/
theorem nearOne_of_nearZero (h : Term.nearZero a = true) : Term.nearOne a = false := by
  unfold Term.nearZero Term.isNear at h
  unfold Term.nearOne Term.isNear
  cases hview : Term.view a with
  | number v =>
    rw [hview] at h
    exact not_near_one h
  | negation x => rfl
  | other => rfl

/-- What is near a number is not a negation. -/
theorem isNeg_of_isNear {w : Float} (h : Term.isNear w a = true) : Term.isNeg a = false := by
  cases a with
  | num v => rfl
  | var _ | bin _ _ _ | neg _ | app _ _ => cases h

/-- No operand is dropped exactly if none is neutral. -/
theorem identity_eq_none_iff :
    (Term.identity .lenient op a b).result = .ok none ↔ NoNeutral op a b := by
  have hb := nearOne_of_nearZero (a := b)
  rw [noNeutral_iff]
  unfold Term.identity
  revert hb
  cases op <;> cases Term.nearZero a <;> cases Term.nearZero b <;> cases Term.nearOne a <;>
    cases Term.nearOne b <;> cases Term.isNeg b <;> simp

/-- No rule applies to an operation exactly if it is normal. -/
theorem reduceBin_normal (h : (Term.reduceBin .lenient op a b).result = .ok o) :
    o = none ↔ NormalBin op a b := by
  unfold Term.reduceBin at h
  split at h
  case h_1 v w ha hb =>
    rw [normalBin_of_literals ha hb, ← fold_eq_none_iff (a := a) (b := b), h, Except.ok.injEq]
  case h_2 hliterals =>
    rw [normalBin_of_not_literals hliterals]
    -- the rules are tried one after the other, so each of them is without result if the node stays
    cases hhoist : Term.hoistNeg? op a b with
    | some t =>
      rw [hhoist] at h
      cases h
      refine iff_of_false nofun fun hn => ?_
      rw [hoistNeg_eq_none_iff.mpr hn.signs] at hhoist
      cases hhoist
    | none =>
      rw [hhoist] at h
      obtain ⟨i, hi, h, -⟩ := Noted.bind_ok h
      cases i with
      | some t =>
        cases h
        refine iff_of_false nofun fun hn => ?_
        rw [identity_eq_none_iff.mpr hn.operands] at hi
        cases hi
      | none =>
        cases hcollapse : Term.collapse? op a b with
        | some t =>
          rw [hcollapse] at h
          cases h
          refine iff_of_false nofun fun hn => ?_
          rw [collapse_eq_none_iff.mpr hn.apart] at hcollapse
          cases hcollapse
        | none =>
          rw [hcollapse] at h
          exact (negBase_normal h).trans ⟨fun hbase => ⟨hoistNeg_eq_none_iff.mp hhoist,
            identity_eq_none_iff.mp hi, collapse_eq_none_iff.mp hcollapse, hbase⟩, (·.base)⟩

/-- No rule applies to a negation exactly if there is no other below it, and no zero. -/
theorem reduceNeg_eq_none_iff :
    Term.reduceNeg a = none ↔ Term.isNeg a = false ∧ Term.nearZero a = false := by
  unfold Term.reduceNeg Term.isNeg
  cases Term.view a <;> simp

/-- No rule applies to a function exactly if it is normal. -/
theorem reduceApp_eq_none_iff {f : Fn} :
    (Term.reduceApp .lenient f a).result = .ok none ↔ NormalApp f a := by
  have hzero := isNeg_of_isNear (a := a) (w := Arith.zero)
  have hone := isNeg_of_isNear (a := a) (w := Arith.one)
  have hapart := nearOne_of_nearZero (a := a)
  rw [normalApp_iff]
  unfold Term.reduceApp
  unfold Term.isNeg at hzero hone ⊢
  change Term.nearZero a = true → _ at hzero
  change Term.nearOne a = true → _ at hone
  revert hzero hone hapart
  cases Term.nearZero a <;> cases Term.nearOne a <;> cases Term.view a <;> cases f <;>
    simp [Term.zeroAtZero, Term.isOdd]

/-! ## passes -/

/-- Nothing has changed exactly if no rule applied, here or below. -/
theorem settled_snd_eq_false_iff {below : Bool} {e : Expr Float} :
    (settled below e o).2 = false ↔ o = none ∧ below = false := by
  cases o <;> simp [settled]

/-- A pass changes nothing exactly if the expression is normal. -/
theorem pass_normal {e e' : Expr Float} {changed : Bool}
    (h : (pass .lenient e).result = .ok (e', changed)) : changed = false ↔ e.Normal := by
  change (e', changed).2 = false ↔ e.Normal
  induction e generalizing e' changed with
  | num v =>
    rw [← Except.ok.inj h, settled_snd_eq_false_iff]
    simp [Term.reduceNum, Normal]
  | var x =>
    rw [← Except.ok.inj h]
    exact iff_of_true rfl trivial
  | bin op a b iha ihb =>
    obtain ⟨⟨a', ca⟩, ⟨b', cb⟩, o, ha, hb, ho, hsettled, -⟩ := pass_bin_ok h
    have hna : ca = false ↔ a.Normal := iha ha
    have hnb : cb = false ↔ b.Normal := ihb hb
    rw [← hsettled, settled_snd_eq_false_iff, Bool.or_eq_false_iff, Normal, ← hna, ← hnb]
    -- where nothing changed below, the rules are tried on the operands themselves
    have hrule : ca = false → cb = false → (o = none ↔ NormalBin op a b) := by
      rintro rfl rfl
      rw [eq_of_unchanged ha, eq_of_unchanged hb] at ho
      exact reduceBin_normal ho
    constructor
    · rintro ⟨hnone, hca, hcb⟩
      exact ⟨hca, hcb, (hrule hca hcb).mp hnone⟩
    · rintro ⟨hca, hcb, hbin⟩
      exact ⟨(hrule hca hcb).mpr hbin, hca, hcb⟩
  | neg a ih =>
    obtain ⟨⟨a', ca⟩, ha, hsettled, -⟩ := pass_neg_ok h
    have hna : ca = false ↔ a.Normal := ih ha
    rw [← hsettled, settled_snd_eq_false_iff, Normal, ← hna, and_comm, and_congr_right_iff]
    rintro rfl
    rw [eq_of_unchanged ha]
    exact reduceNeg_eq_none_iff
  | app f a ih =>
    obtain ⟨⟨a', ca⟩, o, ha, ho, hsettled, -⟩ := pass_app_ok h
    have hna : ca = false ↔ a.Normal := ih ha
    rw [← hsettled, settled_snd_eq_false_iff, Normal, ← hna, and_comm, and_congr_right_iff]
    rintro rfl
    rw [eq_of_unchanged ha] at ho
    rw [← reduceApp_eq_none_iff, ho, Except.ok.injEq]

end Expr

end Fluxion

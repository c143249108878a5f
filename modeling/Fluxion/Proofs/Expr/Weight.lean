import Fluxion.Proofs.Expr.Hereditary
import Fluxion.Proofs.Number.Lawful

/-!
# Fluxion.Proofs.Expr.Weight

Simplification comes to an end.

Every rule makes an expression lighter (`Expr.weight`), whatever it is part of: operands count
twice, so that a negation which moves outwards is one less, and an operation that comes from
counting equal operands weighs less than the one it replaces.  No rule adds a node, either.  So a
pass that changes something makes an expression lighter, and as many passes as the expression is
heavy settle.

The rule for numbers below zero is left out: it makes a negation of a number.  The other rules bring
in no such number (`Expr.NoNegative`), and keep all numbers proper (`Expr.AllProper`).

* `Expr.shrinks_reduceBin`, `Expr.shrinks_reduceNeg`, `Expr.shrinks_reduceApp`: the rules;
* `Expr.NoNegative.settling_pass`: one pass;
* `Expr.NoNegative.passes_settle`: a long enough run of passes settles.
-/

namespace Fluxion

/-- The weight of an operation.  Counting equal operands turns a sum into a product and a product
into a power. -/
def BinOp.weight : BinOp → Nat
  | add | sub => 3
  | mul => 2
  | div | pow => 1

namespace Expr

variable {α : Type}

/-- The weight of an expression. -/
def weight : Expr α → Nat
  | num _ | var _ => 1
  | bin op a b => 2 * a.weight + 2 * b.weight + op.weight
  | neg a => a.weight + 1
  | app _ a => 2 * a.weight + 1

theorem weight_pos (e : Expr α) : 0 < e.weight := by
  cases e with
  | num _ | var _ | neg _ | app _ _ => simp [weight]
  | bin op a b => cases op <;> simp [weight, BinOp.weight]

variable [Arith α]

/-- All numbers of an expression are proper. -/
def AllProper : Expr α → Prop
  | num v => Arith.Proper v
  | var _ => True
  | bin _ a b => a.AllProper ∧ b.AllProper
  | neg a | app _ a => a.AllProper

/-- No number of an expression is below zero. -/
def NoNegative : Expr α → Prop
  | num v => Arith.negative v = false
  | var _ => True
  | bin _ a b => a.NoNegative ∧ b.NoNegative
  | neg a | app _ a => a.NoNegative

theorem AllProper.noNegative {e : Expr α} (h : e.AllProper) : e.NoNegative := by
  induction e with
  | num v => exact h.not_negative
  | var x => trivial
  | bin op a b iha ihb => exact ⟨iha h.1, ihb h.2⟩
  | neg a ih => exact ih h
  | app f a ih => exact ih h

/-- Proper numbers do not differ from themselves, and so neither does the expression. -/
theorem same_self {e : Expr α} (h : e.AllProper) : e.same e = true := by
  induction e with
  | num v => exact h.beq_self
  | var x => exact beq_self_eq_true x
  | bin op a b iha ihb => simp [same, iha h.1, ihb h.2]
  | neg a ih => exact ih h
  | app f a ih => simp [same, ih h]

/-- Expressions of the same shape have the same weight. -/
theorem weight_eq_of_same {a b : Expr α} (h : a.same b = true) : a.weight = b.weight := by
  induction a generalizing b with
  | num v => cases b <;> simp [same, weight] at h ⊢
  | var x => cases b <;> simp [same, weight] at h ⊢
  | bin op l r ihl ihr =>
      cases b <;> simp only [same, Bool.and_eq_true, beq_iff_eq, Bool.false_eq_true] at h
      obtain ⟨⟨rfl, hl⟩, hr⟩ := h
      rw [weight, weight, ihl hl, ihr hr]
  | neg a ih =>
      cases b <;> simp only [same, Bool.false_eq_true] at h
      rw [weight, weight, ih h]
  | app f a ih =>
      cases b <;> simp only [same, Bool.and_eq_true, Bool.false_eq_true] at h
      rw [weight, weight, ih h.2]

/-! ## numbers that are kept -/

theorem allProper_literal [LawfulArith α] {v : α} (hv : Arith.finite v = true) :
    (Term.literal v : Expr α).AllProper := by
  unfold Term.literal
  split
  · next h => exact LawfulArith.proper_of_nonneg h
  · next h => exact LawfulArith.proper_neg hv (Bool.eq_false_iff.mpr h)

/-- The numbers of the rules are proper. -/
theorem hereditary_allProper [LawfulArith α] : Hereditary (AllProper (α := α)) where
  bin := Iff.rfl
  neg := Iff.rfl
  app := Iff.rfl
  zero := LawfulArith.proper_zero
  one := LawfulArith.proper_one
  two := LawfulArith.proper_two
  literal h := allProper_literal (LawfulArith.finite_add_zero h)
  signed h hnegative := absurd hnegative (Bool.eq_false_iff.mp h.not_negative)

/-- The numbers of the rules are not below zero. -/
theorem hereditary_noNegative [LawfulArith α] : Hereditary (NoNegative (α := α)) where
  bin := Iff.rfl
  neg := Iff.rfl
  app := Iff.rfl
  zero := LawfulArith.proper_zero.not_negative
  one := LawfulArith.proper_one.not_negative
  two := LawfulArith.proper_two.not_negative
  literal h := (allProper_literal (LawfulArith.finite_add_zero h)).noNegative
  signed h hnegative := absurd hnegative (Bool.eq_false_iff.mp h)

/-! ## rules -/

/-- What a rule puts in the place of an expression is lighter, and has no more nodes. -/
structure Shrinks (e t : Expr α) : Prop where
  lt : t.weight < e.weight
  size_le : t.size ≤ e.size

variable {s : Strictness} {op : BinOp} {a b t : Expr α}

theorem shrinks_hoistNeg (h : Term.hoistNeg? op a b = some t) : Shrinks (bin op a b) t := by
  unfold Term.hoistNeg? at h
  split at h
  case h_13 => cases h
  case h_1 | h_2 | h_7 | h_8 =>
    rename_i x y hx hy
    obtain rfl := eq_neg_of_view hx
    obtain rfl := eq_neg_of_view hy
    obtain rfl := Option.some.inj h
    constructor <;> simp only [Term.neg, Term.bin, weight, size] <;> omega
  case h_3 | h_4 | h_11 | h_12 =>
    rename_i y hy _
    obtain rfl := eq_neg_of_view hy
    obtain rfl := Option.some.inj h
    constructor <;> simp only [Term.neg, Term.bin, weight, BinOp.weight, size] <;> omega
  case h_5 | h_6 | h_9 | h_10 =>
    rename_i x hx _
    obtain rfl := eq_neg_of_view hx
    obtain rfl := Option.some.inj h
    constructor <;> simp only [Term.neg, Term.bin, weight, BinOp.weight, size] <;> omega

theorem shrinks_negBase (h : (Term.negBase op a b).result = .ok (some t)) :
    Shrinks (bin op a b) t := by
  unfold Term.negBase at h
  split at h
  · next x n hx hn =>
    obtain rfl := eq_neg_of_view hx
    split at h
    · cases h
    · obtain rfl := Option.some.inj (Except.ok.inj h)
      constructor <;> simp only [Term.bin, weight, size] <;> omega
    · obtain rfl := Option.some.inj (Except.ok.inj h)
      constructor <;> simp only [Term.neg, Term.bin, weight, size] <;> omega
    · cases h
  · cases h

omit [Arith α] in
/-- Whatever has two nodes at most and weighs no more than two is less than a binary node. -/
theorem shrinks_small (a b : Expr α) (op : BinOp) (hweight : t.weight ≤ 2) (hsize : t.size ≤ 2) :
    Shrinks (bin op a b) t := by
  have := a.weight_pos
  have := b.weight_pos
  have := a.size_pos
  constructor <;> simp only [weight, size] <;> omega

omit [Arith α] in
theorem shrinks_num (v : α) (a b : Expr α) (op : BinOp) : Shrinks (bin op a b) (num v) :=
  shrinks_small a b op (Nat.le_succ 1) (Nat.le_succ 1)

/-- The term of a number is at most a negated number. -/
theorem shrinks_literal (v : α) (a b : Expr α) (op : BinOp) :
    Shrinks (bin op a b) (Term.literal v) := by
  unfold Term.literal
  split
  · exact shrinks_num v a b op
  · exact shrinks_small a b op le_rfl le_rfl

theorem shrinks_fold {v w : α} (h : (Term.fold s op a b v w).result = .ok (some t)) :
    Shrinks (bin op a b) t := by
  unfold Term.fold at h
  split at h
  · cases s <;> cases h
  · split at h
    · cases s <;> cases h
    · cases s <;> cases h
    · split at h
      · obtain rfl := Option.some.inj (Except.ok.inj h)
        exact shrinks_literal _ a b op
      · cases s <;> cases h

omit [Arith α] in
/-- An operand is less than the node. -/
theorem shrinks_left (a b : Expr α) (op : BinOp) : Shrinks (bin op a b) a := by
  have := b.weight_pos
  constructor <;> simp only [weight, size] <;> omega

omit [Arith α] in
theorem shrinks_right (a b : Expr α) (op : BinOp) : Shrinks (bin op a b) b := by
  have := a.weight_pos
  constructor <;> simp only [weight, size] <;> omega

theorem shrinks_identity (h : (Term.identity s op a b).result = .ok (some t)) :
    Shrinks (bin op a b) t := by
  have hzero := shrinks_num (Arith.zero : α) a b op
  have hone := shrinks_num (Arith.one : α) a b op
  have hleft := shrinks_left a b op
  have hright := shrinks_right a b op
  have hneg : Shrinks (bin op a b) (neg b) := by
    have := a.weight_pos
    have := b.weight_pos
    have := a.size_pos
    constructor <;> simp only [weight, size] <;> omega
  cases op with
  | div =>
      simp only [Term.identity] at h
      split at h
      · cases s <;> cases h
      · repeat' split at h
        all_goals cases h
        all_goals assumption
  | add | sub | mul | pow =>
      simp only [Term.identity] at h
      repeat' split at h
      all_goals cases h
      all_goals assumption

theorem shrinks_collapse (h : Term.collapse? op a b = some t) : Shrinks (bin op a b) t := by
  unfold Term.collapse? at h
  split at h
  · next hsame =>
    have hw := weight_eq_of_same hsame
    have := a.weight_pos
    have := b.size_pos
    cases op with
    | add =>
        obtain rfl := Option.some.inj h
        constructor <;> simp only [Term.bin, Term.num, weight, BinOp.weight, size] <;> omega
    | mul =>
        obtain rfl := Option.some.inj h
        constructor <;> simp only [Term.bin, Term.num, weight, BinOp.weight, size] <;> omega
    | sub =>
        obtain rfl := Option.some.inj h
        exact shrinks_num _ a b .sub
    | div =>
        obtain rfl := Option.some.inj h
        exact shrinks_num _ a b .div
    | pow => cases h
  · cases h

/-- Whatever a binary node is replaced by is less. -/
theorem shrinks_reduceBin (h : (Term.reduceBin s op a b).result = .ok (some t)) :
    Shrinks (bin op a b) t := by
  unfold Term.reduceBin at h
  split at h
  · exact shrinks_fold h
  · split at h
    · next hhoist =>
      obtain rfl := Option.some.inj (Except.ok.inj h)
      exact shrinks_hoistNeg hhoist
    · obtain ⟨o, ho, h, -⟩ := Noted.bind_ok h
      split at h
      · obtain rfl := Option.some.inj (Except.ok.inj h)
        exact shrinks_identity ho
      · split at h
        · next hcollapse =>
          obtain rfl := Option.some.inj (Except.ok.inj h)
          exact shrinks_collapse hcollapse
        · exact shrinks_negBase h

theorem shrinks_reduceNeg (h : Term.reduceNeg a = some t) : Shrinks (neg a) t := by
  unfold Term.reduceNeg at h
  split at h
  · next x hx =>
    obtain rfl := eq_neg_of_view hx
    obtain rfl := Option.some.inj h
    constructor <;> simp only [weight, size] <;> omega
  · split at h
    · obtain rfl := Option.some.inj h
      have := a.weight_pos
      constructor <;> simp only [Term.num, weight, size] <;> omega
    · cases h

theorem shrinks_reduceApp {f : Fn} (h : (Term.reduceApp s f a).result = .ok (some t)) :
    Shrinks (app f a) t := by
  have hnum : ∀ v : α, Shrinks (app f a) (num v) := by
    intro v
    have := a.weight_pos
    constructor <;> simp only [weight, size] <;> omega
  have hzero := hnum Arith.zero
  have hone := hnum Arith.one
  unfold Term.reduceApp at h
  split at h
  · split at h
    · cases h
      exact hzero
    · split at h
      · cases h
        exact hone
      · cases s <;> cases h
      · cases s <;> cases h
      · cases h
  · split at h
    · split at h
      · cases h
        exact hzero
      · cases h
        exact hone
      · cases h
    · split at h
      · next x hx =>
        obtain rfl := eq_neg_of_view hx
        split at h
        · cases h
          constructor <;> simp only [Term.app, weight, size] <;> omega
        · split at h
          · cases h
            constructor <;> simp only [Term.neg, Term.app, weight, size] <;> omega
          · cases h
      · cases h

/-! ## passes -/

/-- The outcome of a pass over an expression: lighter if something changed, with no more nodes. -/
structure Settling (e : Expr α) (p : Expr α × Bool) : Prop where
  le : p.1.weight + p.2.toNat ≤ e.weight
  size_le : p.1.size ≤ e.size

omit [Arith α] in
/-- A rule is tried on a node whose operands a pass has gone over. -/
theorem settling_settled {e e' : Expr α} {below : Bool} {o : Option (Expr α)}
    (he' : Settling e (e', below)) (ho : ∀ t, o = some t → Shrinks e' t) :
    Settling e (settled below e' o) := by
  cases o with
  | none => exact he'
  | some t =>
      have ht := ho t rfl
      refine ⟨?_, ht.size_le.trans he'.size_le⟩
      have := he'.le
      have := ht.lt
      simp only [settled, Bool.toNat_true] at *
      omega

/-- A pass that changes something makes an expression lighter, and none adds a node, if no number is
below zero: such a number becomes a negation. -/
theorem NoNegative.settling_pass {e : Expr α} {p : Expr α × Bool} (he : e.NoNegative)
    (h : (pass s e).result = .ok p) : Settling e p := by
  induction e generalizing p with
  | num v =>
      have hstays : Term.reduceNum (β := Expr α) v = none := if_neg (Bool.eq_false_iff.mp he)
      obtain rfl := Except.ok.inj h
      rw [hstays]
      exact ⟨le_rfl, le_rfl⟩
  | var x =>
      obtain rfl := Except.ok.inj h
      exact ⟨le_rfl, le_rfl⟩
  | bin op a b iha ihb =>
      obtain ⟨⟨a', ca⟩, ⟨b', cb⟩, o, ha, hb, ho, rfl, -⟩ := pass_bin_ok h
      obtain ⟨hwa, hsa⟩ := iha he.1 ha
      obtain ⟨hwb, hsb⟩ := ihb he.2 hb
      refine settling_settled ⟨?_, ?_⟩ ?_
      · have hor : (ca || cb).toNat ≤ ca.toNat + cb.toNat := by cases ca <;> cases cb <;> decide
        simp only [weight] at *
        omega
      · simp only [size] at *
        omega
      · rintro t rfl
        exact shrinks_reduceBin ho
  | neg a ih =>
      obtain ⟨⟨a', ca⟩, ha, rfl, -⟩ := pass_neg_ok h
      obtain ⟨hwa, hsa⟩ := ih he ha
      refine settling_settled ⟨?_, ?_⟩ fun t ht => shrinks_reduceNeg ht
      · simp only [weight] at *
        omega
      · simp only [size] at *
        omega
  | app f a ih =>
      obtain ⟨⟨a', ca⟩, o, ha, ho, rfl, -⟩ := pass_app_ok h
      obtain ⟨hwa, hsa⟩ := ih he ha
      refine settling_settled ⟨?_, ?_⟩ ?_
      · simp only [weight] at *
        omega
      · simp only [size] at *
        omega
      · rintro t rfl
        exact shrinks_reduceApp ho

section

variable [LawfulArith α]

/-- A run of passes makes nothing heavier or larger. -/
theorem NoNegative.passes_le {n : Nat} {e e' : Expr α} {settled : Bool} (he : e.NoNegative)
    (h : (passes s n e).result = .ok (e', settled)) :
    e'.NoNegative ∧ e'.weight ≤ e.weight ∧ e'.size ≤ e.size := by
  refine passes_induction (P := fun t => t.NoNegative ∧ t.weight ≤ e.weight ∧ t.size ≤ e.size)
    ?_ ⟨he, le_rfl, le_rfl⟩ h
  rintro t p ⟨ht, hweight, hsize⟩ hp
  have hs := ht.settling_pass hp
  exact ⟨hereditary_noNegative.pass ht hp, (Nat.le_of_add_right_le hs.le).trans hweight,
    hs.size_le.trans hsize⟩

/-- As many passes as an expression is heavy settle, unless one of them fails. -/
theorem NoNegative.passes_settle {n : Nat} {e e' : Expr α} {settled : Bool} (he : e.NoNegative)
    (hn : e.weight ≤ n) (h : (passes s n e).result = .ok (e', settled)) : settled = true := by
  induction n generalizing e with
  | zero =>
      have := e.weight_pos
      omega
  | succ n ih =>
      rcases passes_succ h with ⟨e₁, h₁, h, -⟩ | ⟨-, hsettled, -⟩
      · have hlt := (he.settling_pass h₁).le
        exact ih (hereditary_noNegative.pass he h₁)
          (Nat.le_of_lt_succ (Nat.lt_of_lt_of_le hlt hn)) h
      · exact hsettled

/-- A run of passes that changes something does not come back to the expression it began with. -/
theorem NoNegative.unchanged_of_same {n : Nat} {e e' : Expr α} {settled : Bool}
    (he : e.NoNegative) (h : (passes s (n + 1) e).result = .ok (e', settled))
    (hsame : e'.same e = true) : (pass s e).result = .ok (e, false) := by
  rcases passes_succ h with ⟨e₁, h₁, h, -⟩ | ⟨h, -, -⟩
  · have hlt := (he.settling_pass h₁).le
    have hle : e'.weight ≤ e₁.weight := ((hereditary_noNegative.pass he h₁).passes_le h).2.1
    rw [weight_eq_of_same hsame] at hle
    exact absurd (Nat.lt_of_lt_of_le hlt hle) (Nat.lt_irrefl _)
  · rwa [eq_of_unchanged h] at h

/-- A run of passes keeps numbers proper and makes nothing heavier. -/
theorem settling_passes {n : Nat} {e e' : Expr α} {settled : Bool} (he : e.AllProper)
    (h : (passes s n e).result = .ok (e', settled)) :
    e'.AllProper ∧ e'.weight ≤ e.weight :=
  ⟨hereditary_allProper.passes he h, (he.noNegative.passes_le h).2.1⟩

/-- As many passes as an expression with proper numbers is heavy settle. -/
theorem passes_settle {n : Nat} {e e' : Expr α} {settled : Bool} (he : e.AllProper)
    (hn : e.weight ≤ n) (h : (passes s n e).result = .ok (e', settled)) : settled = true :=
  he.noNegative.passes_settle hn h

/-- Simplifying again leaves an expression as it is exactly if no rule applies any more. -/
theorem same_passes_iff {n : Nat} {e : Expr α} (he : e.AllProper) :
    (∃ e' settled, (passes s (n + 1) e).result = .ok (e', settled) ∧ e'.same e = true) ↔
      (pass s e).result = .ok (e, false) := by
  constructor
  · rintro ⟨e', settled, h, hsame⟩
    exact he.noNegative.unchanged_of_same h hsame
  · intro h
    exact ⟨e, true, passes_of_unchanged h, same_self he⟩

end

end Expr

end Fluxion

import Mathlib
import Fluxion.Expr.Basic
import Fluxion.Proofs.Number.Tolerance

/-!
# Fluxion.Proofs.Expr.Reading

Expressions over double precision numbers, read over the reals.

An expression whose literals are finite stands for the expression over the reals with their values.
What the rules of simplification ask of the two is the same: signs, equality, shape, and whether a
number is near another one where near means equal.

* `Expr.toReal`, `Expr.AllFinite`: the reading, and where it makes sense;
* `Expr.Reads`: both as one relation, constructor by constructor;
* `Expr.Reads.view`, `Expr.Reads.literal?`, `Expr.Reads.same`: what the rules see.
-/

namespace Fluxion.Expr

open Binary64 (value)

/-- The expression over the reals that an expression over double precision numbers stands for. -/
noncomputable def toReal : Expr Float → Expr ℝ
  | num v => num (value v)
  | var x => var x
  | bin op a b => bin op a.toReal b.toReal
  | neg a => neg a.toReal
  | app f a => app f a.toReal

/-- No literal is infinite or undefined. -/
def AllFinite : Expr Float → Prop
  | num v => Arith.finite v = true
  | var _ => True
  | bin _ a b => a.AllFinite ∧ b.AllFinite
  | neg a | app _ a => a.AllFinite

/-- A finite number and its value. -/
structure ReadsAs (v : Float) (r : ℝ) : Prop where
  finite : Arith.finite v = true
  value_eq : value v = r

/-- An expression with finite literals and what it stands for. -/
inductive Reads : Expr Float → Expr ℝ → Prop where
  | num {v : Float} {r : ℝ} (h : ReadsAs v r) : Reads (num v) (num r)
  | var (x : String) : Reads (var x) (var x)
  | bin (op : BinOp) {a b : Expr Float} {a' b' : Expr ℝ} (ha : Reads a a') (hb : Reads b b') :
      Reads (bin op a b) (bin op a' b')
  | neg {a : Expr Float} {a' : Expr ℝ} (h : Reads a a') : Reads (neg a) (neg a')
  | app (f : Fn) {a : Expr Float} {a' : Expr ℝ} (h : Reads a a') : Reads (app f a) (app f a')

/-- An expression of finite numbers is read as that of their values. -/
theorem reads_toReal {e : Expr Float} (h : e.AllFinite) : Reads e e.toReal := by
  induction e with
  | num v => exact .num ⟨h, rfl⟩
  | var x => exact .var x
  | bin op a b iha ihb => exact .bin op (iha h.1) (ihb h.2)
  | neg a ih => exact .neg (ih h)
  | app f a ih => exact .app f (ih h)

/-! ## numbers -/

theorem readsAs_zero : ReadsAs Arith.zero Arith.zero := ⟨rfl, Binary64.value_zero⟩

theorem readsAs_one : ReadsAs Arith.one Arith.one where
  finite := by
    change (Binary64.parts 1).isFinite = true
    rw [Binary64.parts_one]
    rfl
  value_eq := Binary64.value_one

theorem readsAs_two : ReadsAs Arith.two Arith.two where
  finite := by
    change (Binary64.parts 2).isFinite = true
    rw [Binary64.parts_two]
    rfl
  value_eq := Binary64.value_two

section

variable {v w : Float} {r q : ℝ}

/-- Opposite numbers are read as opposite numbers. -/
theorem ReadsAs.neg (h : ReadsAs v r) : ReadsAs (Arith.neg v) (Arith.neg r) where
  finite := Binary64.finite_neg h.finite
  value_eq := by
    rw [real_neg, ← h.value_eq]
    exact Binary64.value_neg v

/-- Zero may be added to what is read. -/
theorem ReadsAs.plus_zero (h : ReadsAs v r) :
    ReadsAs (Arith.add v Arith.zero) (Arith.add r Arith.zero) where
  finite := LawfulArith.finite_add_zero h.finite
  value_eq := by
    rw [real_add, real_zero, add_zero, ← h.value_eq]
    exact Binary64.value_add_zero v

/-- Signs are read as they are. -/
theorem ReadsAs.negative (h : ReadsAs v r) : Arith.negative v = Arith.negative r := by
  rw [Bool.eq_iff_iff, Binary64.negative_iff h.finite, real_negative, h.value_eq]

/-- Numbers not below zero are read as such. -/
theorem ReadsAs.nonneg (h : ReadsAs v r) : Arith.nonneg v = Arith.nonneg r := by
  rw [Bool.eq_iff_iff, Binary64.nonneg_iff h.finite, real_nonneg, h.value_eq]

/-- Zero is read as zero, and nothing else is. -/
theorem ReadsAs.isZero (h : ReadsAs v r) : Arith.isZero v = Arith.isZero r := by
  rw [Bool.eq_iff_iff, Binary64.isZero_iff h.finite, real_isZero, h.value_eq]

/-- Numbers are equal exactly if they are read as equal ones. -/
theorem ReadsAs.beq (hv : ReadsAs v r) (hw : ReadsAs w q) : (v == w) = Arith.toBEq.beq r q := by
  rw [Bool.eq_iff_iff, Binary64.beq_iff hv.finite hw.finite, real_beq, hv.value_eq, hw.value_eq]

/-- Numbers that are near each other, where near means equal. -/
theorem ReadsAs.near (hv : ReadsAs v r) (hw : ReadsAs w q)
    (hsharp : Arith.near r q = true → r = q) : Arith.near v w = Arith.near r q := by
  obtain ⟨hv, rfl⟩ := hv
  obtain ⟨hw, rfl⟩ := hw
  exact Binary64.near_eq hv hw hsharp

end

/-! ## what the rules see -/

/-- A view of an expression and of what it stands for. -/
inductive ViewReads : View Float (Expr Float) → View ℝ (Expr ℝ) → Prop where
  | number {v : Float} {r : ℝ} (h : ReadsAs v r) : ViewReads (.number v) (.number r)
  | negation {a : Expr Float} {a' : Expr ℝ} (h : Reads a a') :
      ViewReads (.negation a) (.negation a')
  | other : ViewReads .other .other

section

variable {a b : Expr Float} {a' b' : Expr ℝ}

/-- The rules see the same of what is read. -/
theorem Reads.view (h : Reads a a') : ViewReads (Term.view a) (Term.view a') := by
  cases h with
  | num h => exact .number h
  | neg h => exact .negation h
  | var | bin | app => exact .other

/-- A literal is read as a literal. -/
theorem Reads.literal? (h : Reads a a') :
    Option.Rel ReadsAs (Term.literal? a) (Term.literal? a') := by
  cases h with
  | num h => exact .some h
  | var | bin | app => exact .none
  | neg h =>
      cases h with
      | num h => exact .some h.neg
      | neg | var | bin | app => exact .none

/-- The term of a number stands for the term of its value. -/
theorem ReadsAs.literal {v : Float} {r : ℝ} (h : ReadsAs v r) :
    Reads (Term.literal v) (Term.literal r) := by
  unfold Term.literal
  rw [h.nonneg]
  split
  · exact .num h
  · exact .neg (.num h.neg)

/-- Equality of shape is the same for expressions and for what they stand for. -/
theorem Reads.same (ha : Reads a a') (hb : Reads b b') : a.same b = a'.same b' := by
  induction ha generalizing b b' with
  | num h =>
      cases hb with
      | num h' => exact h.beq h'
      | var | bin | neg | app => rfl
  | var x => cases hb <;> rfl
  | bin op _ _ iha ihb =>
      cases hb with
      | bin op' hc hd => simp only [Expr.same, iha hc, ihb hd]
      | num | var | neg | app => rfl
  | neg _ ih =>
      cases hb with
      | neg h => exact ih h
      | num | var | bin | app => rfl
  | app f _ ih =>
      cases hb with
      | app g h => simp only [Expr.same, ih h]
      | num | var | bin | neg => rfl

end

end Fluxion.Expr

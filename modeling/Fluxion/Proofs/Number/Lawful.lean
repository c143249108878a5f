import Mathlib
import Fluxion.Proofs.Number.Real
import Fluxion.Proofs.Number.Unpacked

/-!
# Fluxion.Proofs.Number.Lawful

What simplification relies on in a type of numbers.

The numbers of a term are zero or above and equal to themselves (`Arith.Proper`).  A number below
zero is the negation of one, and a number that is none must not arise.  The laws say that the
constants of the rules are such numbers, and that the rule for literals makes only such numbers of a
finite result.

Real numbers are lawful, and so are double precision numbers.

* `Arith.Proper`, `LawfulArith`;
* `Binary64.proper_ofDecimal`: a decimal is proper.
-/

namespace Fluxion

namespace Arith

variable {α : Type} [Arith α]

/-- A number as it stands in a term: not below zero, and equal to itself. -/
structure Proper (v : α) : Prop where
  not_negative : negative v = false
  beq_self : (v == v) = true

end Arith

open Arith

/-- Numbers for which the rules of simplification do what they are meant to. -/
class LawfulArith (α : Type) [Arith α] : Prop where
  proper_zero : Proper (zero : α)
  proper_one : Proper (one : α)
  proper_two : Proper (two : α)
  proper_of_nonneg {v : α} : nonneg v = true → Proper v
  /-- A finite number that is not zero or above is the negation of one that is. -/
  proper_neg {v : α} : finite v = true → nonneg v = false → Proper (neg v)
  finite_add_zero {v : α} : finite v = true → finite (add v zero) = true
  near_neg_zero (v : α) : near (neg v) zero = near v zero

/-! ## real numbers -/

/-- Real numbers that are not below zero are proper. -/
theorem real_proper {v : ℝ} (h : 0 ≤ v) : Proper v where
  not_negative := Bool.eq_false_iff.mpr fun hv => not_lt.mpr h ((real_negative v).mp hv)
  beq_self := (real_beq v v).mpr rfl

instance : LawfulArith ℝ where
  proper_zero := real_proper le_rfl
  proper_one := real_proper zero_le_one
  proper_two := real_proper zero_le_two
  proper_of_nonneg h := real_proper ((real_nonneg _).mp h)
  proper_neg := by
    intro v _ h
    have hv : ¬0 ≤ v := fun hv => Bool.eq_false_iff.mp h ((real_nonneg v).mpr hv)
    exact real_proper (neg_nonneg.mpr (not_le.mp hv).le)
  finite_add_zero _ := rfl
  near_neg_zero v := by
    rw [Bool.eq_iff_iff, real_near, real_near, real_neg, real_zero, sub_zero, sub_zero, abs_neg]

/-! ## double precision numbers -/

namespace Binary64

open Float.Model Float.Model.UnpackedFloat

/-- A number is below zero as its unpacked form is. -/
theorem negative_eq (v : Float) : negative v = (parts v).lt (.zero .positive) :=
  Bool.decide_eq_true.trans Bool.decide_eq_true

/-- A number is not below zero as its unpacked form is not. -/
theorem nonneg_eq (v : Float) : nonneg v = (UnpackedFloat.zero .positive).le (parts v) :=
  Bool.decide_eq_true.trans Bool.decide_eq_true

theorem beq_eq (v w : Float) : (v == w) = (parts v).beq (parts w) := rfl

theorem finite_eq (v : Float) : finite v = (parts v).isFinite := rfl

/-- A number is near zero if its absolute value is below the tolerance. -/
theorem near_zero_eq (v : Float) : near v zero = (parts v).abs.lt (parts tolerance) := by
  rw [← parts_sub_zero v, ← parts_abs]
  exact Bool.decide_eq_true.trans Bool.decide_eq_true

/-- What is a number is equal to itself. -/
theorem unpacked_beq_self {u : UnpackedFloat} (h : u ≠ .notANumber) : u.beq u = true := by
  cases u with
  | notANumber => exact absurd rfl h
  | infinity s => cases s <;> rfl
  | zero s => rfl
  | finite s m e hm => cases s <;> simp [UnpackedFloat.beq, UnpackedFloat.compare]

/-- A number of positive sign is proper, unless it is none. -/
theorem proper_of_unsigned {v : Float} (h : Unsigned (parts v)) (hv : parts v ≠ .notANumber) :
    Proper v where
  not_negative := by rw [negative_eq, h.not_lt_zero]
  beq_self := by rw [beq_eq, unpacked_beq_self hv]

/-- A zero of negative sign is proper as well. -/
theorem proper_of_zero {v : Float} {s : Sign} (h : parts v = .zero s) : Proper v where
  not_negative := by rw [negative_eq, h]; rfl
  beq_self := by rw [beq_eq, h]; rfl

/-- A number that is not below zero is proper. -/
theorem proper_float {v : Float} (h : nonneg v = true) : Proper v := by
  rw [nonneg_eq] at h
  cases hv : parts v with
  | notANumber =>
      rw [hv] at h
      exact nomatch h
  | zero s => exact proper_of_zero hv
  | infinity s | finite s =>
      rw [hv] at h
      cases s with
      | negative => exact nomatch h
      | positive =>
          refine proper_of_unsigned ?_ (by rw [hv]; exact nofun)
          rw [hv]
          constructor

instance : LawfulArith Float where
  proper_zero := proper_float (by decide +kernel)
  proper_one := proper_float (by decide +kernel)
  proper_two := proper_float (by decide +kernel)
  proper_of_nonneg := proper_float
  proper_neg := by
    intro v hfinite h
    rw [finite_eq] at hfinite
    rw [nonneg_eq] at h
    have hneg : parts (neg v) = (parts v).neg := parts_neg v
    cases hv : parts v with
    | notANumber | infinity s =>
        rw [hv] at hfinite
        exact nomatch hfinite
    | zero s =>
        rw [hv] at h
        exact nomatch h
    | finite s =>
        rw [hv] at h hneg
        cases s with
        | positive => exact nomatch h
        | negative =>
            refine proper_of_unsigned ?_ (by rw [hneg]; exact nofun)
            rw [hneg]
            constructor
  finite_add_zero := by
    intro v h
    rcases parts_add_zero v with hv | ⟨s, -, hv⟩
    · rw [finite_eq] at h ⊢
      rw [← h]
      exact congrArg UnpackedFloat.isFinite hv
    · exact congrArg UnpackedFloat.isFinite hv
  near_neg_zero v := by
    have habs : (parts (neg v)).abs = (parts v).abs := by
      rw [show parts (neg v) = (parts v).neg from parts_neg v]
      cases parts v <;> rfl
    rw [near_zero_eq, near_zero_eq, habs]

/-! ## decimals -/

section

variable {spec : Format} {a b : UnpackedFloat}

/-- A finite number other than zero. -/
def isNonzero : UnpackedFloat → Bool
  | .finite _ _ _ _ => true
  | _ => false

/-- Rounding gives a number. -/
theorem roundWithAccuracy_ne_notANumber (s : Sign) (m : Nat) (e : Int) (acc : Accuracy) :
    roundWithAccuracy spec s m e acc ≠ .notANumber := by
  unfold roundWithAccuracy
  dsimp only
  split <;> exact nofun

/-- The product with a finite number that is not zero is a number. -/
theorem mul_ne_notANumber (ha : a ≠ .notANumber) (hb : isNonzero b = true) :
    UnpackedFloat.mul spec a b ≠ .notANumber := by
  cases b with
  | notANumber | infinity | zero => cases hb
  | finite =>
      cases a with
      | notANumber => exact absurd rfl ha
      | infinity | zero => exact nofun
      | finite => exact roundWithAccuracy_ne_notANumber _ _ _ _

/-- The quotient by a finite number that is not zero is a number. -/
theorem div_ne_notANumber (ha : a ≠ .notANumber) (hb : isNonzero b = true) :
    UnpackedFloat.div spec a b ≠ .notANumber := by
  cases b with
  | notANumber | infinity | zero => cases hb
  | finite =>
      cases a with
      | notANumber => exact absurd rfl ha
      | infinity | zero => exact nofun
      | finite => exact roundWithAccuracy_ne_notANumber _ _ _ _

/-- A numeral stands for a number. -/
theorem ofScientific_ne_notANumber (m : Nat) (e : Int) :
    UnpackedFloat.ofScientific spec m e ≠ .notANumber := by
  unfold UnpackedFloat.ofScientific
  split
  · exact nofun
  · split
    · exact nofun
    · split
      · exact nofun
      · split
        · exact mul_ne_notANumber nofun rfl
        · exact div_ne_notANumber nofun rfl

theorem ofNat_ne_notANumber (n : Nat) : UnpackedFloat.ofNat spec n ≠ .notANumber := by
  rw [UnpackedFloat.ofNat, UnpackedFloat.ofInt, UnpackedFloat.normalize]
  cases compare (n : Int) 0 with
  | eq =>
      intro h
      cases h
  | lt | gt => exact roundWithAccuracy_ne_notANumber _ _ _ _

end

/-- Only a full exponent with a mantissa says that there is no number. -/
theorem unpack_ne_notANumber {b : BitVec 64}
    (h : @unpackExponent Format.binary64 b ≠ -1#11 ∨ @unpackMantissa Format.binary64 b = 0#52) :
    UnpackedFloat.unpack Format.binary64 b ≠ .notANumber := by
  unfold UnpackedFloat.unpack
  dsimp only
  split
  · next he =>
    rw [if_pos (h.resolve_left (· he))]
    exact nofun
  · split
    · split <;> exact nofun
    · exact nofun

/-- What is not a number does not come of rounding to the format. -/
theorem unpack_pack_ne_notANumber {u : UnpackedFloat} (h : u ≠ .notANumber) :
    (Float.Model.pack u).unpack ≠ .notANumber := by
  refine unpack_ne_notANumber ?_
  change @unpackExponent Format.binary64 (UnpackedFloat.pack Format.binary64 u) ≠ -1#11 ∨
    @unpackMantissa Format.binary64 (UnpackedFloat.pack Format.binary64 u) = 0#52
  cases u with
  | notANumber => exact absurd rfl h
  | infinity s => exact .inr unpackMantissa_packComponents
  | zero s => exact .inr unpackMantissa_packComponents
  | finite s m e hm =>
      unfold UnpackedFloat.pack
      dsimp only
      split
      · exact .inr unpackMantissa_packComponents
      · next hsmall =>
        split
        · refine .inl ?_
          rw [unpackExponent_packComponents]
          intro heq
          have hnat := congrArg BitVec.toNat heq
          rw [BitVec.toNat_ofNat, Nat.mod_eq_of_lt (by omega)] at hnat
          change _ = 2047 at hnat
          omega
        · refine .inl ?_
          rw [unpackExponent_packComponents]
          decide

/-- The powers of ten in the table are finite and not zero. -/
theorem isNonzero_powersOfTen :
    ∀ p ∈ Float.exactlyRepresentablePowersOfTen, isNonzero (parts p) = true := by
  decide +kernel

/-- The numeral of a machine number stands for a number. -/
theorem parts_ofScientific_ne_notANumber (m : Nat) (s : Bool) (e : Nat) :
    parts (Float.ofScientific m s e) ≠ .notANumber := by
  unfold Float.ofScientific
  split
  next h =>
    have he : e < Float.exactlyRepresentablePowersOfTen.size := Nat.lt_succ_of_le h.2
    have hp := isNonzero_powersOfTen _ (Array.getElem_mem he)
    have hm : parts m.toUInt64.toFloat ≠ .notANumber :=
      unpack_pack_ne_notANumber (ofNat_ne_notANumber _)
    split
    · exact unpack_pack_ne_notANumber (div_ne_notANumber hm hp)
    · exact unpack_pack_ne_notANumber (mul_ne_notANumber hm hp)
  next => exact unpack_pack_ne_notANumber (ofScientific_ne_notANumber _ _)

/-- The number nearest to a decimal is proper. -/
theorem proper_ofDecimal (m : Nat) (e : Int) : Proper (Arith.ofDecimal m e : Float) where
  not_negative := not_negative_ofDecimal m e
  beq_self := by
    rw [beq_eq]
    refine unpacked_beq_self ?_
    change parts (Binary64.ofDecimal m e) ≠ .notANumber
    unfold Binary64.ofDecimal
    dsimp only
    split
    · exact nofun
    · split
      · exact fun h => nomatch h
      · split <;> exact parts_ofScientific_ne_notANumber _ _ _

/-- A decimal stands for a number. -/
theorem parts_ofDecimal_ne_notANumber (m : Nat) (e : Int) :
    parts (Arith.ofDecimal m e : Float) ≠ .notANumber := by
  intro h
  have hself := (proper_ofDecimal m e).beq_self
  rw [beq_eq, h] at hself
  cases hself

/-- The opposite of a number is a number. -/
theorem parts_neg_ne_notANumber {v : Float} (h : parts v ≠ .notANumber) :
    parts (Arith.neg v) ≠ .notANumber := by
  change parts (-v) ≠ .notANumber
  rw [parts_neg]
  cases hv : parts v with
  | notANumber => exact absurd hv h
  | infinity | zero | finite => exact nofun

/-- The order of two numbers, from the other side. -/
theorem compare_swap (a b : UnpackedFloat) : a.compare b = (b.compare a).map Ordering.swap := by
  have hsign (s t : UnpackedFloat.Sign) : compare s t = (compare t s).swap := by
    cases s <;> cases t <;> rfl
  have hfinite (m n : ℕ) (d e : ℤ) : (compare d e).then (compare m n) =
      ((compare e d).then (compare n m)).swap := by
    rw [Ordering.swap_then, ← Std.OrientedCmp.eq_swap, ← Std.OrientedCmp.eq_swap]
  cases a with
  | notANumber => cases b <;> rfl
  | infinity s =>
      cases b with
      | notANumber => rfl
      | infinity t => exact congrArg some (hsign s t)
      | zero t => cases s <;> rfl
      | finite t n e hn => cases s <;> rfl
  | zero s =>
      cases b with
      | notANumber => rfl
      | infinity t => cases t <;> rfl
      | zero t => rfl
      | finite t n e hn => cases t <;> rfl
  | finite s m d hm =>
      cases b with
      | notANumber => rfl
      | infinity t => cases t <;> rfl
      | zero t => cases s <;> rfl
      | finite t n e hn =>
          cases s <;> cases t
          · exact congrArg (fun o => some o.swap) (hfinite _ _ _ _)
          · rfl
          · rfl
          · exact congrArg some (hfinite _ _ _ _)

/-- Numbers can be compared. -/
theorem isSome_compare {a b : UnpackedFloat} (ha : a ≠ .notANumber) (hb : b ≠ .notANumber) :
    ∃ o, a.compare b = some o := by
  cases a with
  | notANumber => exact absurd rfl ha
  | infinity s =>
      cases b with
      | notANumber => exact absurd rfl hb
      | infinity t => exact ⟨_, rfl⟩
      | zero | finite => cases s <;> exact ⟨_, rfl⟩
  | zero s =>
      cases b with
      | notANumber => exact absurd rfl hb
      | zero t => exact ⟨_, rfl⟩
      | infinity t | finite t => cases t <;> exact ⟨_, rfl⟩
  | finite s m d hm =>
      cases b with
      | notANumber => exact absurd rfl hb
      | infinity t => cases t <;> exact ⟨_, rfl⟩
      | zero t => cases s <;> exact ⟨_, rfl⟩
      | finite t n e hn => cases s <;> cases t <;> exact ⟨_, rfl⟩

/-- Of two numbers one is less than the other unless the other is at most the one. -/
theorem lt_eq_not_le {v w : Float} (hv : parts v ≠ .notANumber) (hw : parts w ≠ .notANumber) :
    Arith.lt v w = !Arith.le w v := by
  have hlt : Arith.lt v w = (parts v).lt (parts w) := Bool.decide_eq_true.trans Bool.decide_eq_true
  have hle : Arith.le w v = (parts w).le (parts v) := Bool.decide_eq_true.trans Bool.decide_eq_true
  obtain ⟨o, ho⟩ := isSome_compare hw hv
  rw [hlt, hle, UnpackedFloat.lt, UnpackedFloat.le, compare_swap, ho]
  cases o <;> rfl

end Binary64

end Fluxion

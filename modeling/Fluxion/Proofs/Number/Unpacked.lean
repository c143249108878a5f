import Mathlib
import Fluxion.Proofs.Number.Binary64

/-!
# Fluxion.Proofs.Number.Unpacked

The parts of double precision numbers.

A number is stored as bits and computed with in parts: a sign, a whole mantissa and an exponent.
Unpacking the bits gives parts for which there is room (`Binary64.Representable`), and packing such
parts loses nothing, so the operations that do not round can be followed on the parts alone.

* `Binary64.unpack_pack`: what is representable is stored as it is;
* `Binary64.parts_neg`, `Binary64.parts_abs`, `Binary64.parts_sub_zero`,
  `Binary64.parts_add_zero`: operations that do not round.
-/

namespace Fluxion.Binary64

open Float.Model Float.Model.UnpackedFloat

/-- The parts of a number for which there is room.  A mantissa has its leading bit, unless the
exponent is the least one. -/
inductive Representable : UnpackedFloat → Prop where
  | notANumber : Representable .notANumber
  | infinity (s : Sign) : Representable (.infinity s)
  | zero (s : Sign) : Representable (.zero s)
  | normal (s : Sign) (m : Nat) (e : Int) (h : 0 < m) (hm : 2 ^ 52 ≤ m ∧ m < 2 ^ 53)
      (he : -1074 ≤ e ∧ e ≤ 971) : Representable (.finite s m e h)
  | subnormal (s : Sign) (m : Nat) (h : 0 < m) (hm : m < 2 ^ 52) :
      Representable (.finite s m (-1074) h)

/-! ## packing and unpacking -/

theorem ofBitVec_toBitVec (s : Sign) : Sign.ofBitVec s.toBitVec = s := by
  cases s <;> rfl

/-- The exponent of a number as it is stored. -/
theorem biased_eq (e : Int) :
    e + (Format.binary64.exponentBias : Int) +
      (Format.binary64.mantissaBitsWithoutImplicit : Int) = e + 1075 :=
  Int.add_assoc e 1023 52

/-- The leading bit of a mantissa that is not stored. -/
theorem toNat_leadingBit (m : BitVec 52) : (1#1 ++ m).toNat = 2 ^ 52 + m.toNat := by
  rw [BitVec.toNat_append, ← Nat.shiftLeft_add_eq_or_of_lt m.isLt]
  rfl

/-- What is unpacked is a number of the format. -/
theorem representable_unpack (b : BitVec 64) :
    Representable (UnpackedFloat.unpack Format.binary64 b) := by
  have hm := (@unpackMantissa Format.binary64 b).isLt
  have he := (@unpackExponent Format.binary64 b).isLt
  unfold UnpackedFloat.unpack
  dsimp only
  split
  · split
    · exact .infinity _
    · exact .notANumber
  · next hmax =>
    have hmax' : (@unpackExponent Format.binary64 b).toNat ≠ 2047 :=
      fun h => hmax (BitVec.eq_of_toNat_eq h)
    have hbias : ((Format.binary64.exponentBias : Int) +
      (Format.binary64.mantissaBitsWithoutImplicit : Int)) = 1075 := rfl
    rw [hbias]
    change _ < 2 ^ 11 at he
    split
    · next hmin =>
      split
      · exact .zero _
      · rw [hmin]
        exact .subnormal _ _ _ hm
    · next hmin =>
      have hmin' : (@unpackExponent Format.binary64 b).toNat ≠ 0 :=
        fun h => hmin (BitVec.eq_of_toNat_eq h)
      refine .normal _ _ _ _ ?_ (by omega)
      rw [toNat_leadingBit]
      change _ < 2 ^ 52 at hm
      omega

/-- The parts of a number that is stored in given fields. -/
theorem unpack_packComponents (s : Sign) (e : BitVec 11) (m : BitVec 52) (he : e ≠ 0#11)
    (he' : e ≠ -1#11) :
    UnpackedFloat.unpack Format.binary64 (packComponents Format.binary64 s e m) =
      .finite s (2 ^ 52 + m.toNat) (e.toNat - 1075) (by omega) := by
  unfold UnpackedFloat.unpack
  simp only [unpackMantissa_packComponents, unpackExponent_packComponents,
    unpackSign_packComponents, ofBitVec_toBitVec, he, he', if_false, toNat_leadingBit]
  rfl

/-- A mantissa with the least exponent is unpacked without a leading bit. -/
theorem unpack_packComponents_zero (s : Sign) (m : BitVec 52) (hm : m ≠ 0#52) :
    UnpackedFloat.unpack Format.binary64 (packComponents Format.binary64 s 0#11 m) =
      .finite s m.toNat (-1074) (by simpa [BitVec.toNat_pos, BitVec.pos_iff_ne_zero]) := by
  have h : (0#11) ≠ -1#11 := by decide
  unfold UnpackedFloat.unpack
  simp only [unpackMantissa_packComponents, unpackExponent_packComponents,
    unpackSign_packComponents, ofBitVec_toBitVec, h, hm, if_false, if_true, dif_neg, not_false_eq_true]
  rfl

/-- What is representable is stored as it is. -/
theorem unpack_pack {u : UnpackedFloat} (hu : Representable u) :
    (Float.Model.pack u).unpack = u := by
  change UnpackedFloat.unpack Format.binary64 (UnpackedFloat.pack Format.binary64 u) = u
  cases hu with
  | notANumber => rfl
  | infinity s | zero s => cases s <;> rfl
  | normal s m e h hm he =>
      have hbits : m.log2 + 1 = Format.binary64.mantissaBits := by
        have : m.log2 = 52 := (Nat.log2_eq_iff (by omega)).mpr hm
        rw [this]
        rfl
      unfold UnpackedFloat.pack
      dsimp only
      rw [biased_eq, if_neg (by omega), if_pos hbits]
      have hexp : (BitVec.ofNat 11 (e + 1075).toNat).toNat = (e + 1075).toNat := by
        rw [BitVec.toNat_ofNat, Nat.mod_eq_of_lt (by omega)]
      have hmantissa : (BitVec.ofNat 52 m).toNat = m - 2 ^ 52 := by
        rw [BitVec.toNat_ofNat, Nat.mod_eq_sub_mod hm.1, Nat.mod_eq_of_lt (by omega)]
      have hne : ∀ b : BitVec 11, b.toNat ≠ (e + 1075).toNat →
          BitVec.ofNat 11 (e + 1075).toNat ≠ b := by
        rintro b hb rfl
        exact hb hexp
      rw [unpack_packComponents _ _ _ (hne _ (by change 0 ≠ _; omega))
        (hne _ (by change 2047 ≠ _; omega))]
      congr 1
      · omega
      · omega
  | subnormal s m h hm =>
      have hbits : ¬m.log2 + 1 = Format.binary64.mantissaBits := by
        have : m.log2 < 52 := (Nat.log2_lt (by omega)).mpr hm
        change ¬_ = 53
        omega
      have hmantissa : (BitVec.ofNat 52 m).toNat = m := by
        rw [BitVec.toNat_ofNat, Nat.mod_eq_of_lt hm]
      have hne : BitVec.ofNat 52 m ≠ 0#52 := by
        intro h0
        rw [h0] at hmantissa
        change 0 = m at hmantissa
        omega
      unfold UnpackedFloat.pack
      dsimp only
      rw [if_neg (by decide), if_neg hbits]
      rw [unpack_packComponents_zero s _ hne]
      congr 1

/-! ## operations on parts -/

/-- The parts of a number. -/
def parts (v : Float) : UnpackedFloat := v.toModel.unpack

/-- The parts of a machine number are those of the format. -/
theorem representable_parts (v : Float) : Representable (parts v) := representable_unpack _

theorem parts_zero : parts 0 = .zero .positive := rfl

/-- The opposite of a number of the format is one. -/
theorem Representable.neg {u : UnpackedFloat} (h : Representable u) : Representable u.neg := by
  cases h with
  | notANumber => exact .notANumber
  | infinity s => exact .infinity _
  | zero s => exact .zero _
  | normal s m e h hm he => exact .normal _ m e h hm he
  | subnormal s m h hm => exact .subnormal _ m h hm

/-- The absolute value of a number of the format is one. -/
theorem Representable.abs {u : UnpackedFloat} (h : Representable u) : Representable u.abs := by
  cases h with
  | notANumber => exact .notANumber
  | infinity s => exact .infinity _
  | zero s => exact .zero _
  | normal s m e h hm he => exact .normal _ m e h hm he
  | subnormal s m h hm => exact .subnormal _ m h hm

/-- The opposite number has the opposite parts. -/
theorem parts_neg (v : Float) : parts (-v) = (parts v).neg := unpack_pack (representable_parts v).neg

/-- The absolute value has the parts without a sign. -/
theorem parts_abs (v : Float) : parts v.abs = (parts v).abs := unpack_pack (representable_parts v).abs

/-- Nothing is rounded when zero is subtracted. -/
theorem unpacked_sub_zero (u : UnpackedFloat) :
    UnpackedFloat.sub Format.binary64 u (.zero .positive) = u := by
  cases u with
  | zero s => cases s <;> rfl
  | notANumber | infinity | finite => rfl

/-- Taking zero away changes nothing, not even the sign of zero. -/
theorem parts_sub_zero (v : Float) : parts (v - 0) = parts v := by
  calc parts (v - 0)
      = (Float.Model.pack (UnpackedFloat.sub Format.binary64 (parts v) (parts 0))).unpack := rfl
    _ = parts v := by rw [parts_zero, unpacked_sub_zero, unpack_pack (representable_parts v)]

/-- Adding zero only loses the sign of zero. -/
theorem parts_add_zero (v : Float) :
    parts (v + 0) = parts v ∨ ∃ s, parts v = .zero s ∧ parts (v + 0) = .zero .positive := by
  have hv := representable_parts v
  have hadd : parts (v + 0) =
      (Float.Model.pack (UnpackedFloat.add Format.binary64 (parts v) (parts 0))).unpack := rfl
  rw [hadd, parts_zero]
  cases h : parts v with
  | zero s =>
      refine .inr ⟨s, rfl, ?_⟩
      cases s <;> rfl
  | notANumber | infinity s | finite s m e hm =>
      rw [h] at hv
      exact .inl (unpack_pack hv)

end Fluxion.Binary64

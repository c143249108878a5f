import Mathlib
import Fluxion.Proofs.Number.Unpacked

/-!
# Fluxion.Proofs.Number.Bits

A number is determined by its parts.

Unpacking forgets only the payload of what is not a number, and of those one is valid.  So two
numbers with the same parts have the same bits, and what is shown of parts holds of numbers up to
the last bit.

* `Binary64.stored`: the fields in which parts are stored;
* `Binary64.parts_injective`;
* `Binary64.neg_neg_eq`: a sign that is turned twice.
-/

namespace Fluxion.Binary64

open Float.Model Float.Model.UnpackedFloat

/-- The fields in which parts are stored: the sign, the exponent and the mantissa without its
leading bit. -/
def stored : UnpackedFloat → Sign × Nat × Nat
  | .notANumber => (.positive, 2047, 1)
  | .infinity s => (s, 2047, 0)
  | .zero s => (s, 0, 0)
  | .finite s m e _ => (s, if m < 2 ^ 52 then (0, m) else ((e + 1075).toNat, m - 2 ^ 52))

theorem toBitVec_ofBitVec (s : BitVec 1) : (Sign.ofBitVec s).toBitVec = s := by
  revert s; decide

/-- Bits with the same fields are the same. -/
theorem eq_of_fields {b c : BitVec 64}
    (hs : @unpackSign Format.binary64 b = @unpackSign Format.binary64 c)
    (he : @unpackExponent Format.binary64 b = @unpackExponent Format.binary64 c)
    (hm : @unpackMantissa Format.binary64 b = @unpackMantissa Format.binary64 c) : b = c := by
  have hs' := congrArg BitVec.toNat hs
  have he' := congrArg BitVec.toNat he
  have hm' := congrArg BitVec.toNat hm
  simp only [unpackSign, unpackExponent, unpackMantissa, BitVec.toNat_cast, BitVec.extractLsb_toNat,
    Nat.shiftRight_eq_div_pow] at hs' he' hm'
  have hb := b.isLt
  have hc := c.isLt
  apply BitVec.eq_of_toNat_eq
  simp [Format.binary64] at hs' he' hm'
  omega

/-- Unpacking keeps the fields of every number. -/
theorem stored_unpack (b : BitVec 64) (h : UnpackedFloat.unpack Format.binary64 b ≠ .notANumber) :
    stored (UnpackedFloat.unpack Format.binary64 b) =
      (Sign.ofBitVec (@unpackSign Format.binary64 b),
        (@unpackExponent Format.binary64 b).toNat, (@unpackMantissa Format.binary64 b).toNat) := by
  have hmantissa := (@unpackMantissa Format.binary64 b).isLt
  change _ < 2 ^ 52 at hmantissa
  have hbias : ((Format.binary64.exponentBias : Int) +
    (Format.binary64.mantissaBitsWithoutImplicit : Int)) = 1075 := rfl
  revert h
  unfold UnpackedFloat.unpack
  dsimp only
  split
  · next he =>
    split
    · next hm => simp [stored, he, hm, Format.binary64]
    · simp
  · split
    · next he =>
      split
      · next hm => simp [stored, he, hm]
      · simp [stored, he, hmantissa]
    · simp only [stored, hbias]
      simp [toNat_leadingBit]

/-- What is not a number is stored in one way only. -/
theorem bits_notANumber {b : BitVec 64} (hb : Format.binary64.Valid b)
    (h : UnpackedFloat.unpack Format.binary64 b = .notANumber) :
    b = packedNaN Format.binary64 := by
  unfold UnpackedFloat.unpack at h
  dsimp only at h
  split at h
  · next he =>
    split at h
    · cases h
    · next hm => exact hb.eq_packedNaN he hm
  · split at h
    · split at h <;> cases h
    · cases h

/-- Valid bits are determined by what they unpack to. -/
theorem unpack_injective {b c : BitVec 64} (hb : Format.binary64.Valid b)
    (hc : Format.binary64.Valid c)
    (h : UnpackedFloat.unpack Format.binary64 b = UnpackedFloat.unpack Format.binary64 c) :
    b = c := by
  by_cases hn : UnpackedFloat.unpack Format.binary64 b = .notANumber
  · rw [bits_notANumber hb hn, bits_notANumber hc (h ▸ hn)]
  · have hfields := stored_unpack b hn
    rw [h, stored_unpack c (h ▸ hn)] at hfields
    simp only [Prod.mk.injEq] at hfields
    obtain ⟨hs, he, hm⟩ := hfields
    have hsign := congrArg Sign.toBitVec hs
    rw [toBitVec_ofBitVec, toBitVec_ofBitVec] at hsign
    exact eq_of_fields hsign.symm (BitVec.eq_of_toNat_eq he.symm) (BitVec.eq_of_toNat_eq hm.symm)

/-- A number is determined by its parts. -/
theorem parts_injective {v w : Float} (h : parts v = parts w) : v = w := by
  obtain ⟨⟨⟨b⟩, hb⟩⟩ := v
  obtain ⟨⟨⟨c⟩, hc⟩⟩ := w
  obtain rfl : b = c := unpack_injective hb hc h
  rfl

theorem neg_neg_eq (v : Float) : -(-v) = v := by
  apply parts_injective
  rw [parts_neg, parts_neg]
  cases parts v with
  | notANumber => rfl
  | infinity s | zero s | finite s => cases s <;> rfl

end Fluxion.Binary64

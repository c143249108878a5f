import Mathlib
import Fluxion.Number.Binary64

/-!
# Fluxion.Proofs.Number.Binary64

The signs of double precision numbers.

The sign bit of a number that is read from decimal digits is clear: products, quotients and rounded
whole numbers of positive sign have positive sign again, and no number of positive sign is below
zero.

* `Binary64.not_negative_ofDecimal`: the number nearest to a decimal is not negative.
-/

namespace Fluxion.Binary64

open Float.Model Float.Model.UnpackedFloat

/-! ## unpacked numbers -/

/-- Numbers of positive sign, and the one that is none. -/
inductive Unsigned : UnpackedFloat → Prop where
  | notANumber : Unsigned .notANumber
  | infinity : Unsigned (.infinity .positive)
  | zero : Unsigned (.zero .positive)
  | finite (m : Nat) (e : Int) (h : 0 < m) : Unsigned (.finite .positive m e h)

section

variable {spec : Format} {a b : UnpackedFloat}

/-- A number that is rounded without a sign has none. -/
theorem unsigned_roundWithAccuracy (m : Nat) (e : Int) (acc : Accuracy) :
    Unsigned (roundWithAccuracy spec .positive m e acc) := by
  unfold roundWithAccuracy
  dsimp only
  split
  · exact .zero
  · exact .finite _ _ _

/-- Natural numbers are not signed. -/
theorem unsigned_ofNat (n : Nat) : Unsigned (UnpackedFloat.ofNat spec n) := by
  rw [UnpackedFloat.ofNat, UnpackedFloat.ofInt, UnpackedFloat.normalize]
  split
  next h => exact absurd (Int.compare_eq_lt.mp h) (by omega)
  next h => exact .zero
  next h => exact unsigned_roundWithAccuracy _ _ _

/-- The product of numbers without a sign has none. -/
theorem Unsigned.mul (ha : Unsigned a) (hb : Unsigned b) :
    Unsigned (UnpackedFloat.mul spec a b) := by
  cases ha with
  | notANumber => exact .notANumber
  | infinity =>
      cases hb with
      | notANumber | zero => exact .notANumber
      | infinity | finite => exact .infinity
  | zero =>
      cases hb with
      | notANumber | infinity => exact .notANumber
      | zero | finite => exact .zero
  | finite m e h =>
      cases hb with
      | notANumber => exact .notANumber
      | infinity => exact .infinity
      | zero => exact .zero
      | finite => exact unsigned_roundWithAccuracy _ _ _

/-- The quotient of numbers without a sign has none. -/
theorem Unsigned.div (ha : Unsigned a) (hb : Unsigned b) :
    Unsigned (UnpackedFloat.div spec a b) := by
  cases ha with
  | notANumber => exact .notANumber
  | infinity =>
      cases hb with
      | notANumber | infinity => exact .notANumber
      | zero | finite => exact .infinity
  | zero =>
      cases hb with
      | notANumber | zero => exact .notANumber
      | infinity | finite => exact .zero
  | finite m e h =>
      cases hb with
      | notANumber => exact .notANumber
      | infinity => exact .zero
      | zero => exact .infinity
      | finite => exact unsigned_roundWithAccuracy _ _ _

/-- A numeral without a sign stands for a number without one. -/
theorem unsigned_ofScientific (m : Nat) (e : Int) :
    Unsigned (UnpackedFloat.ofScientific spec m e) := by
  unfold UnpackedFloat.ofScientific
  split
  · exact .zero
  · split
    · exact .infinity
    · split
      · exact .zero
      · split
        · exact (Unsigned.finite _ _ _).mul (.finite _ _ _)
        · exact (Unsigned.finite _ _ _).div (.finite _ _ _)

/-- No number of positive sign is below zero. -/
theorem Unsigned.not_lt_zero (h : Unsigned a) (s : Sign) : a.lt (.zero s) = false := by
  cases h with
  | notANumber | infinity | zero | finite => rfl

/-! ## sign bits -/

/-- The sign that is put into a bit pattern is read from it. -/
theorem unpackSign_packComponents (s : Sign) (e : BitVec spec.exponentBits)
    (m : BitVec spec.mantissaBitsWithoutImplicit) :
    unpackSign (packComponents spec s e m) = s.toBitVec := by
  apply BitVec.eq_of_getLsbD_eq
  intro i hi
  obtain rfl : i = 0 := by omega
  simp [unpackSign, packComponents, BitVec.getLsbD_append, BitVec.getElem_append]

/-- The bit of the sign is clear in the pattern of a number without a sign. -/
theorem Unsigned.unpackSign_pack (h : Unsigned a) :
    unpackSign (UnpackedFloat.pack spec a) = 0#1 := by
  cases h with
  | notANumber | infinity | zero => exact unpackSign_packComponents .positive _ _
  | finite m e h =>
      unfold UnpackedFloat.pack
      dsimp only
      split
      · exact unpackSign_packComponents .positive _ _
      · split <;> exact unpackSign_packComponents .positive _ _

/-- A pattern with a clear sign stands for a number without a sign. -/
theorem unsigned_unpack {v : BitVec spec.numBits} (h : unpackSign v = 0#1) :
    Unsigned (UnpackedFloat.unpack spec v) := by
  have hs : Sign.ofBitVec (unpackSign v) = .positive := by rw [h]; rfl
  unfold UnpackedFloat.unpack
  dsimp only
  rw [hs]
  split
  · split
    · exact .infinity
    · exact .notANumber
  · split
    · split
      · exact .zero
      · exact .finite _ _ _
    · exact .finite _ _ _

end

/-! ## machine numbers -/

/-- The sign bit of a number is clear. -/
def SignClear (v : Float) : Prop :=
  @unpackSign Format.binary64 v.toModel.toBits.toBitVec = 0#1

instance (v : Float) : Decidable (SignClear v) :=
  inferInstanceAs (Decidable (_ = _))

section

variable {v w : Float}

theorem SignClear.unsigned (h : SignClear v) : Unsigned v.toModel.unpack := unsigned_unpack h

theorem signClear_pack {f : UnpackedFloat} (h : Unsigned f) :
    SignClear (.ofModel (Float.Model.pack f)) := h.unpackSign_pack

/-- The sign stays clear in products. -/
theorem SignClear.mul (hv : SignClear v) (hw : SignClear w) : SignClear (v * w) :=
  signClear_pack (hv.unsigned.mul hw.unsigned)

/-- The sign stays clear in quotients. -/
theorem SignClear.div (hv : SignClear v) (hw : SignClear w) : SignClear (v / w) :=
  signClear_pack (hv.unsigned.div hw.unsigned)

/-- The sign of a natural number is clear. -/
theorem signClear_toFloat (n : UInt64) : SignClear n.toFloat :=
  signClear_pack (unsigned_ofNat n.toNat)

/-- The signs of the powers of ten in the table are clear. -/
theorem signClear_powersOfTen :
    ∀ p ∈ Float.exactlyRepresentablePowersOfTen, SignClear p := by
  decide +kernel

/-- The sign of a numeral is clear. -/
theorem signClear_ofScientific (m : Nat) (s : Bool) (e : Nat) :
    SignClear (Float.ofScientific m s e) := by
  unfold Float.ofScientific
  split
  next h =>
    have he : e < Float.exactlyRepresentablePowersOfTen.size := Nat.lt_succ_of_le h.2
    have hp := signClear_powersOfTen _ (Array.getElem_mem he)
    split
    · exact (signClear_toFloat _).div hp
    · exact (signClear_toFloat _).mul hp
  next => exact signClear_pack (unsigned_ofScientific _ _)

/-- A number whose sign is clear is not below zero. -/
theorem SignClear.not_negative (h : SignClear v) : Arith.negative v = false := by
  have hzero : (0 : Float).toModel.unpack = .zero .positive := by rfl
  have hlt : v.toModel.unpack.lt (0 : Float).toModel.unpack = false := by
    rw [hzero]
    exact h.unsigned.not_lt_zero _
  have hnot : ¬v < 0 := by
    intro hneg
    have : v.toModel.unpack.lt (0 : Float).toModel.unpack = true := of_decide_eq_true hneg
    rw [hlt] at this
    exact nomatch this
  exact decide_eq_false hnot

end

/-- The sign of a decimal number is clear. -/
theorem signClear_ofDecimal (m : Nat) (e : Int) : SignClear (ofDecimal m e) := by
  have hzero : SignClear 0 := signClear_ofScientific 0 false 0
  have hone : SignClear 1.0 := signClear_ofScientific _ _ _
  have hzero' : SignClear 0.0 := signClear_ofScientific _ _ _
  unfold ofDecimal
  dsimp only
  split
  · exact hzero
  · split
    · exact hone.div hzero'
    · split <;> exact signClear_ofScientific _ _ _

/-- The number nearest to a decimal is not negative. -/
theorem not_negative_ofDecimal (m : Nat) (e : Int) :
    Arith.negative (Arith.ofDecimal m e : Float) = false :=
  (signClear_ofDecimal m e).not_negative

end Fluxion.Binary64

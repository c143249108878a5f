import Fluxion.Proofs.Number.Correct
import Fluxion.Proofs.Number.Decimal
import Fluxion.Proofs.Number.Real

/-!
# Fluxion.Proofs.Number.Literal

Decimals that are read correctly.

A decimal with few digits and a small power of ten is a product or a quotient of machine numbers.
Any other is computed from its digits, unless its power of ten alone decides: what is far above the
largest number is infinite, and what is far below the least positive one is zero.  On every way the
result is the machine number for the decimal.

* `Binary64.correct_scientific`: from the digits;
* `Binary64.correct_ofDecimal`: on every way;
* `Binary64.value_ofNat_pos`: whole numbers above zero stay above zero.
-/

namespace Fluxion.Binary64

open Float.Model Float.Model.UnpackedFloat

/-! ## decimals of extreme size -/

section

variable {m d : ℕ} {e : ℤ} {v : Float}

theorem two_pow_le_ten_pow : (2 : ℝ) ^ 1075 ≤ 10 ^ 400 := by
  exact_mod_cast (by decide +kernel : 2 ^ 1075 ≤ 10 ^ 400)

/-- A decimal that begins far before the point is too large. -/
theorem limit_le_decimal (hm : 10 ^ d ≤ m) (h : 400 ≤ d + e) : limit ≤ m * 10 ^ e := by
  have hm' : (10 : ℝ) ^ d ≤ m := by exact_mod_cast hm
  calc limit
      ≤ 2 ^ 1075 := limit_lt.le.trans (pow_le_pow_right₀ one_le_two (by decide))
    _ ≤ 10 ^ (400 : ℤ) := two_pow_le_ten_pow
    _ ≤ 10 ^ (d + e) := zpow_le_zpow_right₀ (by norm_num) h
    _ = 10 ^ d * 10 ^ e := by rw [zpow_add₀ (by norm_num), zpow_natCast]
    _ ≤ m * 10 ^ e := mul_le_mul_of_nonneg_right hm' (by positivity)

/-- A decimal that begins far behind the point is too small. -/
theorem correct_tiny (hm : m < 10 ^ d) (h : d + e ≤ -400) (hv : parts v = .zero .positive) :
    Correct (m * 10 ^ e) v := by
  have hm' : (m : ℝ) < 10 ^ d := by exact_mod_cast hm
  have htiny : |(m * 10 ^ e : ℝ)| < 2 ^ (-1075 : ℤ) := by
    rw [abs_of_nonneg (by positivity)]
    calc (m * 10 ^ e : ℝ)
        < 10 ^ d * 10 ^ e := mul_lt_mul_of_pos_right hm' (by positivity)
      _ = 10 ^ (d + e) := by rw [zpow_add₀ (by norm_num), zpow_natCast]
      _ ≤ 10 ^ (-400 : ℤ) := zpow_le_zpow_right₀ (by norm_num) h
      _ ≤ 2 ^ (-1075 : ℤ) := by
          rw [zpow_neg, zpow_neg]
          exact inv_anti₀ (by positivity) two_pow_le_ten_pow
  have hself := correct_zero hv
  refine .finite ?_ (hself.finite_iff.mpr (abs_zero.trans_lt limit_pos)) ?_
  · rw [← abs_nearest_lt_iff, nearest_eq_zero htiny, abs_zero]
    positivity
  · rw [value_of_zero hv, nearest_eq_zero htiny]

end

/-! ## from the digits -/

/-- The product of the digits and a power of ten has enough bits. -/
theorem near_scaled {m : ℕ} (hm : 0 < m) (k : ℕ) : Near .positive (m * 10 ^ k)
    (roundWithAccuracy Format.binary64 .positive (m <<< 53 * 10 ^ k) (-53) .exact) := by
  have hpos : 0 < m * 10 ^ k := by positivity
  have hmantissa : m <<< 53 * 10 ^ k = m * 10 ^ k * 2 ^ 53 := by
    rw [Nat.shiftLeft_eq, mul_right_comm]
  have hvalue : (m * 10 ^ k : ℝ) = (m * 10 ^ k * 2 ^ 53 : ℕ) * 2 ^ (-53 : ℤ) := by
    rw [Nat.cast_mul, Nat.cast_mul, Nat.cast_pow, Nat.cast_pow, Nat.cast_ofNat, Nat.cast_ofNat,
      mul_assoc, two_zpow_mul]
    exact (mul_one _).symm
  rw [hmantissa, hvalue]
  refine near_roundWithAccuracy .positive (by positivity) (locates_exact _) ?_
  rw [targetExponent_eq, log2_mul_two_pow hpos]
  omega

/-- A decimal that is computed from its digits is rounded correctly. -/
theorem correct_scientific (m : ℕ) (e : ℤ) :
    Correct (m * 10 ^ e) (.ofModel (Float.Model.ofScientific m e)) := by
  have hbits : Format.binary64.exponentBits = 11 := rfl
  rw [Float.Model.ofScientific, UnpackedFloat.ofScientific, hbits]
  split
  next hzero =>
    rw [hzero, Nat.cast_zero, zero_mul]
    exact correct_zero (unpack_pack (.zero .positive))
  next hm =>
    have hpos : 0 < m := Nat.pos_of_ne_zero hm
    split
    next hlarge =>
      exact .above (limit_le_decimal (d := 0) hpos (by omega)) (unpack_pack (.infinity .positive))
    split
    next hsmall =>
      have hlt : m < 10 ^ (m.log2 + 1) :=
        Nat.lt_log2_self.trans_le (Nat.pow_le_pow_left (by decide) _)
      exact correct_tiny hlt (by push_cast; omega) (unpack_pack (.zero .positive))
    split
    next he =>
      obtain ⟨k, rfl⟩ := Int.eq_ofNat_of_zero_le he
      rw [zpow_natCast]
      exact (near_scaled hpos k).correct (by positivity)
    next he =>
      have hpow : (10 : ℝ) ^ e = ((10 ^ (-e).toNat : ℕ) : ℝ)⁻¹ := by
        have hneg : e = -((-e).toNat : ℤ) := by omega
        conv_lhs => rw [hneg, zpow_neg, zpow_natCast]
        rw [Nat.cast_pow, Nat.cast_ofNat]
      have hvalue : (m * 10 ^ e : ℝ) =
          m * 2 ^ (0 : ℤ) / ((10 ^ (-e).toNat : ℕ) * 2 ^ (0 : ℤ)) := by
        rw [hpow, zpow_zero, mul_one, mul_one, div_eq_mul_inv]
      rw [hvalue]
      exact (near_div .positive 0 0 hpos (Nat.pow_pos (by decide))).correct (by positivity)

/-! ## from machine numbers -/

/-- Whole numbers of less than 54 bits are stored as they are. -/
theorem value_toFloat {n : ℕ} (hlt : n < 2 ^ 53) :
    Arith.finite n.toUInt64.toFloat = true ∧ value n.toUInt64.toFloat = n := by
  have hnat : n.toUInt64.toNat = n := Nat.mod_eq_of_lt (by omega)
  have hmodel : n.toUInt64.toFloat =
      .ofModel (Float.Model.pack (UnpackedFloat.normalize Format.binary64 n 0 .positive)) := by
    have htoFloat : n.toUInt64.toFloat =
        .ofModel (Float.Model.pack (UnpackedFloat.ofNat Format.binary64 n.toUInt64.toNat)) := rfl
    rw [htoFloat, hnat]
    rfl
  have hcast : |(n : ℤ)| < 2 ^ 53 := by
    rw [Nat.abs_cast]
    exact_mod_cast hlt
  have hself := nearest_eq_self (j := 0) hcast (by decide)
  have hcorrect := correct_normalize n 0
  rw [← hmodel] at hcorrect
  rw [zpow_zero, mul_one, Int.cast_natCast] at hself hcorrect
  have hsmall : |(n : ℝ)| ≤ 2 ^ 53 := by
    rw [Nat.abs_cast]
    exact_mod_cast hlt.le
  obtain ⟨hfinite, -⟩ := hcorrect.abs_le hsmall (two_pow_lt_limit (by decide))
  exact ⟨hfinite, (hcorrect.value_eq hfinite).trans hself⟩

/-- The powers of ten that are machine numbers. -/
theorem value_powerOfTen {k : ℕ} (hk : k < 23) :
    Arith.finite Float.exactlyRepresentablePowersOfTen[k] = true ∧
      value Float.exactlyRepresentablePowersOfTen[k] = 10 ^ k := by
  have hall : ∀ i : Fin 23, (parts Float.exactlyRepresentablePowersOfTen[i]).isFinite = true ∧
      units (parts Float.exactlyRepresentablePowersOfTen[i]) = 10 ^ i.val * unitsOfOne := by
    decide +kernel
  obtain ⟨hfinite, hunits⟩ := hall ⟨k, hk⟩
  exact ⟨hfinite, by exact_mod_cast value_eq_intCast_iff.mpr hunits⟩

/-- A decimal with few digits and a small power of ten is a product. -/
theorem correct_product {m k : ℕ} (hm : m < 2 ^ 53) (hk : k < 23) :
    Correct (m * 10 ^ (k : ℤ))
      (m.toUInt64.toFloat * Float.exactlyRepresentablePowersOfTen[k]) := by
  obtain ⟨hfinite, hvalue⟩ := value_toFloat hm
  obtain ⟨hfinite', hvalue'⟩ := value_powerOfTen hk
  rw [zpow_natCast, ← hvalue, ← hvalue']
  exact correct_mul hfinite hfinite'

/-- A decimal with few digits and a small power of ten below the line is a quotient. -/
theorem correct_quotient {m k : ℕ} (hm : m < 2 ^ 53) (hk : k < 23) :
    Correct (m * 10 ^ (-k : ℤ))
      (m.toUInt64.toFloat / Float.exactlyRepresentablePowersOfTen[k]) := by
  obtain ⟨hfinite, hvalue⟩ := value_toFloat hm
  obtain ⟨hfinite', hvalue'⟩ := value_powerOfTen hk
  rw [zpow_neg, zpow_natCast, ← div_eq_mul_inv, ← hvalue, ← hvalue']
  exact correct_div hfinite hfinite' (hvalue' ▸ by positivity)

/-! ## all decimals -/

/-- A decimal with a natural power of ten. -/
theorem correct_ofScientific_false (m k : ℕ) :
    Correct (m * 10 ^ (k : ℤ)) (Float.ofScientific m false k) := by
  rw [Float.ofScientific]
  split
  next h => exact correct_product h.1 (Nat.lt_succ_of_le h.2)
  next => exact correct_scientific m k

/-- A decimal with a natural power of ten below the line. -/
theorem correct_ofScientific_true (m k : ℕ) :
    Correct (m * 10 ^ (-k : ℤ)) (Float.ofScientific m true k) := by
  rw [Float.ofScientific]
  split
  next h => exact correct_quotient h.1 (Nat.lt_succ_of_le h.2)
  next =>
    have hneg : Int.negOfNat k = -(k : ℤ) := Int.negOfNat_eq
    exact hneg ▸ correct_scientific m (Int.negOfNat k)

/-- Decimals are read correctly. -/
theorem correct_ofDecimal (m : ℕ) (e : ℤ) :
    Correct (Arith.ofDecimal m e) (Arith.ofDecimal m e : Float) := by
  change Correct (m * 10 ^ e) (Binary64.ofDecimal m e)
  unfold Binary64.ofDecimal
  dsimp only
  split
  next h =>
    rcases h with rfl | h
    · rw [Nat.cast_zero, zero_mul]
      exact correct_zero parts_zero
    · exact correct_tiny (lt_pow_decimalLength m) (by rw [decimalLength]; omega) parts_zero
  next h =>
    split
    next hlarge =>
      obtain ⟨d, hd⟩ : ∃ d, decimalLength m = d + 1 :=
        ⟨decimalLength m - 1, by have := decimalLength_pos m; omega⟩
      have hle : 10 ^ d ≤ m := pow_le_of_decimalLength (fun hm => h (.inl hm)) hd
      rw [decimalLength] at hd
      exact .above (limit_le_decimal hle (by omega)) (by rfl)
    next =>
      cases e with
      | ofNat k => exact correct_ofScientific_false m k
      | negSucc k => exact correct_ofScientific_true m (k + 1)

/-! ## whole numbers -/

section

variable {n : ℕ}

theorem correct_natCast (n : ℕ) : Correct n (Arith.ofDecimal n 0 : Float) := by
  have hvalue : (Arith.ofDecimal n 0 : ℝ) = n := by
    change (n : ℝ) * 10 ^ (0 : ℤ) = n
    rw [zpow_zero, mul_one]
  have h := correct_ofDecimal n 0
  rwa [hvalue] at h

theorem finite_natCast_iff : Arith.finite (Arith.ofDecimal n 0 : Float) = true ↔ n < limit := by
  rw [(correct_natCast n).finite_iff, abs_of_nonneg (Nat.cast_nonneg n)]

theorem one_le_nearest_natCast (hn : 0 < n) : 1 ≤ nearest n := by
  have hone : nearest 1 = 1 := by
    have := nearest_eq_self (c := 1) (j := 0) (by decide) (by decide)
    rwa [Int.cast_one, one_mul, zpow_zero] at this
  rw [← hone]
  exact nearest_mono (Nat.one_le_cast.mpr hn)

/-- A whole number above zero stays above zero. -/
theorem value_ofNat_pos {r : Float} (hn : 0 < n) (h : Arith.ofNat n = .ok r) :
    Arith.finite r = true ∧ 0 < value r := by
  change Binary64.ofNat n = .ok r at h
  unfold Binary64.ofNat at h
  dsimp only at h
  split at h
  next hfinite =>
    obtain rfl := Except.ok.inj h
    refine ⟨hfinite, ?_⟩
    have hvalue : value (Binary64.ofDecimal n 0) = nearest n := (correct_natCast n).value_eq hfinite
    rw [hvalue]
    exact one_pos.trans_le (one_le_nearest_natCast hn)
  next => cases h

end

end Fluxion.Binary64

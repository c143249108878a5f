import Mathlib
import Fluxion.Number.Decimal

/-!
# Fluxion.Proofs.Number.Decimal

Numbers rounded to a given count of digits.

* `Magnitude.exponent10_spec`: where the first digit of a magnitude stands;
* `Digits.rounded_spec`: the digits are as many as were asked for, and next to the magnitude.
-/

namespace Fluxion

/-! ## how many digits a whole number has -/

theorem decimalLength_pos (n : ℕ) : 0 < decimalLength n := Nat.length_toDigits_pos

/-- A whole number has at most so many digits if it is below the power. -/
theorem decimalLength_le_iff {n k : ℕ} (hk : 0 < k) : decimalLength n ≤ k ↔ n < 10 ^ k :=
  Nat.length_toDigits_le_iff (by decide) hk

/-- A whole number is below the power of its length. -/
theorem lt_pow_decimalLength (n : ℕ) : n < 10 ^ decimalLength n :=
  (decimalLength_le_iff (decimalLength_pos n)).mp le_rfl

/-- A whole number is at least the power below its length. -/
theorem pow_le_of_decimalLength {n k : ℕ} (hn : n ≠ 0) (hk : decimalLength n = k + 1) :
    10 ^ k ≤ n := by
  by_contra hlt
  obtain rfl | hpos := Nat.eq_zero_or_pos k
  · omega
  · have := (decimalLength_le_iff hpos).mpr (not_le.mp hlt)
    omega

/-- A number of a given count of digits. -/
theorem decimalLength_eq {n k : ℕ} (hlow : 10 ^ k ≤ n) (hhigh : n < 10 ^ (k + 1)) :
    decimalLength n = k + 1 := by
  apply le_antisymm ((decimalLength_le_iff k.succ_pos).mpr hhigh)
  by_contra hlt
  have hpos := decimalLength_pos n
  have := (decimalLength_le_iff (by omega : 0 < k)).mp (by omega : decimalLength n ≤ k)
  omega

/-! ## quotients -/

section

variable {num den : ℕ}

/-- A rounded quotient is off by half at most. -/
theorem abs_roundDiv_sub_le (hden : 0 < den) :
    |(roundDiv num den : ℝ) - num / den| ≤ 1 / 2 := by
  have hpos : (0 : ℝ) < den := Nat.cast_pos.mpr hden
  have hsplit : (den : ℝ) * (num / den : ℕ) + (num % den : ℕ) = num := by
    exact_mod_cast Nat.div_add_mod num den
  have hquotient : (num : ℝ) / den = (num / den : ℕ) + (num % den : ℕ) / den := by
    rw [← hsplit]
    field_simp
  rw [hquotient, roundDiv]
  split
  next h =>
    have hlow : ((num % den : ℕ) : ℝ) / den ≤ 1 / 2 := by
      rw [div_le_div_iff₀ hpos two_pos]
      exact_mod_cast (by omega : num % den * 2 ≤ 1 * den)
    have hnonneg : 0 ≤ ((num % den : ℕ) : ℝ) / den := by positivity
    rw [abs_le]
    constructor <;> linarith
  next h =>
    split
    next h' =>
      have hhigh : 1 / 2 ≤ ((num % den : ℕ) : ℝ) / den := by
        rw [div_le_div_iff₀ two_pos hpos]
        exact_mod_cast (by omega : 1 * den ≤ num % den * 2)
      have hlt : ((num % den : ℕ) : ℝ) / den < 1 :=
        (div_lt_one hpos).mpr (Nat.cast_lt.mpr (Nat.mod_lt num hden))
      rw [abs_le]
      push_cast
      constructor <;> linarith
    next h' =>
      have htie : ((num % den : ℕ) : ℝ) / den = 1 / 2 := by
        rw [div_eq_div_iff hpos.ne' two_ne_zero]
        exact_mod_cast (by omega : num % den * 2 = 1 * den)
      rw [htie, abs_le]
      obtain heven | hodd := Nat.mod_two_eq_zero_or_one (num / den)
      · rw [heven]
        constructor <;> push_cast <;> linarith
      · rw [hodd]
        constructor <;> push_cast <;> linarith

/-- A rounded quotient is the quotient or the next number. -/
theorem roundDiv_eq (num den : ℕ) :
    roundDiv num den = num / den ∨ roundDiv num den = num / den + 1 := by
  have := Nat.mod_two_eq_zero_or_one (num / den)
  unfold roundDiv
  dsimp only
  split
  · exact .inl rfl
  · split
    · exact .inr rfl
    · omega

end

namespace Magnitude

/-! ## magnitudes -/

/-- The number that a magnitude is. -/
noncomputable def toReal (v : Magnitude) : ℝ := v.num / v.den

variable {v : Magnitude}

/-- A magnitude reaches a power of ten if its whole part does. -/
theorem pow_le_toReal_iff (hden : 0 < v.den) {k : ℕ} :
    (10 : ℝ) ^ k ≤ v.toReal ↔ 10 ^ k ≤ v.num / v.den := by
  rw [toReal, le_div_iff₀ (Nat.cast_pos.mpr hden), Nat.le_div_iff_mul_le hden]
  exact_mod_cast Iff.rfl

/-- A magnitude stays below a power of ten if its whole part does. -/
theorem toReal_lt_pow_iff (hden : 0 < v.den) {k : ℕ} :
    v.toReal < (10 : ℝ) ^ k ↔ v.num / v.den < 10 ^ k := by
  rw [← not_le, pow_le_toReal_iff hden, not_le]

/-- The first digit of a magnitude stands where its exponent says. -/
theorem exponent10_spec (hnum : 0 < v.num) (hden : 0 < v.den) :
    (10 : ℝ) ^ v.exponent10 ≤ v.toReal ∧ v.toReal < 10 ^ (v.exponent10 + 1) := by
  unfold exponent10
  split
  next hle =>
    have hquotient : v.num / v.den ≠ 0 := (Nat.div_pos hle hden).ne'
    obtain ⟨k, hk⟩ : ∃ k, decimalLength (v.num / v.den) = k + 1 :=
      Nat.exists_eq_succ_of_ne_zero (decimalLength_pos _).ne'
    have hlow := pow_le_of_decimalLength hquotient hk
    have hhigh := lt_pow_decimalLength (v.num / v.den)
    rw [hk] at hhigh ⊢
    rw [← pow_le_toReal_iff hden] at hlow
    rw [← toReal_lt_pow_iff hden] at hhigh
    constructor
    · simpa using hlow
    · simpa [← zpow_natCast] using hhigh
  next hlt =>
    -- the inverse is above one, and its digits are counted
    have hceil : (v.den + v.num - 1) / v.num - 1 = (v.den - 1) / v.num := by
      rw [Nat.sub_add_comm (by omega : 1 ≤ v.den), Nat.add_div_right _ hnum, Nat.add_sub_cancel]
    have hquotient : (v.den - 1) / v.num ≠ 0 := (Nat.div_pos (by omega) hnum).ne'
    obtain ⟨k, hk⟩ : ∃ k, decimalLength ((v.den - 1) / v.num) = k + 1 :=
      Nat.exists_eq_succ_of_ne_zero (decimalLength_pos _).ne'
    have hlow := pow_le_of_decimalLength hquotient hk
    have hhigh := lt_pow_decimalLength ((v.den - 1) / v.num)
    rw [hk] at hhigh
    rw [Nat.le_div_iff_mul_le hnum] at hlow
    rw [Nat.div_lt_iff_lt_mul hnum] at hhigh
    have hupper : 10 ^ k * v.num < v.den := by omega
    have hlower : v.den ≤ 10 ^ (k + 1) * v.num := by omega
    have hpos : (0 : ℝ) < v.den := Nat.cast_pos.mpr hden
    rw [hceil, hk, toReal]
    constructor
    · rw [zpow_neg, zpow_natCast, inv_le_iff_one_le_mul₀ (by positivity), div_mul_eq_mul_div,
        one_le_div₀ hpos, mul_comm]
      exact_mod_cast hlower
    · rw [show -((k + 1 : ℕ) : ℤ) + 1 = -k by push_cast; ring, zpow_neg, zpow_natCast,
        lt_inv_comm₀ (by positivity) (by positivity), inv_div, lt_div_iff₀ (by positivity)]
      exact_mod_cast hupper

theorem scale_den_pos (hden : 0 < v.den) (k : ℤ) : 0 < (v.scale k).den := by
  cases k with
  | ofNat k => exact hden
  | negSucc k => exact Nat.mul_pos hden (Nat.pow_pos (by decide))

/-- A magnitude is moved by a power of ten. -/
theorem toReal_scale (v : Magnitude) (k : ℤ) : (v.scale k).toReal = v.toReal * 10 ^ k := by
  cases k with
  | ofNat k =>
      rw [toReal, toReal, scale, Int.ofNat_eq_natCast, zpow_natCast, Nat.pow_eq]
      push_cast
      ring
  | negSucc k =>
      rw [toReal, toReal, scale, zpow_negSucc, Nat.pow_eq]
      push_cast
      rw [div_mul_eq_div_div, div_eq_mul_inv _ ((10 : ℝ) ^ (k + 1))]

end Magnitude

namespace Digits

/-! ## rounding -/

variable {v : Magnitude} {places : ℕ} {x : ℝ}

/-- The number that digits stand for: the first of them stands before the point, and the exponent
moves it. -/
noncomputable def toReal (d : Digits) : ℝ :=
  d.value * ((10 : ℕ) : ℝ) ^ (d.exponent + 1 - decimalLength d.value)

/-- Digits of a given count, no less and no more, next to a number. -/
structure Nearest (places : ℕ) (x : ℝ) (d : Digits) : Prop where
  length : decimalLength d.value = places
  near : |d.toReal - x| ≤ 10 ^ (d.exponent + 1 - places) / 2

/-- Digits of the right length that are near enough are nearest. -/
theorem nearest_of_bounds (hplaces : 0 < places) {w : ℕ} {e : ℤ} (hlow : 10 ^ (places - 1) ≤ w)
    (hhigh : w < 10 ^ places)
    (hnear : |w * (10 : ℝ) ^ (e + 1 - places) - x| ≤ 10 ^ (e + 1 - places) / 2) :
    Nearest places x ⟨w, e⟩ := by
  obtain ⟨k, rfl⟩ : ∃ k, places = k + 1 := Nat.exists_eq_succ_of_ne_zero hplaces.ne'
  have hlength : decimalLength w = k + 1 := decimalLength_eq hlow hhigh
  refine ⟨hlength, ?_⟩
  rw [toReal, hlength, Nat.cast_ofNat]
  exact hnear

/-- A step up from `99…9` to `100…0` keeps the digits next to the number. -/
theorem nearest_normal {w : ℕ} {e : ℤ} (hplaces : 0 < places) (hlow : 10 ^ (places - 1) ≤ w)
    (hhigh : w ≤ 10 ^ places)
    (hnear : |w * (10 : ℝ) ^ (e + 1 - places) - x| ≤ 10 ^ (e + 1 - places) / 2) :
    Nearest places x (normal places w e) := by
  have hlt : 10 ^ (places - 1) < 10 ^ places := Nat.pow_lt_pow_right (by decide) (by omega)
  unfold normal
  rw [Nat.pow_eq, Nat.pow_eq]
  split
  next h =>
    apply nearest_of_bounds hplaces le_rfl hlt
    have hten : (0 : ℝ) < 10 ^ (e + 1 - places) := by positivity
    have hnext : (10 : ℝ) ^ (e + 1 + 1 - places) = 10 * 10 ^ (e + 1 - places) := by
      rw [← zpow_one_add₀ (by norm_num)]
      ring_nf
    have hsame : ((10 ^ (places - 1) : ℕ) : ℝ) * 10 ^ (e + 1 + 1 - places) =
        w * 10 ^ (e + 1 - places) := by
      have hstep : 10 ^ places = 10 ^ (places - 1) * 10 := by
        rw [← pow_succ, Nat.sub_add_cancel hplaces]
      rw [h, hnext, ← mul_assoc, hstep, Nat.cast_mul, Nat.cast_ofNat]
    rw [hsame, hnext]
    linarith
  next h => exact nearest_of_bounds hplaces hlow (lt_of_le_of_ne hhigh h) hnear

/-- A magnitude above zero has digits as many as are asked for, and next to it. -/
theorem rounded_spec (hnum : 0 < v.num) (hden : 0 < v.den) (hplaces : 0 < places) :
    Nearest places v.toReal (rounded places v) := by
  obtain ⟨hfirst, hlast⟩ := Magnitude.exponent10_spec hnum hden
  rw [rounded, if_neg hnum.ne']
  generalize v.exponent10 = e at hfirst hlast
  dsimp only
  have hs := v.toReal_scale ((places : ℤ) - 1 - e)
  have hsden := Magnitude.scale_den_pos hden ((places : ℤ) - 1 - e)
  generalize v.scale ((places : ℤ) - 1 - e) = s at hs hsden
  have hscale : (0 : ℝ) < 10 ^ ((places : ℤ) - 1 - e) := by positivity
  have hlow : (10 : ℝ) ^ (places - 1) ≤ s.toReal := by
    calc (10 : ℝ) ^ (places - 1)
        = 10 ^ e * 10 ^ ((places : ℤ) - 1 - e) := by
          rw [← zpow_add₀ (by norm_num), ← zpow_natCast, Nat.cast_sub hplaces]
          congr 1
          push_cast
          ring
      _ ≤ s.toReal := by rw [hs]; gcongr
  have hhigh : s.toReal < (10 : ℝ) ^ places := by
    calc s.toReal
        < 10 ^ (e + 1) * 10 ^ ((places : ℤ) - 1 - e) := by rw [hs]; gcongr
      _ = 10 ^ places := by
          rw [← zpow_add₀ (by norm_num), ← zpow_natCast]
          congr 1
          ring
  rw [Magnitude.pow_le_toReal_iff hsden] at hlow
  rw [Magnitude.toReal_lt_pow_iff hsden] at hhigh
  have hround := roundDiv_eq s.num s.den
  apply nearest_normal hplaces (by omega) (by omega)
  have hunit : (0 : ℝ) < 10 ^ (e + 1 - places) := by positivity
  have hback : (10 : ℝ) ^ ((places : ℤ) - 1 - e) * 10 ^ (e + 1 - places) = 1 := by
    rw [← zpow_add₀ (by norm_num)]
    convert zpow_zero (10 : ℝ) using 2
    ring
  calc |(roundDiv s.num s.den : ℝ) * 10 ^ (e + 1 - places) - v.toReal|
      = |((roundDiv s.num s.den : ℝ) - s.toReal) * 10 ^ (e + 1 - places)| := by
        rw [sub_mul, hs, mul_assoc, hback, mul_one]
    _ = |(roundDiv s.num s.den : ℝ) - s.toReal| * 10 ^ (e + 1 - places) := by
        rw [abs_mul, abs_of_pos hunit]
    _ ≤ 1 / 2 * 10 ^ (e + 1 - places) := by
        gcongr
        exact abs_roundDiv_sub_le hsden
    _ = 10 ^ (e + 1 - places) / 2 := by ring

/-- A number rounded to a given count of digits; zero stays zero. -/
def IsRounding (places : ℕ) (x y : ℝ) : Prop :=
  x = 0 ∧ y = 0 ∨ ∃ d, Nearest places x d ∧ y = d.toReal

/-- The digits of a magnitude are the magnitude rounded. -/
theorem isRounding_rounded (hden : 0 < v.den) (hplaces : 0 < places) :
    IsRounding places v.toReal (rounded places v).toReal := by
  obtain hzero | hnum := Nat.eq_zero_or_pos v.num
  · left
    rw [Magnitude.toReal, rounded, if_pos hzero, hzero, toReal, Nat.cast_zero, zero_div, zero_mul]
    exact ⟨rfl, rfl⟩
  · exact .inr ⟨_, rounded_spec hnum hden hplaces, rfl⟩

end Digits

end Fluxion

import Fluxion.Proofs.Number.Bits
import Fluxion.Proofs.Number.Nearest
import Fluxion.Proofs.Number.Rounding

/-!
# Fluxion.Proofs.Number.Correct

Arithmetic that is rounded correctly.

Sums, differences, products and quotients are the exact results, each rounded to the nearest double
precision number, the even one of two; what is too large for one becomes infinite
(`Binary64.Correct`).

The exact result is followed through the rounding: a mantissa together with the two bits behind it
says where it lies (`Binary64.Locates`), also after bits were shifted out, and that is all that is
needed to round it.

* `Binary64.near_roundWithAccuracy`: rounding of parts;
* `Binary64.correct_add`, `Binary64.correct_sub`, `Binary64.correct_mul`, `Binary64.correct_div`.
-/

namespace Fluxion.Binary64

open Float.Model Float.Model.UnpackedFloat

/-! ## mantissas and what is behind them -/

/-- Where a number lies: it is a mantissa, or behind it, before, at or behind the middle to the next
one. -/
def Locates (em : ExtendedMantissa) (y : ℝ) : Prop :=
  match em.roundBit, em.stickyBit with
  | false, false => y = em.mantissa
  | false, true => em.mantissa < y ∧ y - em.mantissa < em.mantissa + 1 - y
  | true, false => y - em.mantissa = em.mantissa + 1 - y
  | true, true => em.mantissa + 1 - y < y - em.mantissa ∧ y < em.mantissa + 1

section

variable {em : ExtendedMantissa} {y : ℝ}

/-- A located number lies between its mantissa and the next one. -/
theorem Locates.bounds (h : Locates em y) : em.mantissa ≤ y ∧ y < em.mantissa + 1 := by
  obtain ⟨m, r, s⟩ := em
  cases r <;> cases s <;> simp only [Locates] at h ⊢ <;> constructor <;> linarith

/-- The bit that is shifted out says on which side of the middle the number is. -/
theorem Locates.shiftRightOne (h : Locates em y) : Locates em.shiftRightOne (y / 2) := by
  obtain ⟨m, r, s⟩ := em
  have hm : (m : ℝ) = 2 * (m / 2 : ℕ) + (m % 2 : ℕ) := by exact_mod_cast (Nat.div_add_mod m 2).symm
  have hodd : (1 != 0) = true := rfl
  rcases Nat.mod_two_eq_zero_or_one m with hbit | hbit <;> rw [hbit] at hm <;> push_cast at hm <;>
    cases r <;> cases s <;>
    simp only [Locates, ExtendedMantissa.shiftRightOne, hbit, hodd, bne_self_eq_false, Bool.or_self,
      Bool.or_true, Bool.true_or] at h ⊢ <;>
    first | linarith | exact ⟨by linarith, by linarith⟩

/-- What is shifted out is kept in what is behind. -/
theorem Locates.shiftRight (h : Locates em y) (n : ℕ) : Locates (em >>> n) (y / 2 ^ n) := by
  induction n with
  | zero =>
      rw [pow_zero, div_one]
      exact h
  | succ n ih =>
      rw [pow_succ, ← div_div]
      exact ih.shiftRightOne

/-- The bits say which whole number is nearest. -/
theorem Locates.roundsTo (h : Locates em y) : RoundsTo y em.roundedMantissa := by
  obtain ⟨m, r, s⟩ := em
  cases r <;> cases s <;> simp only [Locates] at h <;>
    simp only [ExtendedMantissa.roundedMantissa, ExtendedMantissa.accuracy,
      Accuracy.roundToNearestEven]
  · rw [h]
    exact roundsTo_intCast m
  · exact roundsTo_of_lt (by push_cast; rw [abs_lt]; constructor <;> linarith)
  · -- in the middle the last bit decides
    have heven : Even ((m + m % 2 : ℕ) : ℤ) := by
      rw [Int.even_coe_nat, Nat.even_iff]
      omega
    have hy : y = m + 1 / 2 := by linarith
    refine ⟨?_, fun _ => heven⟩
    rcases Nat.mod_two_eq_zero_or_one m with hbit | hbit <;> rw [hy, hbit] <;> push_cast <;>
      rw [abs_le] <;> constructor <;> linarith
  · exact roundsTo_of_lt (by push_cast; rw [abs_lt]; constructor <;> linarith)

theorem locates_exact (m : ℕ) : Locates (.ofMantissaAndAccuracy m .exact) m := rfl

/-- The remainder says where a quotient lies. -/
theorem locates_div (num : ℕ) {den : ℕ} (hden : 0 < den) :
    Locates (.ofMantissaAndAccuracy (num / den) (accuracyOfFraction (num % den) den))
      (num / den) := by
  have hpos : (0 : ℝ) < den := Nat.cast_pos.mpr hden
  have hnum : (num : ℝ) / den = (num / den : ℕ) + (num % den : ℕ) / den := by
    rw [eq_comm, ← sub_eq_zero]
    have : (num : ℝ) = den * (num / den : ℕ) + (num % den : ℕ) := by
      exact_mod_cast (Nat.div_add_mod num den).symm
    field_simp
    linarith
  have hlt : ((num % den : ℕ) : ℝ) / den < 1 := by
    rw [div_lt_one hpos]
    exact Nat.cast_lt.mpr (Nat.mod_lt num hden)
  rw [hnum, accuracyOfFraction]
  generalize num % den = rest at hlt ⊢
  split
  next hzero =>
    rw [hzero, Nat.cast_zero, zero_div, add_zero]
    exact locates_exact _
  next hne =>
    have hrest : (0 : ℝ) < rest / den := div_pos (Nat.cast_pos.mpr (Nat.pos_of_ne_zero hne)) hpos
    have htwice : ((2 * rest : ℕ) : ℝ) / den = 2 * (rest / den) := by
      push_cast
      ring
    rcases lt_trichotomy (2 * rest) den with h | h | h
    · have hbefore : ((2 * rest : ℕ) : ℝ) / den < 1 := (div_lt_one hpos).mpr (Nat.cast_lt.mpr h)
      have hnear : ((num / den : ℕ) + rest / den - (num / den : ℕ) : ℝ) <
          (num / den : ℕ) + 1 - ((num / den : ℕ) + rest / den) := by linarith
      rw [compare_lt_iff_lt.mpr h]
      exact ⟨lt_add_of_pos_right _ hrest, hnear⟩
    · rw [h, div_self hpos.ne'] at htwice
      have hmiddle : ((num / den : ℕ) + rest / den - (num / den : ℕ) : ℝ) =
          (num / den : ℕ) + 1 - ((num / den : ℕ) + rest / den) := by linarith
      rw [compare_eq_iff_eq.mpr h]
      exact hmiddle
    · have hbehind : 1 < ((2 * rest : ℕ) : ℝ) / den := (one_lt_div hpos).mpr (Nat.cast_lt.mpr h)
      have hnear : (num / den : ℕ) + 1 - ((num / den : ℕ) + rest / den) <
          ((num / den : ℕ) + rest / den - (num / den : ℕ) : ℝ) := by linarith
      rw [compare_gt_iff_gt.mpr h]
      exact ⟨hnear, add_lt_add_right hlt _⟩

end

/-! ## rounding to the format -/

/-- The parts of a rounded magnitude.  Its exponent may still be too large. -/
inductive Near (s : Sign) (x : ℝ) : UnpackedFloat → Prop where
  | zero : nearest x = 0 → Near s x (.zero s)
  | finite (m : ℕ) (e : ℤ) (hc : Canonical m e) : nearest x = m * 2 ^ e →
      Near s x (.finite s m e hc.pos)

section

variable {s : Sign} {m : ℕ} {e : ℤ} {acc : Accuracy} {x y : ℝ}

/-- The exponent to which a mantissa is shifted is that of the spacing. -/
theorem targetExponent_eq_spacing (hpos : 0 < y) (hlow : m ≤ y) (hhigh : y < m + 1)
    (he : e ≤ Format.binary64.targetExponent (totalExponent m e)) :
    Format.binary64.targetExponent (totalExponent m e) = spacing (y * 2 ^ e) := by
  have hx : 0 < y * 2 ^ e := mul_pos hpos (zpow_pos two_pos e)
  rw [targetExponent_eq] at he ⊢
  rw [spacing_eq_max hx]
  rcases Nat.eq_zero_or_pos m with rfl | hm
  · -- nothing is left of the number before the least bit
    rw [Nat.log2_zero] at he ⊢
    have hlog : Int.log 2 (y * 2 ^ e) < e := by
      rw [log_lt_iff hx]
      exact mul_lt_of_lt_one_left (zpow_pos two_pos e) (by simpa using hhigh)
    omega
  · obtain ⟨hlog, hlog'⟩ := (Nat.log2_eq_iff hm.ne').mp rfl
    have hle : (2 : ℝ) ^ m.log2 ≤ y := le_trans (by exact_mod_cast hlog) hlow
    have hlt : y < (2 : ℝ) ^ (m.log2 + 1) := hhigh.trans_le (by exact_mod_cast hlog')
    have hbelow : m.log2 + e ≤ Int.log 2 (y * 2 ^ e) := by
      rw [le_log_iff hx, ← two_zpow_mul]
      exact mul_le_mul_of_nonneg_right hle (zpow_pos two_pos e).le
    have habove : Int.log 2 (y * 2 ^ e) < (m.log2 + 1 : ℕ) + e := by
      rw [log_lt_iff hx, ← two_zpow_mul]
      exact mul_lt_mul_of_pos_right hlt (zpow_pos two_pos e)
    push_cast at habove
    omega

/-- The multiple of the spacing to which a number is rounded. -/
theorem nearest_eq_mul {r : ℕ} {t : ℤ} (hx : 0 < x) (ht : spacing x = t)
    (hr : roundEven (x / 2 ^ t) = r) : nearest x = r * 2 ^ t ∧ r ≤ 2 ^ 53 ∧
      (2 ^ 52 ≤ r ∨ t = -1074) := by
  subst ht
  refine ⟨by rw [nearest_eq, hr, Int.cast_natCast], ?_, ?_⟩
  · have h := roundEven_mono (lt_spacing hx).le
    rw [hr, roundEven_two_pow] at h
    exact_mod_cast h
  · by_cases hleast : spacing x = -1074
    · exact .inr hleast
    · have h := roundEven_mono (le_spacing hx hleast)
      rw [hr, roundEven_two_pow] at h
      exact .inl (by exact_mod_cast h)

/-- A mantissa that was rounded up to one bit too many loses a zero. -/
theorem near_shifted (s : Sign) {r : ℕ} {t : ℤ} (hx : nearest x = r * 2 ^ t) (hle : r ≤ 2 ^ 53)
    (hleading : 2 ^ 52 ≤ r ∨ t = -1074) (hleast : -1074 ≤ t) :
    Near s x (let (em, e) := shiftToTargetExponent Format.binary64 r t .exact
      if h : em.mantissa = 0 then .zero s
      else .finite s em.mantissa e (Nat.pos_of_ne_zero h)) := by
  rcases hle.lt_or_eq with hlt | rfl
  · rw [shiftToTargetExponent_of_lt hlt hleast]
    by_cases hzero : r = 0
    · subst hzero
      exact .zero (by rw [hx, Nat.cast_zero, zero_mul])
    · dsimp only
      rw [dif_neg (show (bare r).mantissa ≠ 0 from hzero)]
      exact .finite r t ⟨Nat.pos_of_ne_zero hzero, hlt, hleast, hleading⟩ hx
  · rw [shiftToTargetExponent_two_pow hleast]
    refine .finite (2 ^ 52) (t + 1) ⟨by decide, by decide, by omega, .inl le_rfl⟩ ?_
    rw [hx, zpow_add_one₀ two_ne_zero]
    push_cast
    ring

/-- What is left once bits were shifted out is the number in multiples of its spacing. -/
theorem near_roundWithAccuracy (s : Sign) (hpos : 0 < y)
    (hy : Locates (.ofMantissaAndAccuracy m acc) y)
    (he : e ≤ Format.binary64.targetExponent (totalExponent m e)) :
    Near s (y * 2 ^ e) (roundWithAccuracy Format.binary64 s m e acc) := by
  obtain ⟨n, hn⟩ : ∃ n : ℕ, Format.binary64.targetExponent (totalExponent m e) = e + n :=
    ⟨(Format.binary64.targetExponent (totalExponent m e) - e).toNat, by omega⟩
  have hbounds : (m : ℝ) ≤ y ∧ y < m + 1 := by
    cases acc with
    | exact => exact hy.bounds
    | inexact o => cases o <;> exact hy.bounds
  have hspacing : spacing (y * 2 ^ e) = e + n := by
    rw [← targetExponent_eq_spacing hpos hbounds.1 hbounds.2 he, hn]
  have hround : roundEven (y * 2 ^ e / 2 ^ (e + n)) =
      (ExtendedMantissa.ofMantissaAndAccuracy m acc >>> n).roundedMantissa := by
    rw [zpow_add₀ two_ne_zero, zpow_natCast, mul_comm ((2 : ℝ) ^ e), mul_div_mul_right _ _
      (zpow_pos two_pos e).ne']
    exact roundEven_eq (hy.shiftRight n).roundsTo
  obtain ⟨hnearest, hle, hleading⟩ :=
    nearest_eq_mul (mul_pos hpos (zpow_pos two_pos e)) hspacing hround
  have hfirst : shiftToTargetExponent Format.binary64 m e acc =
      (ExtendedMantissa.ofMantissaAndAccuracy m acc >>> n, e + n) := by
    have hshift : Format.binary64.targetExponent (totalExponent m e) - e = n := by omega
    rw [shiftToTargetExponent, shiftToExponent, hshift, Int.toNat_natCast]
  rw [roundWithAccuracy, hfirst]
  exact near_shifted s hnearest hle hleading (hspacing ▸ le_max_right _ _)

/-- Decreasing the exponent makes room for all bits. -/
theorem near_round (s : Sign) (hm : 0 < m) :
    Near s (m * 2 ^ e) (UnpackedFloat.round Format.binary64 s m e) := by
  obtain ⟨t, ht⟩ : ∃ t, Format.binary64.targetExponent (totalExponent m e) = t := ⟨_, rfl⟩
  obtain ⟨d, hd⟩ : ∃ d, (e - t).toNat = d := ⟨_, rfl⟩
  have hkept : Format.binary64.targetExponent (totalExponent (m * 2 ^ d) (e - d)) = t := by
    rw [← ht, targetExponent_eq, targetExponent_eq, log2_mul_two_pow hm]
    push_cast
    congr 1
    omega
  have hvalue : ((m * 2 ^ d : ℕ) : ℝ) * 2 ^ (e - d) = m * 2 ^ e := by
    push_cast
    rw [mul_assoc, two_zpow_mul, add_sub_cancel]
  have hpos : (0 : ℝ) < (m * 2 ^ d : ℕ) := by positivity
  rw [UnpackedFloat.round, ht, decreaseExponent, hd, Nat.shiftLeft_eq, ← hvalue]
  exact near_roundWithAccuracy s hpos (locates_exact _) (by omega)

end

/-! ## machine numbers -/

/-- The machine number for an exact result: the nearest one, or infinity if that is too large. -/
inductive Correct (x : ℝ) (v : Float) : Prop where
  | finite : |x| < limit → Arith.finite v = true → value v = nearest x → Correct x v
  | above : limit ≤ x → parts v = .infinity .positive → Correct x v
  | below : x ≤ -limit → parts v = .infinity .negative → Correct x v

/-- A magnitude with a sign. -/
def signed (s : Sign) (x : ℝ) : ℝ :=
  match s with
  | .positive => x
  | .negative => -x

section

variable {s t : Sign} {x y : ℝ} {v w : Float}

theorem abs_signed (s : Sign) (x : ℝ) : |signed s x| = |x| := by
  cases s
  · exact abs_neg x
  · rfl

/-- Rounding keeps the sign. -/
theorem nearest_signed (s : Sign) (x : ℝ) : nearest (signed s x) = signed s (nearest x) := by
  cases s
  · exact nearest_neg x
  · rfl

/-- The sign of a product is the product of the signs. -/
theorem signed_mul_signed (s t : Sign) (x y : ℝ) :
    signed s x * signed t y = signed (s * t) (x * y) := by
  cases s <;> cases t
  · exact neg_mul_neg x y
  · exact neg_mul x y
  · exact mul_neg x y
  · rfl

/-- The value of a finite number from its parts. -/
theorem value_of_finite {m : ℕ} {e : ℤ} {h : 0 < m} (hv : parts v = .finite s m e h) :
    value v = signed s (m * 2 ^ e) := by
  rw [value, hv]
  cases s <;> simp [signed, Sign.apply]

theorem value_of_zero (hv : parts v = .zero s) : value v = 0 := by rw [value, hv]

theorem finite_of_parts {m : ℕ} {e : ℤ} {h : 0 < m} (hv : parts v = .finite s m e h) :
    Arith.finite v = true := by
  rw [finite_eq, hv]
  rfl

/-- A rounded number is finite exactly if it is below the limit. -/
theorem Correct.finite_iff (h : Correct x v) : Arith.finite v = true ↔ |x| < limit := by
  cases h with
  | finite hx hv => exact ⟨fun _ => hx, fun _ => hv⟩
  | above hx hv | below hx hv =>
      rw [finite_eq, hv]
      refine ⟨nofun, fun h => ?_⟩
      obtain ⟨hlow, hhigh⟩ := abs_lt.mp h
      linarith

/-- A rounded number that is finite is the nearest one. -/
theorem Correct.value_eq (h : Correct x v) (hv : Arith.finite v = true) : value v = nearest x := by
  cases h with
  | finite _ _ hvalue => exact hvalue
  | above _ h | below _ h =>
      rw [finite_eq, h] at hv
      cases hv

/-- Numbers are not rounded across a power of two. -/
theorem Correct.abs_le {k : ℕ} (h : Correct x v) (hx : |x| ≤ 2 ^ k) (hk : (2 : ℝ) ^ k < limit) :
    Arith.finite v = true ∧ |value v| ≤ 2 ^ k := by
  have hv := h.finite_iff.mpr (hx.trans_lt hk)
  exact ⟨hv, h.value_eq hv ▸ abs_nearest_le_two_pow hx⟩

/-- A rounded number is a number. -/
theorem Correct.ne_notANumber (h : Correct x v) : parts v ≠ .notANumber := by
  cases h with
  | finite _ hv =>
      intro hnan
      rw [finite_eq, hnan] at hv
      cases hv
  | above _ hv | below _ hv =>
      rw [hv]
      exact nofun

/-- Rounding treats both signs alike. -/
theorem Correct.neg (h : Correct x v) : Correct (-x) (-v) := by
  cases h with
  | finite hx hv hvalue =>
      refine .finite (by rwa [abs_neg]) (finite_neg hv) ?_
      rw [value_neg, hvalue, nearest_neg]
  | above hx hv => exact .below (neg_le_neg hx) (by rw [parts_neg, hv]; rfl)
  | below hx hv => exact .above (by linarith) (by rw [parts_neg, hv]; rfl)

theorem le_eq (v w : Float) : Arith.le v w = (parts v).le (parts w) :=
  Bool.decide_eq_true.trans Bool.decide_eq_true

theorem lt_eq (v w : Float) : Arith.lt v w = (parts v).lt (parts w) :=
  Bool.decide_eq_true.trans Bool.decide_eq_true

/-- Rounding keeps the order of the machine numbers as well. -/
theorem Correct.le (hv : Correct x v) (hw : Correct y w) (h : x ≤ y) : Arith.le v w = true := by
  have hpos := limit_pos
  rw [le_eq]
  cases hv with
  | finite hx hv hvalue =>
      cases hw with
      | finite _ hw hvalue' =>
          rw [parts_le_iff hv hw, hvalue, hvalue']
          exact nearest_mono h
      | above _ hw =>
          rw [hw]
          rw [finite_eq] at hv
          cases hparts : parts v with
          | notANumber | infinity => rw [hparts] at hv; cases hv
          | zero | finite => rfl
      | below hy => linarith [(abs_lt.mp hx).1]
  | above hx hv =>
      cases hw with
      | finite hy => linarith [(abs_lt.mp hy).2]
      | above _ hw =>
          rw [hv, hw]
          rfl
      | below hy => linarith
  | below hx hv =>
      rw [hv]
      cases hw with
      | finite _ hw =>
          rw [finite_eq] at hw
          cases hparts : parts w with
          | notANumber | infinity => rw [hparts] at hw; cases hw
          | zero | finite => rfl
      | above _ hw | below _ hw =>
          rw [hw]
          rfl

/-! ## storing rounded numbers -/

/-- A number of the format is below the next power. -/
theorem Canonical.lt_two_pow {m : ℕ} {e : ℤ} (hc : Canonical m e) (he : e ≤ 971) :
    (m * 2 ^ e : ℝ) < 2 ^ 1024 := by
  have hm : (m : ℝ) < 2 ^ 53 := by exact_mod_cast hc.lt
  calc (m * 2 ^ e : ℝ)
      < 2 ^ 53 * 2 ^ e := mul_lt_mul_of_pos_right hm (zpow_pos two_pos e)
    _ ≤ 2 ^ 53 * 2 ^ (971 : ℤ) :=
        mul_le_mul_of_nonneg_left (zpow_le_zpow_right₀ one_le_two he) (by positivity)
    _ = 2 ^ 1024 := two_pow_1024.symm

/-- What has a greater exponent is beyond the format. -/
theorem Canonical.two_pow_le {m : ℕ} {e : ℤ} (hc : Canonical m e) (he : 971 < e) :
    (2 ^ 1024 : ℝ) ≤ m * 2 ^ e := by
  have hm : (2 : ℝ) ^ 52 ≤ m := by exact_mod_cast hc.leading.resolve_right (by omega)
  calc (2 ^ 1024 : ℝ)
      = 2 ^ 52 * 2 ^ (972 : ℤ) := by
        rw [two_pow_1024, two_zpow_mul, two_zpow_mul]
        rfl
    _ ≤ 2 ^ 52 * 2 ^ e :=
        mul_le_mul_of_nonneg_left (zpow_le_zpow_right₀ one_le_two he) (by positivity)
    _ ≤ m * 2 ^ e := mul_le_mul_of_nonneg_right hm (zpow_pos two_pos e).le

/-- What is stored is the machine number for the magnitude and the sign. -/
theorem Near.correct {u : UnpackedFloat} (h : Near s x u) (hx : 0 < x) :
    Correct (signed s x) (.ofModel (Float.Model.pack u)) := by
  have hiff := abs_nearest_lt_iff (signed s x)
  rw [nearest_signed, abs_signed] at hiff
  cases h with
  | zero hzero =>
      have hparts : parts (.ofModel (Float.Model.pack (.zero s))) = .zero s := unpack_pack (.zero s)
      rw [hzero, abs_zero] at hiff
      refine .finite (hiff.mp (by positivity)) ?_ ?_
      · rw [finite_eq, hparts]
        rfl
      · rw [value_of_zero hparts, nearest_signed, hzero]
        cases s <;> simp [signed]
  | finite m e hc hm =>
      have hpos : (0 : ℝ) < m * 2 ^ e := by
        have := Nat.cast_pos (α := ℝ).mpr hc.pos
        positivity
      rw [hm, abs_of_pos hpos] at hiff
      rcases le_or_gt e 971 with he | he
      · have hparts : parts (.ofModel (Float.Model.pack (.finite s m e hc.pos))) =
            .finite s m e hc.pos := unpack_pack (hc.representable he)
        refine .finite (hiff.mp (hc.lt_two_pow he)) (finite_of_parts hparts) ?_
        rw [value_of_finite hparts, nearest_signed, hm]
      · have hparts : parts (.ofModel (Float.Model.pack (.finite s m e hc.pos))) = .infinity s :=
          unpack_pack_overflow s hc.pos he
        have hlarge : limit ≤ x := by
          rw [← abs_of_pos hx, ← abs_signed s x]
          exact not_lt.mp fun hlt => absurd (hiff.mpr hlt) (hc.two_pow_le he).not_gt
        cases s with
        | positive => exact .above hlarge hparts
        | negative => exact .below (neg_le_neg hlarge) hparts

/-- A machine number is the one for itself. -/
theorem correct_self (hv : Arith.finite v = true) : Correct (value v) v := by
  have hrep := representable_parts v
  cases hparts : parts v with
  | notANumber | infinity =>
      rw [finite_eq, hparts] at hv
      cases hv
  | zero s =>
      rw [value_of_zero hparts]
      exact .finite (by rw [abs_zero]; exact limit_pos) hv
        (by rw [value_of_zero hparts, nearest_zero])
  | finite s m e hm =>
      rw [hparts] at hrep
      obtain ⟨hc, he⟩ := hrep.canonical
      have hself : nearest (value v) = value v := by
        rw [value_of_finite hparts, nearest_signed]
        have hlt : |(m : ℤ)| < 2 ^ 53 := by
          rw [Nat.abs_cast]
          exact_mod_cast hc.lt
        have hkept := nearest_eq_self hlt hc.least
        rw [Int.cast_natCast] at hkept
        rw [hkept]
      refine .finite ?_ hv hself.symm
      rw [← abs_nearest_lt_iff, hself, value_of_finite hparts, abs_signed,
        abs_of_nonneg (by positivity)]
      exact hc.lt_two_pow he

theorem correct_zero (hv : parts v = .zero s) : Correct 0 v := by
  have hself := correct_self (v := v) (by rw [finite_eq, hv]; rfl)
  rwa [value_of_zero hv] at hself

/-! ## operations -/

/-- A normalized number is rounded. -/
theorem correct_normalize (m e : ℤ) :
    Correct (m * 2 ^ e)
      (.ofModel (Float.Model.pack (normalize Format.binary64 m e .positive))) := by
  rw [UnpackedFloat.normalize]
  rcases lt_trichotomy m 0 with hm | rfl | hm
  · have hcast : (m : ℝ) = -((-m).toNat : ℝ) := by
      have : ((-m).toNat : ℤ) = -m := Int.toNat_of_nonneg (by omega)
      rw [← Int.cast_natCast, this]
      simp
    have hpos : 0 < (-m).toNat := by omega
    have hcorrect := (near_round (e := e) .negative hpos).correct (by positivity)
    rw [compare_lt_iff_lt.mpr hm, hcast, neg_mul]
    exact hcorrect
  · rw [compare_eq_iff_eq.mpr rfl, Int.cast_zero, zero_mul]
    exact correct_zero (unpack_pack (.zero .positive))
  · have hcast : (m : ℝ) = (m.toNat : ℝ) := by
      rw [← Int.cast_natCast, Int.toNat_of_nonneg hm.le]
    have hpos : 0 < m.toNat := by omega
    have hcorrect := (near_round (e := e) .positive hpos).correct (by positivity)
    rw [compare_gt_iff_gt.mpr hm, hcast]
    exact hcorrect

/-- The value of a finite number, with its exponent decreased. -/
theorem value_decreased {m : ℕ} {e t : ℤ} {h : 0 < m} (hv : parts v = .finite s m e h)
    (ht : t ≤ e) : value v = (s.apply (decreaseExponent m e t).1 : ℤ) * 2 ^ t := by
  have hpow : (2 : ℝ) ^ e = 2 ^ (e - t).toNat * 2 ^ t := by
    rw [two_zpow_mul]
    congr 1
    omega
  rw [value_of_finite hv, hpow, decreaseExponent, Nat.shiftLeft_eq]
  cases s <;> simp only [signed, Sign.apply] <;> push_cast <;> ring

/-- Sums are rounded correctly. -/
theorem correct_add (hv : Arith.finite v = true) (hw : Arith.finite w = true) :
    Correct (value v + value w) (v + w) := by
  have hadd : v + w =
      .ofModel (Float.Model.pack (UnpackedFloat.add Format.binary64 (parts v) (parts w))) := rfl
  have hself {u : Float} (h : parts u = parts (v + w)) (hu : Arith.finite u = true) :
      Correct (value u) (v + w) := parts_injective h ▸ correct_self hu
  cases hpv : parts v with
  | notANumber | infinity => rw [finite_eq, hpv] at hv; cases hv
  | zero s =>
      rw [value_of_zero hpv, zero_add]
      cases hpw : parts w with
      | notANumber | infinity => rw [finite_eq, hpw] at hw; cases hw
      | zero t =>
          rw [value_of_zero hpw, hadd, hpv, hpw]
          cases s <;> cases t <;> exact correct_zero (unpack_pack (.zero _))
      | finite t m e h =>
          refine hself ?_ hw
          rw [hadd, hpv, hpw]
          exact (unpack_pack (hpw ▸ representable_parts w)).symm
  | finite s m e h =>
      cases hpw : parts w with
      | notANumber | infinity => rw [finite_eq, hpw] at hw; cases hw
      | zero t =>
          rw [value_of_zero hpw, add_zero]
          refine hself ?_ hv
          rw [hadd, hpv, hpw]
          exact (unpack_pack (hpv ▸ representable_parts v)).symm
      | finite t m' e' h' =>
          rw [value_decreased hpv (min_le_left e e'), value_decreased hpw (min_le_right e e'),
            ← add_mul, ← Int.cast_add, hadd, hpv, hpw]
          exact correct_normalize _ _

theorem sub_eq (v w : Float) : v - w = v + -w := by
  have hneg : v + -w =
      .ofModel (Float.Model.pack (UnpackedFloat.add Format.binary64 (parts v) (parts (-w)))) := rfl
  have hsub : v - w =
      .ofModel (Float.Model.pack (UnpackedFloat.sub Format.binary64 (parts v) (parts w))) := rfl
  rw [hsub, hneg, unpacked_sub_eq, parts_neg]

/-- Differences are rounded correctly. -/
theorem correct_sub (hv : Arith.finite v = true) (hw : Arith.finite w = true) :
    Correct (value v - value w) (v - w) := by
  rw [sub_eq, sub_eq_add_neg, ← value_neg]
  exact correct_add hv (finite_neg hw)

/-- Two mantissas have enough bits, unless the exponents are so small that none is needed. -/
theorem Canonical.mul_exponent_le {m m' : ℕ} {e e' : ℤ} (hc : Canonical m e)
    (hc' : Canonical m' e') :
    e + e' ≤ Format.binary64.targetExponent (totalExponent (m * m') (e + e')) := by
  rw [targetExponent_eq]
  have hlog {a b : ℕ} (ha : 2 ^ 52 ≤ a) (hb : 0 < b) : 52 ≤ (a * b).log2 :=
    (Nat.le_log2 (by positivity)).mpr (ha.trans (Nat.le_mul_of_pos_right a hb))
  rcases hc.leading with hm | he
  · have := hlog hm hc'.pos
    omega
  · rcases hc'.leading with hm' | he'
    · have := hlog hm' hc.pos
      rw [mul_comm] at this
      omega
    · omega

/-- Products are rounded correctly. -/
theorem correct_mul (hv : Arith.finite v = true) (hw : Arith.finite w = true) :
    Correct (value v * value w) (v * w) := by
  have hmul : v * w =
      .ofModel (Float.Model.pack (UnpackedFloat.mul Format.binary64 (parts v) (parts w))) := rfl
  cases hpv : parts v with
  | notANumber | infinity => rw [finite_eq, hpv] at hv; cases hv
  | zero s =>
      rw [value_of_zero hpv, zero_mul, hmul, hpv]
      cases hpw : parts w with
      | notANumber | infinity => rw [finite_eq, hpw] at hw; cases hw
      | zero t | finite t => exact correct_zero (unpack_pack (.zero (s * t)))
  | finite s m e h =>
      cases hpw : parts w with
      | notANumber | infinity => rw [finite_eq, hpw] at hw; cases hw
      | zero t =>
          rw [value_of_zero hpw, mul_zero, hmul, hpv, hpw]
          exact correct_zero (unpack_pack (.zero (s * t)))
      | finite t m' e' h' =>
          have hc := (hpv ▸ representable_parts v : Representable _).canonical.1
          have hc' := (hpw ▸ representable_parts w : Representable _).canonical.1
          have hvalue : (m * 2 ^ e : ℝ) * (m' * 2 ^ e') = (m * m' : ℕ) * 2 ^ (e + e') := by
            rw [zpow_add₀ two_ne_zero]
            push_cast
            ring
          rw [value_of_finite hpv, value_of_finite hpw, signed_mul_signed, hvalue, hmul, hpv, hpw]
          have hpos : (0 : ℝ) < (m * m' : ℕ) := Nat.cast_pos.mpr (Nat.mul_pos h h')
          exact (near_roundWithAccuracy (s * t) hpos (locates_exact _)
            (hc.mul_exponent_le hc')).correct (mul_pos hpos (zpow_pos two_pos _))

/-- A quotient has enough bits, unless its exponent is so small that none is needed. -/
theorem div_exponent_le {m m' d : ℕ} {t : ℤ} (hm : 0 < m) (hm' : 0 < m')
    (h : -1074 < t → m'.log2 + 53 ≤ m.log2 + d) :
    t ≤ Format.binary64.targetExponent (totalExponent (m * 2 ^ d / m') t) := by
  rw [targetExponent_eq]
  rcases le_or_gt t (-1074) with ht | ht
  · exact le_max_of_le_right ht
  · have hquotient : 2 ^ 52 ≤ m * 2 ^ d / m' := by
      rw [Nat.le_div_iff_mul_le hm']
      calc 2 ^ 52 * m'
          ≤ 2 ^ 52 * 2 ^ (m'.log2 + 1) := Nat.mul_le_mul_left _ Nat.lt_log2_self.le
        _ = 2 ^ (m'.log2 + 53) := by rw [← pow_add, Nat.add_comm, Nat.add_assoc]
        _ ≤ 2 ^ (m * 2 ^ d).log2 := by
            rw [log2_mul_two_pow hm]
            exact Nat.pow_le_pow_right two_pos (h ht)
        _ ≤ m * 2 ^ d := Nat.log2_self_le (Nat.mul_pos hm (Nat.two_pow_pos d)).ne'
    have hlog := (Nat.le_log2 (by omega)).mpr hquotient
    omega

/-- A quotient with its remainder is near the quotient of the values. -/
theorem near_div (s : Sign) {m m' : ℕ} (e e' : ℤ) (hm : 0 < m) (hm' : 0 < m') :
    Near s (m * 2 ^ e / (m' * 2 ^ e')) (
      let (q, t, acc) := divCore Format.binary64 m e m' e'
      roundWithAccuracy Format.binary64 s q t acc) := by
  obtain ⟨t, ht⟩ : ∃ t, min (e - e') (Format.binary64.targetExponent
      (totalExponent m e - totalExponent m' e')) = t := ⟨_, rfl⟩
  obtain ⟨d, hd⟩ : ∃ d : ℕ, e - e' = t + d := ⟨(e - e' - t).toNat, by omega⟩
  have hshift : (e - e' - t).toNat = d := by omega
  have hcore : divCore Format.binary64 m e m' e' =
      (m * 2 ^ d / m', t, accuracyOfFraction (m * 2 ^ d % m') m') := by
    rw [divCore, ht, hshift, Nat.shiftLeft_eq]
  have hvalue : (m * 2 ^ e / (m' * 2 ^ e') : ℝ) = (m * 2 ^ d : ℕ) / m' * 2 ^ t := by
    have hpow : (2 : ℝ) ^ e = 2 ^ e' * (2 ^ d * 2 ^ t) := by
      rw [two_zpow_mul, ← zpow_add₀ two_ne_zero]
      congr 1
      omega
    rw [hpow]
    push_cast
    field_simp
  have hexponent : t ≤ Format.binary64.targetExponent (totalExponent (m * 2 ^ d / m') t) := by
    refine div_exponent_le hm hm' fun hleast => ?_
    simp only [Format.targetExponent, totalExponent, Format.mantissaBits, Format.minExponent] at ht
    norm_num at ht
    omega
  rw [hcore, hvalue]
  exact near_roundWithAccuracy s (by positivity) (locates_div _ hm') hexponent

/-- The sign of a quotient is the quotient of the signs. -/
theorem signed_div_signed (s t : Sign) (x y : ℝ) :
    signed s x / signed t y = signed (s / t) (x / y) := by
  cases s <;> cases t
  · exact neg_div_neg_eq x y
  · exact neg_div y x
  · exact div_neg x
  · rfl

/-- Quotients are rounded correctly. -/
theorem correct_div (hv : Arith.finite v = true) (hw : Arith.finite w = true)
    (hzero : value w ≠ 0) : Correct (value v / value w) (v / w) := by
  have hdiv : v / w =
      .ofModel (Float.Model.pack (UnpackedFloat.div Format.binary64 (parts v) (parts w))) := rfl
  cases hpw : parts w with
  | notANumber | infinity => rw [finite_eq, hpw] at hw; cases hw
  | zero t => exact absurd (value_of_zero hpw) hzero
  | finite t m' e' h' =>
      cases hpv : parts v with
      | notANumber | infinity => rw [finite_eq, hpv] at hv; cases hv
      | zero s =>
          rw [value_of_zero hpv, zero_div, hdiv, hpv, hpw]
          exact correct_zero (unpack_pack (.zero (s / t)))
      | finite s m e h =>
          rw [value_of_finite hpv, value_of_finite hpw, signed_div_signed, hdiv, hpv, hpw]
          exact (near_div (s / t) e e' h h').correct (by positivity)

/-! ## what is not finite stays so -/

theorem finite_of_pack {u : UnpackedFloat} (h : (Float.Model.pack u).unpack.isFinite = true) :
    u.isFinite = true := by
  cases u with
  | notANumber => exact unpack_pack .notANumber ▸ h
  | infinity s => exact unpack_pack (.infinity s) ▸ h
  | zero | finite => rfl

/-- A finite sum has finite terms. -/
theorem isFinite_of_add {u u' : UnpackedFloat}
    (h : (UnpackedFloat.add Format.binary64 u u').isFinite = true) :
    u.isFinite = true ∧ u'.isFinite = true := by
  cases u with
  | notANumber => cases u' <;> cases h
  | infinity s =>
      cases u' with
      | infinity t => cases s <;> cases t <;> cases h
      | notANumber | zero | finite => cases h
  | zero | finite =>
      cases u' with
      | notANumber | infinity => cases h
      | zero | finite => exact ⟨rfl, rfl⟩

/-- A finite product has finite factors. -/
theorem isFinite_of_mul {u u' : UnpackedFloat}
    (h : (UnpackedFloat.mul Format.binary64 u u').isFinite = true) :
    u.isFinite = true ∧ u'.isFinite = true := by
  cases u with
  | notANumber | infinity => cases u' <;> cases h
  | zero | finite =>
      cases u' with
      | notANumber | infinity => cases h
      | zero | finite => exact ⟨rfl, rfl⟩

/-- A finite quotient has a finite dividend. -/
theorem isFinite_of_div {u u' : UnpackedFloat}
    (h : (UnpackedFloat.div Format.binary64 u u').isFinite = true) : u.isFinite = true := by
  cases u with
  | notANumber | infinity => cases u' <;> cases h
  | zero | finite => rfl

/-- A sum is finite if its terms are and it is not too large. -/
theorem finite_add_iff : Arith.finite (v + w) = true ↔
    (Arith.finite v = true ∧ Arith.finite w = true) ∧ |value v + value w| < limit := by
  constructor
  · intro h
    have hterms : Arith.finite v = true ∧ Arith.finite w = true :=
      isFinite_of_add (finite_of_pack h)
    exact ⟨hterms, (correct_add hterms.1 hterms.2).finite_iff.mp h⟩
  · rintro ⟨⟨hv, hw⟩, h⟩
    exact (correct_add hv hw).finite_iff.mpr h

/-- A difference is finite if both numbers are and it is below the limit. -/
theorem finite_sub_iff : Arith.finite (v - w) = true ↔
    (Arith.finite v = true ∧ Arith.finite w = true) ∧ |value v - value w| < limit := by
  have hneg : Arith.finite (-w) = true ↔ Arith.finite w = true := by
    rw [finite_eq, finite_eq, parts_neg, isFinite_neg]
  rw [sub_eq, finite_add_iff, value_neg, hneg, sub_eq_add_neg]

/-- A product is finite if its factors are and it is not too large. -/
theorem finite_mul_iff : Arith.finite (v * w) = true ↔
    (Arith.finite v = true ∧ Arith.finite w = true) ∧ |value v * value w| < limit := by
  constructor
  · intro h
    have hfactors : Arith.finite v = true ∧ Arith.finite w = true :=
      isFinite_of_mul (finite_of_pack h)
    exact ⟨hfactors, (correct_mul hfactors.1 hfactors.2).finite_iff.mp h⟩
  · rintro ⟨⟨hv, hw⟩, h⟩
    exact (correct_mul hv hw).finite_iff.mpr h

/-- A quotient is finite if its dividend is and it is not too large. -/
theorem finite_div_iff (hw : Arith.finite w = true) (hzero : value w ≠ 0) :
    Arith.finite (v / w) = true ↔ Arith.finite v = true ∧ |value v / value w| < limit := by
  constructor
  · intro h
    have hv : Arith.finite v = true := isFinite_of_div (finite_of_pack h)
    exact ⟨hv, (correct_div hv hw hzero).finite_iff.mp h⟩
  · rintro ⟨hv, h⟩
    exact (correct_div hv hw hzero).finite_iff.mpr h

end

end Fluxion.Binary64

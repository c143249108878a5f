import Mathlib

/-!
# Fluxion.Proofs.Number.Nearest

Rounding real numbers to double precision.

A number is rounded to a whole multiple of a power of two, of which there are less than `2 ^ 53` up
to the number, but which is not below the least positive number.  There the nearest multiple is
taken, the even one of two.  The result may be too large to be stored.

* `Binary64.nearest`: the nearest number of the format, with exponents as large as needed;
* `Binary64.nearest_mono`, `Binary64.nearest_neg`: rounding keeps the order and the sign;
* `Binary64.abs_sub_nearest_le`: no number of the format is nearer;
* `Binary64.nearest_eq_self`: what has 53 bits is kept;
* `Binary64.abs_nearest_lt_iff`: which results are not too large.
-/

namespace Fluxion.Binary64

/-! ## rounding to whole numbers -/

/-- The nearest whole number, the even one of two. -/
noncomputable def roundEven (y : ℝ) : ℤ :=
  if y - ⌊y⌋ < ⌈y⌉ - y then ⌊y⌋
  else if ⌈y⌉ - y < y - ⌊y⌋ then ⌈y⌉
  else if Even ⌊y⌋ then ⌊y⌋ else ⌈y⌉

/-- A nearest whole number, the even one of two. -/
structure RoundsTo (y : ℝ) (r : ℤ) : Prop where
  near : |y - r| ≤ 1 / 2
  even : |y - r| = 1 / 2 → Even r

section

variable {y z : ℝ} {r s : ℤ}

/-- A greater number is not rounded to a smaller one. -/
theorem RoundsTo.le_of_le (hy : RoundsTo y r) (hz : RoundsTo z s) (h : y ≤ z) : r ≤ s := by
  by_contra hlt
  obtain ⟨hyr, -⟩ := abs_le.mp hy.near
  obtain ⟨-, hzs⟩ := abs_le.mp hz.near
  have hle : (s : ℝ) + 1 ≤ r := by exact_mod_cast not_le.mp hlt
  -- both numbers lie in the middle between `s` and the next one, `r`
  have hr : Even r := hy.even (by rw [abs_eq (by norm_num)]; right; linarith)
  have hs : Even s := hz.even (by rw [abs_eq (by norm_num)]; left; linarith)
  have hnext : r = s + 1 := by
    have : (r : ℝ) = s + 1 := by linarith
    exact_mod_cast this
  rw [hnext, Int.even_add_one] at hr
  exact hr hs

/-- There is one whole number to which a number is rounded. -/
theorem RoundsTo.unique (hy : RoundsTo y r) (hz : RoundsTo y s) : r = s :=
  le_antisymm (hy.le_of_le hz le_rfl) (hz.le_of_le hy le_rfl)

/-- No whole number is nearer. -/
theorem RoundsTo.abs_sub_le_abs_sub (h : RoundsTo y r) (n : ℤ) : |y - r| ≤ |y - n| := by
  rcases eq_or_ne n r with rfl | hne
  · exact le_rfl
  · have hone : 1 ≤ |(n : ℝ) - r| := by exact_mod_cast Int.one_le_abs (sub_ne_zero.mpr hne)
    linarith [h.near, abs_sub_le (n : ℝ) y r, abs_sub_comm (n : ℝ) y]

/-- Opposite numbers are rounded to opposite ones. -/
theorem RoundsTo.neg (h : RoundsTo y r) : RoundsTo (-y) (-r) := by
  have habs : |-y - ((-r : ℤ) : ℝ)| = |y - r| := by
    rw [Int.cast_neg, ← neg_sub', abs_neg]
  exact ⟨habs ▸ h.near, fun htie => even_neg.mpr (h.even (habs ▸ htie))⟩

theorem roundsTo_intCast (n : ℤ) : RoundsTo n n := ⟨by simp, by simp⟩

/-- A number is rounded to a whole one that is less than a half away. -/
theorem roundsTo_of_lt (h : |y - r| < 1 / 2) : RoundsTo y r :=
  ⟨h.le, fun htie => absurd htie h.ne⟩

/-- Rounding half to even goes to a nearest whole number. -/
theorem roundsTo_roundEven (y : ℝ) : RoundsTo y (roundEven y) := by
  by_cases hwhole : (⌊y⌋ : ℝ) = y
  · have hself : roundEven y = ⌊y⌋ := by
      have hceil : ⌈y⌉ = ⌊y⌋ := by rw [← hwhole, Int.ceil_intCast, Int.floor_intCast]
      simp only [roundEven, hceil, ite_self]
    rw [hself, ← hwhole, Int.floor_intCast]
    exact roundsTo_intCast _
  · have hlow : (⌊y⌋ : ℝ) < y := (Int.floor_le y).lt_of_ne hwhole
    have hhigh : y < ⌊y⌋ + 1 := Int.lt_floor_add_one y
    have hceil : ⌈y⌉ = ⌊y⌋ + 1 := Int.ceil_eq_iff.mpr (by
      push_cast
      exact ⟨by linarith, hhigh.le⟩)
    rw [roundEven, hceil]
    push_cast
    generalize ⌊y⌋ = r at hlow hhigh
    split_ifs with hbefore hbehind heven
    · exact roundsTo_of_lt (by rw [abs_lt]; constructor <;> linarith)
    · exact roundsTo_of_lt (by push_cast; rw [abs_lt]; constructor <;> linarith)
    · exact ⟨by rw [abs_le]; constructor <;> linarith, fun _ => heven⟩
    · have hnext : Even (r + 1) := Int.even_add_one.mpr heven
      exact ⟨by push_cast; rw [abs_le]; constructor <;> linarith, fun _ => hnext⟩

theorem roundEven_eq (h : RoundsTo y r) : roundEven y = r := (roundsTo_roundEven y).unique h

/-- Rounding treats both signs alike. -/
theorem roundEven_neg (y : ℝ) : roundEven (-y) = -roundEven y :=
  roundEven_eq (roundsTo_roundEven y).neg

theorem roundEven_intCast (n : ℤ) : roundEven n = n := roundEven_eq (roundsTo_intCast n)

theorem roundEven_two_pow (k : ℕ) : roundEven (2 ^ k) = 2 ^ k := by
  exact_mod_cast roundEven_intCast (2 ^ k)

/-- Rounding keeps the order. -/
theorem roundEven_mono (h : y ≤ z) : roundEven y ≤ roundEven z :=
  (roundsTo_roundEven y).le_of_le (roundsTo_roundEven z) h

end

/-! ## rounding to the format -/

/-- The exponent of the power of two to whose multiples a number is rounded. -/
noncomputable def spacing (x : ℝ) : ℤ := max (Int.log 2 |x| - 52) (-1074)

/-- The nearest number of 53 bits that is a multiple of the least positive one, the even one of
two.  It may be too large to be stored. -/
noncomputable def nearest (x : ℝ) : ℝ :=
  roundEven (x / ((2 : ℕ) : ℝ) ^ spacing x) * ((2 : ℕ) : ℝ) ^ spacing x

/-- Numbers from this one on are too large: it lies in the middle between the largest number and
the power of two that would come next. -/
def limit : ℝ := ((2 ^ 1024 - 2 ^ 970 : ℤ) : ℝ)

section

variable {x y : ℝ}

/-- The nearest number of the format is a whole multiple of the spacing. -/
theorem nearest_eq (x : ℝ) : nearest x = roundEven (x / 2 ^ spacing x) * 2 ^ spacing x := by
  rw [nearest, Nat.cast_ofNat]

theorem limit_eq_sub : limit = 2 ^ 1024 - 2 ^ 970 := by
  rw [limit, Int.cast_sub, Int.cast_pow, Int.cast_pow, Int.cast_ofNat]

/-- The spacing is that of the absolute value. -/
theorem spacing_neg (x : ℝ) : spacing (-x) = spacing x := by rw [spacing, spacing, abs_neg]

/-- Rounding to the format treats both signs alike. -/
theorem nearest_neg (x : ℝ) : nearest (-x) = -nearest x := by
  rw [nearest_eq, nearest_eq, spacing_neg, neg_div, roundEven_neg, Int.cast_neg, neg_mul]

theorem nearest_zero : nearest 0 = 0 := by
  have hzero : roundEven 0 = 0 := by exact_mod_cast roundEven_intCast 0
  rw [nearest_eq, zero_div, hzero, Int.cast_zero, zero_mul]

/-- The exponent of a number is below another one exactly if the number is below its power. -/
theorem log_lt_iff {e : ℤ} (hx : 0 < x) : Int.log 2 x < e ↔ x < 2 ^ e := by
  exact_mod_cast (Int.lt_zpow_iff_log_lt one_lt_two hx).symm

/-- The exponent of a number is at least another one exactly if the number is. -/
theorem le_log_iff {e : ℤ} (hx : 0 < x) : e ≤ Int.log 2 x ↔ 2 ^ e ≤ x := by
  exact_mod_cast (Int.zpow_le_iff_le_log one_lt_two hx).symm

/-- The spacing is that of the mantissa, or the least one. -/
theorem spacing_eq_max (hx : 0 < x) : spacing x = max (Int.log 2 x - 52) (-1074) := by
  rw [spacing, abs_of_pos hx]

theorem two_zpow_spacing_pos (x : ℝ) : (0 : ℝ) < 2 ^ spacing x := zpow_pos two_pos _

/-- A number is below `2 ^ 53` times its spacing. -/
theorem lt_spacing (hx : 0 < x) : x / 2 ^ spacing x < 2 ^ 53 := by
  have hlog : Int.log 2 x < 53 + spacing x := by
    rw [spacing_eq_max hx]
    omega
  rw [div_lt_iff₀ (two_zpow_spacing_pos x), ← zpow_natCast, ← zpow_add₀ two_ne_zero]
  exact (log_lt_iff hx).mp hlog

/-- A number is not below `2 ^ 52` times its spacing, unless the spacing is the least one. -/
theorem le_spacing (hx : 0 < x) (h : spacing x ≠ -1074) : 2 ^ 52 ≤ x / 2 ^ spacing x := by
  have hlog : 52 + spacing x ≤ Int.log 2 x := by
    rw [spacing_eq_max hx] at h ⊢
    omega
  rw [le_div_iff₀ (two_zpow_spacing_pos x), ← zpow_natCast, ← zpow_add₀ two_ne_zero]
  exact (le_log_iff hx).mp hlog

/-- Greater numbers are not more densely spaced. -/
theorem spacing_mono (hx : 0 < x) (h : x ≤ y) : spacing x ≤ spacing y := by
  have hlog : Int.log 2 x ≤ Int.log 2 y := Int.log_mono_right hx h
  rw [spacing_eq_max hx, spacing_eq_max (hx.trans_le h)]
  omega

/-- Rounding does not make a number negative. -/
theorem nearest_nonneg (hx : 0 ≤ x) : 0 ≤ nearest x := by
  have hround : roundEven ((0 : ℤ) : ℝ) ≤ roundEven (x / 2 ^ spacing x) :=
    roundEven_mono (by rw [Int.cast_zero]; positivity)
  rw [roundEven_intCast] at hround
  exact mul_nonneg (Int.cast_nonneg hround) (two_zpow_spacing_pos x).le

/-- A rounded number has a mantissa of the format, or is the next power. -/
theorem nearest_le (hx : 0 < x) : nearest x ≤ 2 ^ 53 * 2 ^ spacing x := by
  have hround := roundEven_mono (lt_spacing hx).le
  rw [roundEven_two_pow] at hround
  exact mul_le_mul_of_nonneg_right (by exact_mod_cast hround) (two_zpow_spacing_pos x).le

/-- Above the least spacing the mantissa has its leading bit. -/
theorem le_nearest (hx : 0 < x) (h : spacing x ≠ -1074) : 2 ^ 52 * 2 ^ spacing x ≤ nearest x := by
  have hround := roundEven_mono (le_spacing hx h)
  rw [roundEven_two_pow] at hround
  exact mul_le_mul_of_nonneg_right (by exact_mod_cast hround) (two_zpow_spacing_pos x).le

/-- Rounding to the format keeps the order of positive numbers. -/
theorem nearest_mono_of_pos (hx : 0 < x) (h : x ≤ y) : nearest x ≤ nearest y := by
  have hy : 0 < y := hx.trans_le h
  rcases (spacing_mono hx h).eq_or_lt with heq | hlt
  · rw [nearest_eq, nearest_eq, ← heq]
    have hdiv : x / 2 ^ spacing x ≤ y / 2 ^ spacing x :=
      div_le_div_of_nonneg_right h (two_zpow_spacing_pos x).le
    exact mul_le_mul_of_nonneg_right (Int.cast_le.mpr (roundEven_mono hdiv))
      (two_zpow_spacing_pos x).le
  · have hleast : spacing y ≠ -1074 := by
      have : -1074 ≤ spacing x := le_max_right _ _
      omega
    calc nearest x
        ≤ 2 ^ 53 * 2 ^ spacing x := nearest_le hx
      _ = 2 ^ 52 * 2 ^ (spacing x + 1) := by
          rw [zpow_add_one₀ two_ne_zero]
          ring
      _ ≤ 2 ^ 52 * 2 ^ spacing y := by
          refine mul_le_mul_of_nonneg_left ?_ (by positivity)
          exact zpow_le_zpow_right₀ one_le_two hlt
      _ ≤ nearest y := le_nearest hy hleast

/-- Rounding keeps the order. -/
theorem nearest_mono (h : x ≤ y) : nearest x ≤ nearest y := by
  rcases lt_trichotomy 0 x with hx | rfl | hx
  · exact nearest_mono_of_pos hx h
  · rw [nearest_zero]
    exact nearest_nonneg h
  · rcases le_or_gt 0 y with hy | hy
    · have hnonpos : 0 ≤ nearest (-x) := nearest_nonneg (by linarith)
      rw [nearest_neg] at hnonpos
      exact (by linarith : nearest x ≤ 0).trans (nearest_nonneg hy)
    · have hneg := nearest_mono_of_pos (neg_pos.mpr hy) (neg_le_neg h)
      rw [nearest_neg, nearest_neg] at hneg
      exact neg_le_neg_iff.mp hneg

/-- Rounding goes through the absolute value. -/
theorem abs_nearest (x : ℝ) : |nearest x| = nearest |x| := by
  rcases le_total 0 x with hx | hx
  · rw [abs_of_nonneg hx, abs_of_nonneg (nearest_nonneg hx)]
  · have hnonneg := nearest_nonneg (neg_nonneg.mpr hx)
    rw [abs_of_nonpos hx, nearest_neg, ← abs_neg, abs_of_nonneg]
    rwa [nearest_neg] at hnonneg

/-- A number of 53 bits is kept. -/
theorem nearest_eq_self {c j : ℤ} (hc : |c| < 2 ^ 53) (hj : -1074 ≤ j) :
    nearest (c * 2 ^ j) = c * 2 ^ j := by
  rcases eq_or_ne c 0 with rfl | hne
  · rw [Int.cast_zero, zero_mul, nearest_zero]
  have habs : |(c * 2 ^ j : ℝ)| = |(c : ℝ)| * 2 ^ j := by
    rw [abs_mul, abs_of_pos (zpow_pos two_pos j : (0 : ℝ) < 2 ^ j)]
  have hlog : Int.log 2 |(c * 2 ^ j : ℝ)| < 53 + j := by
    have hlt : |(c : ℝ)| < 2 ^ 53 := by exact_mod_cast hc
    rw [habs, log_lt_iff (by positivity), zpow_add₀ two_ne_zero]
    exact mul_lt_mul_of_pos_right hlt (zpow_pos two_pos j)
  obtain ⟨e, he⟩ : ∃ e, spacing (c * 2 ^ j) = e := ⟨_, rfl⟩
  obtain ⟨d, hd⟩ : ∃ d : ℕ, j = e + d := ⟨(j - e).toNat, by
    rw [spacing] at he
    omega⟩
  have hdiv : (c * 2 ^ j / 2 ^ e : ℝ) = ((c * 2 ^ d : ℤ) : ℝ) := by
    rw [hd, zpow_add₀ two_ne_zero, zpow_natCast]
    push_cast
    field_simp
  rw [nearest_eq, he, hdiv, roundEven_intCast, ← hdiv, div_mul_cancel₀ _ (zpow_pos two_pos e).ne']

/-- Numbers below half of the least positive one are rounded to zero. -/
theorem nearest_eq_zero (h : |x| < 2 ^ (-1075 : ℤ)) : nearest x = 0 := by
  rcases (abs_nonneg x).eq_or_lt with hzero | hpos
  · rw [abs_eq_zero.mp hzero.symm, nearest_zero]
  · have hlog : Int.log 2 |x| < -1075 := (log_lt_iff hpos).mpr h
    have hspacing : spacing |x| = -1074 := by
      rw [spacing_eq_max hpos]
      omega
    have hround : RoundsTo (|x| / 2 ^ (-1074 : ℤ)) 0 := by
      refine roundsTo_of_lt ?_
      have hhalf : (2 : ℝ) ^ (-1075 : ℤ) = 1 / 2 * 2 ^ (-1074 : ℤ) := by
        rw [show (-1075 : ℤ) = -1074 - 1 by rfl, zpow_sub_one₀ two_ne_zero]
        ring
      rw [Int.cast_zero, sub_zero, abs_of_pos (by positivity), div_lt_iff₀ (by positivity), ← hhalf]
      exact h
    rw [← abs_eq_zero, abs_nearest, nearest_eq, hspacing, roundEven_eq hround, Int.cast_zero,
      zero_mul]

/-- No multiple of the spacing is nearer. -/
theorem abs_sub_nearest_le_multiple (x : ℝ) (n : ℤ) :
    |x - nearest x| ≤ |x - n * 2 ^ spacing x| := by
  have hpos := two_zpow_spacing_pos x
  have hscaled (r : ℤ) : |x - r * 2 ^ spacing x| = |x / 2 ^ spacing x - r| * 2 ^ spacing x := by
    rw [← abs_of_pos hpos, ← abs_mul, abs_of_pos hpos, sub_mul, div_mul_cancel₀ _ hpos.ne']
  rw [nearest_eq, hscaled, hscaled]
  exact mul_le_mul_of_nonneg_right ((roundsTo_roundEven _).abs_sub_le_abs_sub n) hpos.le

/-- No number of the format is nearer to a positive one than its rounded one. -/
theorem abs_sub_nearest_le_of_pos {c j : ℤ} (hx : 0 < x) (hc : |c| ≤ 2 ^ 53) (hj : -1074 ≤ j) :
    |x - nearest x| ≤ |x - c * 2 ^ j| := by
  rcases le_or_gt (spacing x) j with hle | hlt
  · obtain ⟨d, rfl⟩ := Int.le.dest hle
    have hmultiple : (c * 2 ^ (spacing x + d) : ℝ) = (c * 2 ^ d : ℤ) * 2 ^ spacing x := by
      rw [zpow_add₀ two_ne_zero, zpow_natCast]
      push_cast
      ring
    rw [hmultiple]
    exact abs_sub_nearest_le_multiple x _
  · -- all numbers with a smaller exponent lie below the least multiple with 53 bits
    have hfloor : (2 ^ 52 * 2 ^ spacing x : ℝ) ≤ x := by
      rw [← le_div_iff₀ (two_zpow_spacing_pos x)]
      exact le_spacing hx (by omega)
    have hc' : (c : ℝ) ≤ 2 ^ 53 := by exact_mod_cast (le_abs_self c).trans hc
    have hbelow : (c * 2 ^ j : ℝ) ≤ 2 ^ 52 * 2 ^ spacing x :=
      calc (c * 2 ^ j : ℝ)
          ≤ 2 ^ 53 * 2 ^ j := mul_le_mul_of_nonneg_right hc' (zpow_pos two_pos j).le
        _ = 2 ^ 52 * 2 ^ (j + 1) := by
            rw [zpow_add_one₀ two_ne_zero]
            ring
        _ ≤ 2 ^ 52 * 2 ^ spacing x := by
            refine mul_le_mul_of_nonneg_left ?_ (by positivity)
            exact zpow_le_zpow_right₀ one_le_two hlt
    have hmultiple := abs_sub_nearest_le_multiple x (2 ^ 52)
    rw [Int.cast_pow, Int.cast_ofNat, abs_of_nonneg (sub_nonneg.mpr hfloor)] at hmultiple
    rw [abs_of_nonneg (sub_nonneg.mpr (hbelow.trans hfloor))]
    linarith

/-- No number of the format is nearer. -/
theorem abs_sub_nearest_le (x : ℝ) {c j : ℤ} (hc : |c| ≤ 2 ^ 53) (hj : -1074 ≤ j) :
    |x - nearest x| ≤ |x - c * 2 ^ j| := by
  rcases lt_trichotomy x 0 with hx | rfl | hx
  · have hneg := abs_sub_nearest_le_of_pos (neg_pos.mpr hx) ((abs_neg c).trans_le hc) hj
    rwa [nearest_neg, Int.cast_neg, neg_mul, ← neg_sub', ← neg_sub', abs_neg, abs_neg] at hneg
  · rw [nearest_zero, sub_zero, abs_zero]
    exact abs_nonneg _
  · exact abs_sub_nearest_le_of_pos hx hc hj

theorem two_zpow_mul (k : ℕ) (e : ℤ) : (2 : ℝ) ^ k * 2 ^ e = 2 ^ (k + e) := by
  rw [← zpow_natCast, ← zpow_add₀ two_ne_zero]

/-- Rounding does not go beyond a power of two. -/
theorem abs_nearest_le_two_pow {k : ℕ} (h : |x| ≤ 2 ^ k) : |nearest x| ≤ 2 ^ k := by
  have hself : nearest (2 ^ k) = 2 ^ k := by
    have := nearest_eq_self (c := 1) (j := k) (by decide) (by omega)
    rwa [Int.cast_one, one_mul, zpow_natCast] at this
  rw [abs_nearest, ← hself]
  exact nearest_mono h

theorem two_pow_1024 : (2 : ℝ) ^ 1024 = 2 ^ 53 * 2 ^ (971 : ℤ) := by
  rw [two_zpow_mul, ← zpow_natCast]
  rfl

/-- The limit is half a step beyond the greatest number. -/
theorem limit_eq : limit = (2 ^ 53 - 1 / 2) * 2 ^ (971 : ℤ) := by
  have hhalf : (2 : ℝ) ^ 970 = 1 / 2 * 2 ^ (971 : ℤ) := by
    rw [← zpow_natCast, show (971 : ℤ) = (970 : ℕ) + 1 by rfl, zpow_add_one₀ two_ne_zero]
    ring
  rw [limit_eq_sub, two_pow_1024, hhalf, sub_mul]

theorem limit_lt : limit < 2 ^ 1024 := limit_eq_sub ▸ sub_lt_self _ (by positivity)

/-- The greatest power of two of the format is below the limit. -/
theorem two_zpow_lt_limit : (2 : ℝ) ^ (1023 : ℤ) < limit := by
  have hpow : (2 : ℝ) ^ (1023 : ℤ) = 2 ^ 52 * 2 ^ (971 : ℤ) := (two_zpow_mul 52 971).symm
  rw [limit_eq, hpow]
  exact mul_lt_mul_of_pos_right (by norm_num) (by positivity)

theorem two_pow_lt_limit {k : ℕ} (hk : k ≤ 1023) : (2 : ℝ) ^ k < limit :=
  calc (2 : ℝ) ^ k
      ≤ 2 ^ 1023 := pow_le_pow_right₀ one_le_two hk
    _ = 2 ^ (1023 : ℤ) := (zpow_natCast 2 1023).symm
    _ < limit := two_zpow_lt_limit

theorem limit_pos : 0 < limit := (zpow_pos two_pos _).trans two_zpow_lt_limit

/-- The limit is rounded to the power of two above it. -/
theorem nearest_limit : nearest limit = 2 ^ 1024 := by
  have hlog : Int.log 2 limit = 1023 := by
    have hlow : 1023 ≤ Int.log 2 limit := (le_log_iff limit_pos).mpr two_zpow_lt_limit.le
    have hhigh : Int.log 2 limit < 1024 := (log_lt_iff limit_pos).mpr (by exact_mod_cast limit_lt)
    omega
  have hspacing : spacing limit = 971 := by rw [spacing_eq_max limit_pos, hlog]; rfl
  have htie : RoundsTo (2 ^ 53 - 1 / 2) (2 ^ 53) :=
    ⟨by norm_num, fun _ => ⟨2 ^ 52, by norm_num⟩⟩
  rw [nearest_eq, hspacing, limit_eq, mul_div_cancel_right₀ _ (by positivity), roundEven_eq htie,
    two_pow_1024, Int.cast_pow, Int.cast_ofNat]

/-- What is below the limit is not rounded up to infinity. -/
theorem nearest_lt_of_lt_limit (hx : 0 < x) (h : x < limit) : nearest x < 2 ^ 1024 := by
  have hlog : Int.log 2 x < 1024 := by
    rw [log_lt_iff hx]
    exact_mod_cast h.trans limit_lt
  have hspacing : spacing x ≤ 971 := by
    rw [spacing_eq_max hx]
    omega
  rw [two_pow_1024]
  rcases hspacing.eq_or_lt with heq | hlt
  · have hnear := (abs_le.mp (roundsTo_roundEven (x / 2 ^ (971 : ℤ))).near).1
    have hdiv : x / 2 ^ (971 : ℤ) < 2 ^ 53 - 1 / 2 := by
      rw [div_lt_iff₀ (by positivity), ← limit_eq]
      exact h
    rw [nearest_eq, heq]
    exact mul_lt_mul_of_pos_right (by linarith) (by positivity)
  · calc nearest x
        ≤ 2 ^ 53 * 2 ^ spacing x := nearest_le hx
      _ < 2 ^ 53 * 2 ^ (971 : ℤ) := by
          refine mul_lt_mul_of_pos_left ?_ (by positivity)
          exact zpow_lt_zpow_right₀ one_lt_two hlt

/-- What is rounded to a number that is not too large is below the limit. -/
theorem abs_nearest_lt_iff (x : ℝ) : |nearest x| < 2 ^ 1024 ↔ |x| < limit := by
  rw [abs_nearest]
  constructor
  · intro h
    by_contra hx
    have := nearest_mono (not_lt.mp hx)
    rw [nearest_limit] at this
    exact absurd h this.not_gt
  · intro h
    rcases (abs_nonneg x).eq_or_lt with hzero | hpos
    · rw [← hzero, nearest_zero]
      positivity
    · exact nearest_lt_of_lt_limit hpos h

end

end Fluxion.Binary64

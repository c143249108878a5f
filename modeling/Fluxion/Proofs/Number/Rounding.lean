import Mathlib
import Fluxion.Proofs.Number.Units

/-!
# Fluxion.Proofs.Number.Rounding

Rounded sums and differences.

Results are rounded to 53 bits.  That they go to the nearest number is not used: it is enough that
no number of 53 bits lies strictly between the exact result and the rounded one
(`Binary64.Faithful`).  Then a result of 53 bits is exact, and a result compares with numbers of 53
bits as the exact one does.

Rounding is followed in units, from whole numbers to mantissas that are shifted, to parts that are
stored, and to sums.

* `Binary64.faithful_of_quotient`: dropping bits of a whole number;
* `Binary64.rounds_roundWithAccuracy`, `Binary64.rounds_round`: rounding of parts;
* `Binary64.Rounds.rounded`: storing them, which makes infinity of what is too large;
* `Binary64.rounded_add`, `Binary64.rounded_sub`: sums and differences.
-/

namespace Fluxion.Binary64

open Float.Model Float.Model.UnpackedFloat

/-! ## rounding whole numbers -/

/-- How many bits have to go for 53 to be left. -/
def surplus (n : ℕ) : ℕ := n.log2 - 52

/-- No number of 53 bits lies strictly between two numbers. -/
structure Faithful (n k : ℕ) : Prop where
  lower : ∀ c j, c < 2 ^ 53 → c * 2 ^ j ≤ n → c * 2 ^ j ≤ k
  upper : ∀ c j, c < 2 ^ 53 → n ≤ c * 2 ^ j → k ≤ c * 2 ^ j

theorem two_pow_le_of_surplus_pos {n : ℕ} (h : 0 < surplus n) : 2 ^ 52 * 2 ^ surplus n ≤ n := by
  have hlog : 52 + surplus n = n.log2 := by
    unfold surplus at h ⊢
    omega
  have hn : n ≠ 0 := by
    rintro rfl
    simp [surplus] at h
  rw [← pow_add, hlog]
  exact Nat.log2_self_le hn

theorem mul_pow_lt_of_lt {c j t : ℕ} (hc : c < 2 ^ 53) (hj : j < t) :
    c * 2 ^ j < 2 ^ 52 * 2 ^ t := by
  calc c * 2 ^ j
      < 2 ^ 53 * 2 ^ j := Nat.mul_lt_mul_of_pos_right hc (Nat.two_pow_pos j)
    _ = 2 ^ 52 * 2 ^ (j + 1) := by ring
    _ ≤ 2 ^ 52 * 2 ^ t := Nat.mul_le_mul_left _ (Nat.pow_le_pow_right two_pos hj)

theorem mul_pow_eq {c j t : ℕ} (h : t ≤ j) : c * 2 ^ j = c * 2 ^ (j - t) * 2 ^ t := by
  rw [mul_assoc, ← pow_add, Nat.sub_add_cancel h]

/-- Dropping the surplus bits is faithful, up or down, if numbers without such bits are kept. -/
theorem faithful_of_quotient {n r : ℕ} (hlow : n / 2 ^ surplus n ≤ r)
    (hhigh : r ≤ n / 2 ^ surplus n + 1) (hexact : 2 ^ surplus n ∣ n → r = n / 2 ^ surplus n) :
    Faithful n (r * 2 ^ surplus n) where
  lower := by
    intro c j hc h
    rcases le_or_gt (surplus n) j with hj | hj
    · rw [mul_pow_eq hj] at h ⊢
      exact Nat.mul_le_mul_right _
        (((Nat.le_div_iff_mul_le (Nat.two_pow_pos _)).mpr h).trans hlow)
    · have hn := two_pow_le_of_surplus_pos (by omega : 0 < surplus n)
      exact (mul_pow_lt_of_lt hc hj).le.trans (Nat.mul_le_mul_right _
        (((Nat.le_div_iff_mul_le (Nat.two_pow_pos _)).mpr hn).trans hlow))
  upper := by
    intro c j hc h
    rcases le_or_gt (surplus n) j with hj | hj
    · rw [mul_pow_eq hj] at h ⊢
      refine Nat.mul_le_mul_right _ ?_
      by_cases hdvd : 2 ^ surplus n ∣ n
      · rw [hexact hdvd]
        exact Nat.div_le_of_le_mul (by rwa [mul_comm])
      · have hlt : n < c * 2 ^ (j - surplus n) * 2 ^ surplus n :=
          lt_of_le_of_ne h fun heq => hdvd (Dvd.intro_left _ heq.symm)
        exact hhigh.trans ((Nat.div_lt_iff_lt_mul (Nat.two_pow_pos _)).mpr hlt)
    · have hn := two_pow_le_of_surplus_pos (by omega : 0 < surplus n)
      exact absurd (h.trans_lt (mul_pow_lt_of_lt hc hj)) hn.not_gt

/-- What is left of a number without its surplus bits has 53 bits, or is the next power of two. -/
theorem Faithful.mantissa_bounds {n r : ℕ} (hn : 0 < n) (h : Faithful n (r * 2 ^ surplus n)) :
    0 < r ∧ r ≤ 2 ^ 53 ∧ (2 ^ 52 ≤ r ∨ surplus n = 0) := by
  have hpos := Nat.two_pow_pos (surplus n)
  have hone : 1 ≤ r * 2 ^ surplus n := h.lower 1 0 (by decide) hn
  refine ⟨Nat.pos_of_mul_pos_right hone, ?_, ?_⟩
  · have hlog : n.log2 + 1 ≤ 53 + surplus n := by
      unfold surplus
      omega
    have hlt : n ≤ 1 * 2 ^ (53 + surplus n) := by
      rw [one_mul]
      exact (((Nat.log2_eq_iff hn.ne').mp rfl).2.trans_le (Nat.pow_le_pow_right two_pos hlog)).le
    have hle := h.upper 1 _ (by decide) hlt
    rw [one_mul, pow_add] at hle
    exact Nat.le_of_mul_le_mul_right hle hpos
  · rcases Nat.eq_zero_or_pos (surplus n) with h0 | h0
    · exact .inr h0
    · have hle := h.lower 1 (52 + surplus n) (by decide)
        (by rw [one_mul, pow_add]; exact two_pow_le_of_surplus_pos h0)
      rw [one_mul, pow_add] at hle
      exact .inl (Nat.le_of_mul_le_mul_right hle hpos)

/-! ## shifting mantissas -/

theorem roundedMantissa_bounds (em : ExtendedMantissa) :
    em.mantissa ≤ em.roundedMantissa ∧ em.roundedMantissa ≤ em.mantissa + 1 := by
  obtain ⟨m, r, s⟩ := em
  cases r <;> cases s <;>
    simp only [ExtendedMantissa.roundedMantissa, ExtendedMantissa.accuracy,
      Accuracy.roundToNearestEven] <;> omega

/-- A mantissa with nothing behind its last bit. -/
def bare (m : ℕ) : ExtendedMantissa := ⟨m, false, false⟩

theorem bare_shift_mantissa (m n : ℕ) : (bare m >>> n).mantissa = m / 2 ^ n := by
  induction n with
  | zero => exact (Nat.div_one m).symm
  | succ n ih =>
      change (bare m >>> n).mantissa / 2 = _
      rw [ih, Nat.div_div_eq_div_mul, pow_succ]

/-- Shifting zeros out leaves a mantissa bare. -/
theorem bare_shift_of_dvd {m n : ℕ} (h : 2 ^ n ∣ m) : bare m >>> n = bare (m / 2 ^ n) := by
  induction n with
  | zero => exact congrArg bare (Nat.div_one m).symm
  | succ n ih =>
      change (bare m >>> n).shiftRightOne = _
      rw [ih ((pow_dvd_pow 2 n.le_succ).trans h)]
      have heven : m / 2 ^ n % 2 = 0 := by
        refine Nat.mod_eq_zero_of_dvd ?_
        rw [Nat.dvd_div_iff_mul_dvd ((pow_dvd_pow 2 n.le_succ).trans h)]
        exact h
      simp only [bare, ExtendedMantissa.shiftRightOne, heven, Nat.div_div_eq_div_mul, pow_succ]
      rfl

/-- The exponent to which a mantissa is shifted. -/
theorem targetExponent_eq (m : ℕ) (e : ℤ) :
    Format.binary64.targetExponent (totalExponent m e) = max (m.log2 + e - 52) (-1074) := by
  simp only [Format.targetExponent, totalExponent, Format.mantissaBits, Format.minExponent]
  norm_num
  omega

theorem shiftToTargetExponent_eq {m : ℕ} {e : ℤ} {n : ℕ}
    (h : Format.binary64.targetExponent (totalExponent m e) - e = n) :
    shiftToTargetExponent Format.binary64 m e .exact = (bare m >>> n, e + n) := by
  rw [shiftToTargetExponent, shiftToExponent, h, Int.toNat_natCast]
  rfl

/-- A mantissa that fits stays. -/
theorem shiftToTargetExponent_of_lt {m : ℕ} {e : ℤ} (hm : m < 2 ^ 53) (he : -1074 ≤ e) :
    shiftToTargetExponent Format.binary64 m e .exact = (bare m, e) := by
  have hlog : m.log2 ≤ 52 := by
    rcases Nat.eq_zero_or_pos m with rfl | hpos
    · simp
    · have := (Nat.log2_lt hpos.ne').mpr hm
      omega
  have htarget := targetExponent_eq m e
  rw [shiftToTargetExponent, shiftToExponent,
    show (Format.binary64.targetExponent (totalExponent m e) - e).toNat = 0 by omega]
  exact congrArg (Prod.mk (bare m)) (add_zero e)

/-- A mantissa that was rounded up to one bit too many loses a zero. -/
theorem shiftToTargetExponent_two_pow {e : ℤ} (he : -1074 ≤ e) :
    shiftToTargetExponent Format.binary64 (2 ^ 53) e .exact = (bare (2 ^ 52), e + 1) := by
  have htarget := targetExponent_eq (2 ^ 53) e
  rw [Nat.log2_two_pow] at htarget
  exact shiftToTargetExponent_eq (n := 1) (by push_cast at htarget ⊢; omega)

/-! ## rounding to the format -/

/-- A rounded number: there is room for its mantissa, and it is as close to `n` units as there is
room for.  Its exponent may still be too large. -/
inductive Rounds (s : Sign) (n : ℕ) : UnpackedFloat → Prop where
  | intro (m : ℕ) (e : ℤ) (hc : Canonical m e) (hf : Faithful n (m * 2 ^ (e + 1074).toNat)) :
      Rounds s n (.finite s m e hc.pos)

theorem log2_mul_two_pow {m : ℕ} (hm : 0 < m) (k : ℕ) : (m * 2 ^ k).log2 = m.log2 + k := by
  rw [Nat.log2_eq_iff (Nat.mul_pos hm (Nat.two_pow_pos k)).ne']
  have h := (Nat.log2_eq_iff hm.ne').mp rfl
  constructor
  · rw [pow_add]
    exact Nat.mul_le_mul_right _ h.1
  · rw [Nat.add_right_comm, pow_add]
    exact Nat.mul_lt_mul_of_pos_right h.2 (Nat.two_pow_pos k)

/-- The bits that go when `m * 2 ^ k` is rounded are those shifted out of `m`, after `k` zeros. -/
theorem faithful_roundedMantissa {m k n : ℕ} (hn : surplus (m * 2 ^ k) = n + k) :
    Faithful (m * 2 ^ k) ((bare m >>> n).roundedMantissa * 2 ^ (n + k)) := by
  have hquotient : m * 2 ^ k / 2 ^ (n + k) = (bare m >>> n).mantissa := by
    rw [bare_shift_mantissa, pow_add, Nat.mul_div_mul_right _ _ (Nat.two_pow_pos k)]
  have hbounds := roundedMantissa_bounds (bare m >>> n)
  rw [← hn] at hquotient ⊢
  refine faithful_of_quotient (hquotient ▸ hbounds.1) (hquotient ▸ hbounds.2) fun hdvd => ?_
  rw [hn, pow_add, Nat.mul_dvd_mul_iff_right (Nat.two_pow_pos k)] at hdvd
  rw [hquotient, bare_shift_of_dvd hdvd]
  rfl

theorem rounds_roundWithAccuracy (s : Sign) {m : ℕ} {e : ℤ} (hm : 0 < m) (he : -1074 ≤ e)
    (htarget : e ≤ Format.binary64.targetExponent (totalExponent m e)) :
    Rounds s (m * 2 ^ (e + 1074).toNat)
      (roundWithAccuracy Format.binary64 s m e .exact) := by
  obtain ⟨k, hk⟩ : ∃ k : ℕ, e + 1074 = k := ⟨_, (Int.toNat_of_nonneg (by omega)).symm⟩
  obtain ⟨n, hn⟩ : ∃ n : ℕ, Format.binary64.targetExponent (totalExponent m e) - e = n :=
    ⟨_, (Int.toNat_of_nonneg (by omega)).symm⟩
  have hsurplus : surplus (m * 2 ^ k) = n + k := by
    rw [targetExponent_eq] at hn
    rw [surplus, log2_mul_two_pow hm]
    omega
  have hf := faithful_roundedMantissa hsurplus
  obtain ⟨hpos, hle, hleading⟩ :=
    (hsurplus ▸ hf).mantissa_bounds (Nat.mul_pos hm (Nat.two_pow_pos k))
  rw [hk, Int.toNat_natCast, roundWithAccuracy, shiftToTargetExponent_eq hn]
  dsimp only
  generalize (bare m >>> n).roundedMantissa = r at hf hpos hle hleading ⊢
  rcases hle.lt_or_eq with hlt | rfl
  · rw [shiftToTargetExponent_of_lt hlt (by omega)]
    have hexponent : (e + n + 1074).toNat = n + k := by omega
    have hc : Canonical r (e + n) := ⟨hpos, hlt, by omega, hleading.imp_right (by omega)⟩
    rw [dif_neg (show (bare r).mantissa ≠ 0 from hpos.ne')]
    exact .intro r (e + n) hc (hexponent ▸ hf)
  · rw [shiftToTargetExponent_two_pow (by omega)]
    have hexponent : (e + n + 1 + 1074).toNat = n + k + 1 := by omega
    have hc : Canonical (2 ^ 52) (e + n + 1) := ⟨by decide, by decide, by omega, .inl le_rfl⟩
    refine .intro (2 ^ 52) (e + n + 1) hc ?_
    have hvalue : 2 ^ 53 * 2 ^ (n + k) = 2 ^ 52 * 2 ^ (n + k + 1) := by ring
    rw [hexponent, ← hvalue]
    exact hf

/-- The same number with a smaller exponent. -/
theorem decreaseExponent_eq {m : ℕ} {e t : ℤ} (ht : -1074 ≤ t) (he : -1074 ≤ e) :
    ∃ d : ℕ, decreaseExponent m e t = (m * 2 ^ d, e - d) ∧ e - d = min e t ∧
      m * 2 ^ d * 2 ^ (e - d + 1074).toNat = m * 2 ^ (e + 1074).toNat := by
  refine ⟨(e - t).toNat, ?_, by omega, ?_⟩
  · rw [decreaseExponent, Nat.shiftLeft_eq]
  · rw [mul_assoc, ← pow_add]
    congr 2
    omega

/-- A number of `m * 2 ^ (e + 1074)` units is rounded. -/
theorem rounds_round (s : Sign) {m : ℕ} {e : ℤ} (hm : 0 < m) (he : -1074 ≤ e) :
    Rounds s (m * 2 ^ (e + 1074).toNat) (UnpackedFloat.round Format.binary64 s m e) := by
  have htarget := targetExponent_eq m e
  obtain ⟨d, hd, hmin, hunits⟩ := decreaseExponent_eq (m := m) (e := e)
    (t := Format.binary64.targetExponent (totalExponent m e)) (by omega) he
  have hkept : Format.binary64.targetExponent (totalExponent (m * 2 ^ d) (e - d)) =
      Format.binary64.targetExponent (totalExponent m e) := by
    rw [targetExponent_eq, targetExponent_eq, log2_mul_two_pow hm]
    push_cast
    congr 1
    omega
  rw [UnpackedFloat.round, hd, ← hunits]
  exact rounds_roundWithAccuracy s (Nat.mul_pos hm (Nat.two_pow_pos d)) (by omega) (by omega)

/-! ## rounded numbers -/

/-- There is room for a number of units: it has 53 bits, and is not too large. -/
def Fits (x : ℤ) : Prop := ∃ (c : ℤ) (j : ℕ), |c| < 2 ^ 53 ∧ j ≤ 2045 ∧ x = c * 2 ^ j

/-- The parts of a number that is the rounding of `x` units: it is finite unless `x` is too large,
and no number for which there is room lies strictly between the two. -/
structure Rounded (x : ℤ) (u : UnpackedFloat) : Prop where
  finite : ∀ y, Fits y → |x| ≤ y → u.isFinite = true
  lower : u.isFinite = true → ∀ y, Fits y → y ≤ x → y ≤ units u
  upper : u.isFinite = true → ∀ y, Fits y → x ≤ y → units u ≤ y

theorem fits_zero : Fits 0 := ⟨0, 0, by decide, by decide, by simp⟩

theorem Fits.neg {x : ℤ} (h : Fits x) : Fits (-x) := by
  obtain ⟨c, j, hc, hj, rfl⟩ := h
  exact ⟨-c, j, by rwa [abs_neg], hj, by ring⟩

theorem Fits.abs {x : ℤ} (h : Fits x) : Fits |x| := by
  rcases abs_choice x with hx | hx
  · rwa [hx]
  · rw [hx]
    exact h.neg

theorem Fits.exists_natCast {y : ℤ} (h : Fits y) (hy : 0 ≤ y) :
    ∃ c j : ℕ, c < 2 ^ 53 ∧ j ≤ 2045 ∧ y = (c * 2 ^ j : ℕ) := by
  obtain ⟨c, j, hc, hj, rfl⟩ := h
  obtain ⟨c, rfl⟩ := Int.eq_ofNat_of_zero_le (nonneg_of_mul_nonneg_left hy (by positivity))
  rw [Nat.abs_cast] at hc
  exact ⟨c, j, by exact_mod_cast hc, hj, by push_cast; rfl⟩

theorem fits_sign_apply (s : Sign) {m j : ℕ} (hm : m < 2 ^ 53) (hj : j ≤ 2045) :
    Fits (s.apply (m * 2 ^ j : ℕ)) := by
  have h : Fits (m * 2 ^ j : ℕ) := ⟨m, j, by rw [Nat.abs_cast]; exact_mod_cast hm, hj, by simp⟩
  cases s
  · exact h.neg
  · exact h

/-- There is room for what is stored. -/
theorem fits_units (v : Float) : Fits (units (parts v)) := by
  have hv := representable_parts v
  cases h : parts v with
  | notANumber | infinity | zero => exact fits_zero
  | finite s m e hm =>
      rw [h] at hv
      obtain ⟨hc, he⟩ := hv.canonical
      exact fits_sign_apply s hc.lt (by omega)

/-- A number for which there is room is not changed by rounding. -/
theorem Rounded.exact {x : ℤ} {u : UnpackedFloat} (h : Rounded x u) (hx : Fits x) :
    u.isFinite = true ∧ units u = x := by
  have hfinite := h.finite |x| hx.abs le_rfl
  exact ⟨hfinite, le_antisymm (h.upper hfinite x hx le_rfl) (h.lower hfinite x hx le_rfl)⟩

/-- What is not changed is rounded. -/
theorem rounded_self {x : ℤ} {u : UnpackedFloat} (hu : u.isFinite = true) (hx : units u = x) :
    Rounded x u := by
  subst hx
  exact ⟨fun _ _ _ => hu, fun _ _ _ h => h, fun _ _ _ h => h⟩

theorem Faithful.le_of_fits {n k : ℕ} (h : Faithful n k) {y : ℤ} (hy : Fits y) (hyn : y ≤ n) :
    y ≤ k := by
  rcases le_or_gt 0 y with h0 | h0
  · obtain ⟨c, j, hc, -, rfl⟩ := hy.exists_natCast h0
    exact_mod_cast h.lower c j hc (by exact_mod_cast hyn)
  · exact h0.le.trans (Int.natCast_nonneg k)

theorem Faithful.ge_of_fits {n k : ℕ} (h : Faithful n k) {y : ℤ} (hy : Fits y) (hny : n ≤ y) :
    k ≤ y := by
  obtain ⟨c, j, hc, -, rfl⟩ := hy.exists_natCast ((Int.natCast_nonneg n).trans hny)
  exact_mod_cast h.upper c j hc (by exact_mod_cast hny)

/-- A rounded magnitude that is too large stands for a number that is too large. -/
theorem Faithful.not_le_of_overflow {n m : ℕ} {e : ℤ} (hc : Canonical m e) (he : 971 < e)
    (h : Faithful n (m * 2 ^ (e + 1074).toNat)) {c j : ℕ} (hcj : c < 2 ^ 53) (hj : j ≤ 2045) :
    ¬n ≤ c * 2 ^ j := by
  intro hn
  have hm : 2 ^ 52 ≤ m := hc.leading.resolve_right (by omega)
  have hlarge : 2 ^ 52 * 2 ^ (j + 1) ≤ m * 2 ^ (e + 1074).toNat :=
    Nat.mul_le_mul hm (Nat.pow_le_pow_right two_pos (by omega))
  exact absurd (hlarge.trans (h.upper c j hcj hn)) (mul_pow_lt_of_lt hcj j.lt_succ_self).not_ge

/-- Exponents that are too large are stored as infinity. -/
theorem unpack_pack_overflow (s : Sign) {m : ℕ} {e : ℤ} (hm : 0 < m) (he : 971 < e) :
    (Float.Model.pack (.finite s m e hm)).unpack = .infinity s := by
  have hpack : UnpackedFloat.pack Format.binary64 (.finite s m e hm) =
      packedInfinity Format.binary64 s := by
    unfold UnpackedFloat.pack
    dsimp only
    rw [biased_eq, if_pos (by omega)]
  change UnpackedFloat.unpack Format.binary64 (UnpackedFloat.pack Format.binary64 _) = _
  rw [hpack]
  cases s <;> rfl

/-- Storing a rounded number only makes infinity of what is too large. -/
theorem Rounds.rounded {s : Sign} {n : ℕ} {u : UnpackedFloat} (h : Rounds s n u) :
    Rounded (s.apply n) (Float.Model.pack u).unpack := by
  obtain ⟨m, e, hc, hf⟩ := h
  rcases le_or_gt e 971 with he | he
  · rw [unpack_pack (hc.representable he)]
    refine ⟨fun _ _ _ => rfl, fun _ y hy hyx => ?_, fun _ y hy hxy => ?_⟩
    · cases s with
      | positive => exact hf.le_of_fits hy hyx
      | negative => exact le_neg_of_le_neg (hf.ge_of_fits hy.neg (le_neg_of_le_neg hyx))
    · cases s with
      | positive => exact hf.ge_of_fits hy hxy
      | negative => exact neg_le_of_neg_le (hf.le_of_fits hy.neg (neg_le_of_neg_le hxy))
  · rw [unpack_pack_overflow s hc.pos he]
    have hinfinite : ¬(UnpackedFloat.infinity s).isFinite = true := Bool.false_ne_true
    refine ⟨fun y hy hxy => ?_, fun h => absurd h hinfinite, fun h => absurd h hinfinite⟩
    have hxy' : (n : ℤ) ≤ y := by cases s <;> simpa [Sign.apply] using hxy
    obtain ⟨c, j, hcj, hj, rfl⟩ := hy.exists_natCast ((Int.natCast_nonneg n).trans hxy')
    exact absurd (Int.ofNat_le.mp hxy') (hf.not_le_of_overflow hc he hcj hj)

/-! ## magnitudes of rounded numbers -/

section

variable {x : ℤ} {u : UnpackedFloat}

theorem Rounded.neg (h : Rounded x u) : Rounded (-x) u.neg where
  finite := by
    intro y hy hxy
    rw [abs_neg] at hxy
    exact (isFinite_neg u).trans (h.finite y hy hxy)
  lower := by
    intro hu y hy hyx
    rw [units_neg]
    exact le_neg_of_le_neg (h.upper (isFinite_neg u ▸ hu) (-y) hy.neg (le_neg_of_le_neg hyx))
  upper := by
    intro hu y hy hxy
    rw [units_neg]
    exact neg_le_of_neg_le (h.lower (isFinite_neg u ▸ hu) (-y) hy.neg (neg_le_of_neg_le hxy))

/-- Rounding does not take a magnitude below a number for which there is room. -/
theorem Rounded.le_abs_units (h : Rounded x u) (hu : u.isFinite = true) {y : ℤ} (hy : Fits y)
    (hyx : y ≤ |x|) : y ≤ |units u| := by
  rcases le_abs.mp hyx with hyx | hyx
  · exact (h.lower hu y hy hyx).trans (le_abs_self _)
  · exact (le_neg_of_le_neg (h.upper hu (-y) hy.neg (le_neg_of_le_neg hyx))).trans (neg_le_abs _)

end

/-! ## sums and differences -/

theorem sign_apply_mul (s : Sign) (a b : ℕ) : s.apply (a * b : ℕ) = s.apply a * b := by
  cases s <;> simp [Sign.apply]

/-- Whole multiples of a power of two are rounded. -/
theorem rounded_normalize {m e : ℤ} (he : -1074 ≤ e) :
    Rounded (m * 2 ^ (e + 1074).toNat)
      (Float.Model.pack (normalize Format.binary64 m e .positive)).unpack := by
  rw [UnpackedFloat.normalize]
  rcases lt_trichotomy m 0 with hm | rfl | hm
  · have hr := (rounds_round .negative (m := (-m).toNat) (by omega) he).rounded
    have hx : Sign.negative.apply (-m).toNat = m := by
      rw [Sign.apply, Int.toNat_of_nonneg (by omega), neg_neg]
    rw [sign_apply_mul, hx] at hr
    rw [compare_lt_iff_lt.mpr hm]
    exact_mod_cast hr
  · rw [compare_eq_iff_eq.mpr rfl, zero_mul]
    dsimp only
    rw [unpack_pack (.zero _)]
    exact rounded_self rfl rfl
  · have hr := (rounds_round .positive (m := m.toNat) (by omega) he).rounded
    have hx : Sign.positive.apply m.toNat = m := by
      rw [Sign.apply, Int.toNat_of_nonneg hm.le]
    rw [sign_apply_mul, hx] at hr
    rw [compare_gt_iff_gt.mpr hm]
    exact_mod_cast hr

/-- A sum is rounded: with both exponents decreased to the smaller one the mantissas are added. -/
theorem rounded_add_finite {s s' : Sign} {m m' : ℕ} {e e' : ℤ} (hm : 0 < m) (hm' : 0 < m')
    (he : -1074 ≤ e) (he' : -1074 ≤ e') :
    Rounded (units (.finite s m e hm) + units (.finite s' m' e' hm'))
      (Float.Model.pack (UnpackedFloat.add Format.binary64 (.finite s m e hm)
        (.finite s' m' e' hm'))).unpack := by
  obtain ⟨d, hd, hmin, hunits⟩ := decreaseExponent_eq (m := m) (t := min e e') (by omega) he
  obtain ⟨d', hd', hmin', hunits'⟩ := decreaseExponent_eq (m := m') (t := min e e') (by omega) he'
  rw [show e - d = min e e' by omega] at hunits
  rw [show e' - d' = min e e' by omega] at hunits'
  rw [UnpackedFloat.add, hd, hd']
  have hsum : (s.apply (m * 2 ^ d : ℕ) + s'.apply (m' * 2 ^ d' : ℕ)) *
      2 ^ (min e e' + 1074).toNat =
      units (.finite s m e hm) + units (.finite s' m' e' hm') := by
    simp only [units, ← hunits, ← hunits', sign_apply_mul, add_mul, Nat.cast_pow, Nat.cast_ofNat]
  exact hsum ▸ rounded_normalize (by omega)

/-- Adding zero needs no rounding. -/
theorem rounded_add_zero {u w : UnpackedFloat} (hu : Representable u) (hw : Representable w)
    (hfu : u.isFinite = true) (hfw : w.isFinite = true)
    (h : (∃ s, u = .zero s) ∨ ∃ s, w = .zero s) :
    Rounded (units u + units w)
      (Float.Model.pack (UnpackedFloat.add Format.binary64 u w)).unpack := by
  rcases h with ⟨s, rfl⟩ | ⟨s, rfl⟩
  · cases w with
    | notANumber | infinity => cases hfw
    | zero s' => cases s <;> cases s' <;> exact rounded_self rfl rfl
    | finite =>
        rw [units_zero, zero_add]
        exact (unpack_pack hw).symm ▸ rounded_self rfl rfl
  · cases u with
    | notANumber | infinity => cases hfu
    | zero s' => cases s <;> cases s' <;> exact rounded_self rfl rfl
    | finite =>
        rw [units_zero, add_zero]
        exact (unpack_pack hu).symm ▸ rounded_self rfl rfl

theorem rounded_unpacked_add {u w : UnpackedFloat} (hu : Representable u) (hw : Representable w)
    (hfu : u.isFinite = true) (hfw : w.isFinite = true) :
    Rounded (units u + units w)
      (Float.Model.pack (UnpackedFloat.add Format.binary64 u w)).unpack := by
  cases u with
  | notANumber | infinity => cases hfu
  | zero s => exact rounded_add_zero hu hw rfl hfw (.inl ⟨s, rfl⟩)
  | finite s m e hm =>
      cases w with
      | notANumber | infinity => cases hfw
      | zero s' => exact rounded_add_zero hu hw rfl rfl (.inr ⟨s', rfl⟩)
      | finite s' m' e' hm' =>
          exact rounded_add_finite hm hm' hu.canonical.1.least hw.canonical.1.least

/-- A difference is the sum with the negation. -/
theorem unpacked_sub_eq (u w : UnpackedFloat) :
    UnpackedFloat.sub Format.binary64 u w = UnpackedFloat.add Format.binary64 u w.neg := by
  cases u with
  | notANumber => rfl
  | infinity s => cases w <;> rfl
  | zero s => cases w <;> rfl
  | finite s m e hm =>
      cases w with
      | notANumber | infinity | zero => rfl
      | finite s' m' e' hm' =>
          have hneg (n : ℤ) : (-s').apply n = -s'.apply n := by
            cases s'
            · exact (neg_neg n).symm
            · rfl
          simp only [UnpackedFloat.sub, UnpackedFloat.add, UnpackedFloat.neg, hneg, sub_eq_add_neg]

section

variable {v w : Float}

/-- Sums are rounded. -/
theorem rounded_add (hv : Arith.finite v = true) (hw : Arith.finite w = true) :
    Rounded (units (parts v) + units (parts w)) (parts (v + w)) :=
  rounded_unpacked_add (representable_parts v) (representable_parts w) hv hw

/-- Differences are rounded. -/
theorem rounded_sub (hv : Arith.finite v = true) (hw : Arith.finite w = true) :
    Rounded (units (parts v) - units (parts w)) (parts (v - w)) := by
  have hsub : parts (v - w) = (Float.Model.pack (UnpackedFloat.add Format.binary64 (parts v)
      (parts w).neg)).unpack :=
    congrArg (fun u => (Float.Model.pack u).unpack) (unpacked_sub_eq (parts v) (parts w))
  have hneg : (parts w).neg.isFinite = true := by
    rw [← parts_neg]
    exact finite_neg hw
  rw [hsub, sub_eq_add_neg, ← units_neg]
  exact rounded_unpacked_add (representable_parts v) (representable_parts w).neg hv hneg

end

end Fluxion.Binary64

import Mathlib
import Fluxion.Proofs.Number.Rounding

/-!
# Fluxion.Proofs.Number.Tolerance

Comparisons within the tolerance.

The rules of simplification ask whether a literal is near zero or near one, or near a whole number
and of which parity.  The differences are rounded on the way, the tolerance itself is not quite a
millionth, and the nearest whole number is found by adding and taking away `2 ^ 52`.  None of this
matters for a literal that is not merely near: such comparisons come out as for the values.

* `Binary64.near_eq`: numbers near each other;
* `Binary64.round_spec`, `Binary64.wholeParity_eq`: the nearest whole number and its parity;
* `parity_value`: the parity of a number near a whole one.
-/

namespace Fluxion

namespace Binary64

open Float.Model Float.Model.UnpackedFloat

/-! ## numbers that are close -/

section

variable {d v w : Float}

theorem closer_eq (d v w : Float) : closer d v w = (parts (v - w)).abs.lt (parts d) := by
  rw [← parts_abs]
  exact Bool.decide_eq_true.trans Bool.decide_eq_true

theorem closer_iff (hd : Arith.finite d = true) (h : Arith.finite (v - w) = true) :
    closer d v w = true ↔ |units (parts (v - w))| < units (parts d) := by
  have habs : Representable (parts (v - w)).abs := (representable_parts _).abs
  rw [closer_eq, lt_iff_units habs (representable_parts d) ((isFinite_abs _).trans h) hd, units_abs]

/-- Equal numbers are closer than any positive number. -/
theorem closer_of_eq (hd : Arith.finite d = true) (hpos : 0 < value d)
    (hv : Arith.finite v = true) (hw : Arith.finite w = true) (h : value v = value w) :
    closer d v w = true := by
  have hr := rounded_sub hv hw
  rw [value_eq_iff.mp h, sub_self] at hr
  obtain ⟨hfinite, hunits⟩ := hr.exact fits_zero
  rw [closer_iff hd hfinite, hunits, abs_zero, ← units_zero .positive, ← parts_zero,
    ← value_lt_iff, value_zero]
  exact hpos

/-- What is not finite is not below a finite number in magnitude. -/
theorem not_abs_lt_of_not_finite {u t : UnpackedFloat} (hu : ¬u.isFinite = true)
    (ht : t.isFinite = true) : u.abs.lt t = false := by
  cases u with
  | zero | finite => exact absurd rfl hu
  | notANumber => rfl
  | infinity s =>
      cases t with
      | notANumber | infinity => cases ht
      | zero | finite => rfl

/-- Rounding does not bring numbers closer than a number that is itself not rounded. -/
theorem not_closer_of_le (hd : Arith.finite d = true) (hv : Arith.finite v = true)
    (hw : Arith.finite w = true) (h : value d ≤ |value v - value w|) : closer d v w = false := by
  have hle : units (parts d) ≤ |units (parts v) - units (parts w)| := by
    rw [value_eq, value_eq, value_eq, ← sub_mul, abs_mul, abs_of_pos unit_pos,
      mul_le_mul_iff_left₀ unit_pos] at h
    exact_mod_cast h
  by_cases hfinite : Arith.finite (v - w) = true
  · rw [Bool.eq_false_iff, ne_eq, closer_iff hd hfinite, not_lt]
    exact (rounded_sub hv hw).le_abs_units hfinite (fits_units d) hle
  · rw [closer_eq]
    exact not_abs_lt_of_not_finite hfinite hd

theorem finite_tolerance : Arith.finite tolerance = true := by
  rw [finite_eq, parts_tolerance]
  rfl

/-- Whether numbers are near each other is the same for the numbers and their values, if those that
are near are equal. -/
theorem near_eq (hv : Arith.finite v = true) (hw : Arith.finite w = true)
    (hsharp : Arith.near (value v) (value w) = true → value v = value w) :
    Arith.near v w = Arith.near (value v) (value w) := by
  obtain ⟨hpos, hle⟩ := value_tolerance
  by_cases h : value v = value w
  · rw [h, real_near_self]
    exact closer_of_eq finite_tolerance hpos hv hw h
  · have hreal : ¬Arith.near (value v) (value w) = true := fun hn => h (hsharp hn)
    rw [Bool.eq_false_iff.mpr hreal]
    rw [real_near, not_lt] at hreal
    exact not_closer_of_le finite_tolerance hv hw (hle.trans hreal)

end

/-! ## whole numbers -/

/-- There is room for whole numbers of 53 bits. -/
theorem fits_mul_unitsOfOne {k : ℤ} (hk : |k| < 2 ^ 53) : Fits (k * unitsOfOne) :=
  ⟨k, 1074, hk, by decide, rfl⟩

theorem fits_two_pow_mul_unitsOfOne : Fits (2 ^ 53 * unitsOfOne) :=
  ⟨1, 1127, by decide, by decide, by rw [unitsOfOne, ← pow_add, one_mul]⟩

theorem unitsOfOne_pos : 0 < unitsOfOne := pow_pos two_pos _

theorem abs_units_finite (s : Sign) (m : ℕ) (e : ℤ) (h : 0 < m) :
    |units (.finite s m e h)| = (m * 2 ^ (e + 1074).toNat : ℕ) := by
  cases s <;> simp [units, Sign.apply]

/-- From `2 ^ 52` on every number is whole. -/
theorem whole_of_large {u : UnpackedFloat} (hu : Representable u)
    (h : 2 ^ 52 * unitsOfOne ≤ |units u|) : unitsOfOne ∣ units u := by
  cases u with
  | notANumber | infinity | zero => exact dvd_zero _
  | finite s m e hm =>
      obtain ⟨hc, -⟩ := hu.canonical
      have habs := abs_units_finite s m e hm
      have hexponent : 1074 ≤ (e + 1074).toNat := by
        by_contra hlt
        have hsmall := mul_pow_lt_of_lt hc.lt (not_le.mp hlt)
        rw [habs, unitsOfOne] at h
        exact absurd (by exact_mod_cast h) hsmall.not_ge
      have hdvd : unitsOfOne ∣ (m * 2 ^ (e + 1074).toNat : ℕ) := by
        rw [Nat.cast_mul, Nat.cast_pow]
        exact Dvd.dvd.mul_left (pow_dvd_pow 2 hexponent) _
      exact (dvd_abs _ _).mp (habs ▸ hdvd)

/-- A number below `2 ^ 52` loses its fractional part on the way to `2 ^ 52` and back, and nothing
else. -/
theorem whole_there_and_back {x : ℤ} {a b : UnpackedFloat} (hx : 0 ≤ x)
    (hlt : x < 2 ^ 52 * unitsOfOne) (hra : Representable a)
    (ha : Rounded (x + 2 ^ 52 * unitsOfOne) a)
    (hb : a.isFinite = true → Rounded (units a - 2 ^ 52 * unitsOfOne) b) :
    b.isFinite = true ∧ unitsOfOne ∣ units b ∧ (unitsOfOne ∣ x → units b = x) := by
  have hone := unitsOfOne_pos
  have hup : x + 2 ^ 52 * unitsOfOne ≤ 2 ^ 53 * unitsOfOne := by linarith
  have hfinite : a.isFinite = true :=
    ha.finite _ fits_two_pow_mul_unitsOfOne ((abs_of_nonneg (by linarith)).trans_le hup)
  have hlower : 2 ^ 52 * unitsOfOne ≤ units a :=
    ha.lower hfinite _ (fits_mul_unitsOfOne (by decide)) (by linarith)
  have hupper : units a ≤ 2 ^ 53 * unitsOfOne :=
    ha.upper hfinite _ fits_two_pow_mul_unitsOfOne hup
  obtain ⟨n, hn⟩ := whole_of_large hra (hlower.trans (le_abs_self _))
  have hn52 : 2 ^ 52 ≤ n := by
    rw [hn, mul_comm, mul_le_mul_iff_right₀ hone] at hlower
    exact hlower
  have hn53 : n ≤ 2 ^ 53 := by
    rw [hn, mul_comm, mul_le_mul_iff_left₀ hone] at hupper
    exact hupper
  have hback : units a - 2 ^ 52 * unitsOfOne = (n - 2 ^ 52) * unitsOfOne := by
    rw [hn]
    ring
  obtain ⟨hfb, hub⟩ := (hback ▸ hb hfinite).exact
    (fits_mul_unitsOfOne (by rw [abs_of_nonneg (by omega)]; omega))
  refine ⟨hfb, hub ▸ Dvd.intro_left _ rfl, fun hdvd => ?_⟩
  obtain ⟨k, rfl⟩ := hdvd
  have hk : 0 ≤ k := nonneg_of_mul_nonneg_right hx hone
  have hk52 : k < 2 ^ 52 := by
    rw [mul_comm, mul_lt_mul_iff_left₀ hone] at hlt
    exact hlt
  have hthere : unitsOfOne * k + 2 ^ 52 * unitsOfOne = (k + 2 ^ 52) * unitsOfOne := by ring
  have hua : units a = (k + 2 ^ 52) * unitsOfOne :=
    ((hthere ▸ ha).exact (fits_mul_unitsOfOne (by rw [abs_of_nonneg (by omega)]; omega))).2
  rw [hub, ← hback, hua]
  ring

theorem parts_wholeFrom : parts wholeFrom = .finite .positive (2 ^ 52) 0 (by decide) := by rfl

theorem finite_wholeFrom : Arith.finite wholeFrom = true := by
  rw [finite_eq, parts_wholeFrom]
  rfl

theorem units_wholeFrom : units (parts wholeFrom) = 2 ^ 52 * unitsOfOne := by
  have hexponent : ((0 : ℤ) + 1074).toNat = 1074 := rfl
  rw [parts_wholeFrom, units, Sign.apply, hexponent, unitsOfOne, Nat.cast_mul, Nat.cast_pow,
    Nat.cast_pow, Nat.cast_ofNat]

/-- The nearest whole number is whole, and a whole number is the nearest one to itself. -/
theorem round_spec {v : Float} (hv : Arith.finite v = true) :
    Arith.finite (Binary64.round v) = true ∧ unitsOfOne ∣ units (parts (Binary64.round v)) ∧
      (unitsOfOne ∣ units (parts v) → units (parts (Binary64.round v)) = units (parts v)) := by
  have hlarge : wholeFrom ≤ v.abs ↔ 2 ^ 52 * unitsOfOne ≤ |units (parts v)| := by
    refine decide_eq_true_iff.trans ((parts_le_iff finite_wholeFrom (finite_abs hv)).trans ?_)
    rw [value_le_iff, units_wholeFrom, parts_abs, units_abs]
  have hnegative : v < 0 ↔ units (parts v) < 0 := by
    refine decide_eq_true_iff.trans ((parts_lt_iff hv finite_zero).trans ?_)
    rw [value_lt_iff, parts_zero, units_zero]
  unfold Binary64.round
  split
  next h => exact ⟨hv, whole_of_large (representable_parts v) (hlarge.mp h), fun _ => rfl⟩
  next h =>
    rw [hlarge, not_le] at h
    split
    next hneg =>
      -- below zero the way is the same on the negations
      rw [hnegative] at hneg
      rw [abs_of_neg hneg] at h
      have hthere : Rounded (-units (parts v) + 2 ^ 52 * unitsOfOne)
          (parts (v - wholeFrom)).neg := by
        have hr := (rounded_sub hv finite_wholeFrom).neg
        rwa [units_wholeFrom, neg_sub', sub_neg_eq_add] at hr
      have hback (ha : (parts (v - wholeFrom)).neg.isFinite = true) :
          Rounded (units (parts (v - wholeFrom)).neg - 2 ^ 52 * unitsOfOne)
            (parts (v - wholeFrom + wholeFrom)).neg := by
        have hr := (rounded_add ((isFinite_neg _).symm.trans ha) finite_wholeFrom).neg
        rwa [units_wholeFrom, neg_add', ← units_neg] at hr
      obtain ⟨hfinite, hdvd, hkept⟩ := whole_there_and_back (neg_nonneg.mpr hneg.le) h
        (representable_parts _).neg hthere hback
      rw [units_neg, dvd_neg] at hdvd
      rw [units_neg, dvd_neg] at hkept
      exact ⟨(isFinite_neg _).symm.trans hfinite, hdvd, fun hd => neg_injective (hkept hd)⟩
    next hneg =>
      rw [hnegative, not_lt] at hneg
      rw [abs_of_nonneg hneg] at h
      refine whole_there_and_back hneg h (representable_parts (v + wholeFrom)) ?_ fun ha => ?_
      · exact units_wholeFrom ▸ rounded_add hv finite_wholeFrom
      · exact units_wholeFrom ▸ rounded_sub ha finite_wholeFrom

/-! ## parity -/

/-- The quotient of a mantissa by two is exact, unless the exponent is near the least one. -/
theorem divCore_two {m : ℕ} {e : ℤ} (hc : Canonical m e) (he : -52 ≤ e) :
    ∃ a : ℕ, (m * 2 ^ a).log2 = 53 ∧
      divCore Format.binary64 m e (2 ^ 52) (-51) = (m * 2 ^ a, e - 1 - a, .exact) := by
  have hlog : m.log2 ≤ 52 := by
    have := (Nat.log2_lt hc.pos.ne').mpr hc.lt
    omega
  refine ⟨53 - m.log2, by rw [log2_mul_two_pow hc.pos]; omega, ?_⟩
  have htarget : min (e - -51) (Format.binary64.targetExponent
      (totalExponent m e - totalExponent (2 ^ 52) (-51))) = e - 1 - (53 - m.log2 : ℕ) := by
    simp only [Format.targetExponent, totalExponent, Format.mantissaBits, Format.minExponent,
      Nat.log2_two_pow]
    norm_num
    omega
  have hshift : (e - -51 - (e - 1 - (53 - m.log2 : ℕ))).toNat = 53 - m.log2 + 52 := by omega
  have hpos : 0 < 2 ^ 52 := Nat.two_pow_pos 52
  rw [divCore, htarget, hshift, Nat.shiftLeft_eq, pow_add, ← mul_assoc]
  rw [Nat.mul_div_cancel _ hpos, Nat.mul_mod_left]
  rfl

/-- A whole number has no small exponent. -/
theorem Canonical.exponent_of_whole {s : Sign} {m : ℕ} {e : ℤ} (hc : Canonical m e)
    (h : unitsOfOne ∣ units (.finite s m e hc.pos)) : -52 ≤ e := by
  by_contra hlt
  have hsmall := mul_pow_lt_of_lt hc.lt (show (e + 1074).toNat < 1022 by omega)
  have hone : unitsOfOne = (2 ^ (52 + 1022) : ℕ) := by
    rw [unitsOfOne, Nat.cast_pow, Nat.cast_ofNat]
  rw [← pow_add] at hsmall
  rw [← dvd_abs, abs_units_finite, hone, Int.natCast_dvd_natCast] at h
  have hpos : 0 < m * 2 ^ (e + 1074).toNat := Nat.mul_pos hc.pos (Nat.two_pow_pos _)
  exact absurd (Nat.le_of_dvd hpos h) hsmall.not_ge

theorem sign_div_positive (s : Sign) : s / .positive = s := by
  cases s <;> rfl

/-- The half of a whole number is not rounded. -/
theorem units_half {v : Float} (hv : Arith.finite v = true) (h : unitsOfOne ∣ units (parts v)) :
    Arith.finite (v / 2) = true ∧ 2 * units (parts (v / 2)) = units (parts v) := by
  have hdiv : parts (v / 2) =
      (Float.Model.pack (UnpackedFloat.div Format.binary64 (parts v) (parts 2))).unpack := rfl
  have hrepresentable := representable_parts v
  rw [parts_two] at hdiv
  rw [finite_eq] at hv ⊢
  cases hp : parts v with
  | notANumber | infinity => rw [hp] at hv; cases hv
  | zero s =>
      have hzero : parts (v / 2) = .zero (s / .positive) := by
        rw [hdiv, hp]
        exact unpack_pack (.zero _)
      rw [hzero]
      exact ⟨rfl, rfl⟩
  | finite s m e hm =>
      rw [hp] at hrepresentable h
      obtain ⟨hc, hmax⟩ := hrepresentable.canonical
      have he := hc.exponent_of_whole h
      obtain ⟨a, hlog, hcore⟩ := divCore_two hc he
      have ha : a ≤ 53 := by
        rw [log2_mul_two_pow hm] at hlog
        omega
      have htarget := targetExponent_eq (m * 2 ^ a) (e - 1 - a)
      have hr := (rounds_roundWithAccuracy s (Nat.mul_pos hm (Nat.two_pow_pos a))
        (by omega) (by omega : e - 1 - a ≤ _)).rounded
      have hhalf : m * 2 ^ a * 2 ^ (e - 1 - a + 1074).toNat = m * 2 ^ (e + 1073).toNat := by
        rw [mul_assoc, ← pow_add]
        congr 2
        omega
      rw [hhalf] at hr
      obtain ⟨hfinite, hunits⟩ := hr.exact (fits_sign_apply s hc.lt (by omega))
      rw [hp, UnpackedFloat.div, hcore, sign_div_positive] at hdiv
      rw [hdiv]
      have htwice : m * 2 ^ (e + 1074).toNat = 2 * (m * 2 ^ (e + 1073).toNat) := by
        rw [show (e + 1074).toNat = (e + 1073).toNat + 1 by omega, pow_succ]
        ring
      rw [hunits, units, htwice]
      refine ⟨hfinite, ?_⟩
      cases s <;> simp [Sign.apply]

/-- The nearest whole number, as a value. -/
theorem value_round {v : Float} (hv : Arith.finite v = true) :
    ∃ n : ℤ, value (Binary64.round v) = n ∧ ∀ k : ℤ, value v = k → k = n := by
  obtain ⟨-, ⟨n, hn⟩, hkept⟩ := round_spec hv
  refine ⟨n, value_eq_intCast_iff.mpr (by rw [hn, mul_comm]), fun k hk => ?_⟩
  rw [value_eq_intCast_iff] at hk
  rw [hkept (hk ▸ Dvd.intro_left k rfl), hk, mul_comm] at hn
  exact mul_left_cancel₀ unitsOfOne_pos.ne' hn

/-- A whole number is even exactly if its half is whole. -/
theorem wholeParity_eq {v : Float} {k : ℤ} (hv : Arith.finite v = true) (h : value v = k) :
    wholeParity v = .ofInt k := by
  have hunits := value_eq_intCast_iff.mp h
  obtain ⟨hfinite, hhalf⟩ := units_half hv (hunits ▸ Dvd.intro_left k rfl)
  have htwice : 2 * value (v / 2) = k := by
    rw [← h, value_eq, value_eq, ← hhalf]
    push_cast
    ring
  obtain ⟨n, hn, hkept⟩ := value_round hfinite
  have hiff : (Binary64.round (v / 2) == v / 2) = true ↔ Even k := by
    rw [beq_iff (round_spec hfinite).1 hfinite, hn]
    constructor
    · intro heq
      refine ⟨n, ?_⟩
      rw [← heq] at htwice
      rw [← two_mul]
      exact_mod_cast htwice.symm
    · intro heven
      obtain ⟨r, rfl⟩ := heven
      have hr : value (v / 2) = r := by
        push_cast at htwice
        linarith
      rw [← hkept r hr, hr]
  unfold wholeParity Parity.ofInt
  simp only [hiff]

end Binary64

open Binary64

/-- The parity of an exponent is the same for a number and its value, if the whole number next to
it is not merely near. -/
theorem parity_value {v : Float} (hv : Arith.finite v = true)
    (hsharp : Arith.near (value v) (round (value v)) = true → value v = round (value v)) :
    Arith.parity Arith.tolerance v = Arith.parity (Arith.tolerance : ℝ) (value v) := by
  obtain ⟨hfinite, -, -⟩ := round_spec hv
  obtain ⟨n, hn, hkept⟩ := value_round hv
  obtain ⟨hpos, hle⟩ := value_tolerance
  have hparity : Arith.parity Arith.tolerance v =
      if closer tolerance v (Binary64.round v) then
        .ok (some (wholeParity (Binary64.round v))) else .ok none := by
    obtain ⟨hnan, hinf⟩ := not_isNaN_of_finite hv
    change Binary64.parity tolerance v = _
    rw [Binary64.parity, hnan, hinf, if_neg Bool.false_ne_true, if_neg Bool.false_ne_true]
  rw [hparity]
  by_cases h : value v = round (value v)
  · have hround : value v = value (Binary64.round v) := by rw [hn, ← hkept _ h, ← h]
    have hself : |value v - round (value v)| < (Arith.tolerance : ℝ) := by
      rw [← real_near, ← h]
      exact real_near_self _
    rw [if_pos (closer_of_eq finite_tolerance hpos hv hfinite hround),
      wholeParity_eq hfinite (hround.symm.trans h), real_parity_of_lt hself]
  · have hreal : ¬|value v - round (value v)| < (Arith.tolerance : ℝ) := by
      rw [← real_near]
      exact fun hnear => h (hsharp hnear)
    have hfar : value tolerance ≤ |value v - value (Binary64.round v)| := by
      rw [hn]
      exact hle.trans ((not_lt.mp hreal).trans (round_le _ _))
    rw [not_closer_of_le finite_tolerance hv hfinite hfar, if_neg Bool.false_ne_true,
      real_parity_of_not_lt hreal]

end Fluxion

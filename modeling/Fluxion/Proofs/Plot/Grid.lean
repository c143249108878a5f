import Fluxion.Proofs.Plot.Sample

/-!
# Fluxion.Proofs.Plot.Grid

Which points of a range are finite.

A point is computed in four steps: the width of the range, its multiple, the way to the point and
the point itself.  Each is rounded, and each may be too large although the range is not
(`Samples.Reaches`).  As the steps grow with the point, the last one decides for all.

* `Samples.finite_point_iff`: the points that are finite;
* `Samples.forall_finite_iff`: the last point decides;
* `Samples.forall_finite_of_le`: ranges that leave enough room.
-/

namespace Fluxion.Samples

open Binary64

/-! ## steps on the way to a point -/

/-- No step is too large on the way to a point between `a` and `b`, after `c` of `n` steps. -/
structure Reaches (a b c n : ℝ) : Prop where
  width : |b - a| < limit
  multiple : |nearest (b - a) * c| < limit
  way : |nearest (nearest (b - a) * c) / n| < limit
  point : |a + nearest (nearest (nearest (b - a) * c) / n)| < limit

section

variable {a b c n : ℝ}

/-- No step is too large on the way to a point before one that is reached. -/
theorem Reaches.of_le (h : Reaches a b n n) (ha : |a| < limit) (hab : a ≤ b) (hc : 0 ≤ c)
    (hcn : c ≤ n) : Reaches a b c n := by
  have hn : 0 ≤ n := hc.trans hcn
  have hwidth : 0 ≤ nearest (b - a) := nearest_nonneg (sub_nonneg.mpr hab)
  have hmultiple : nearest (b - a) * c ≤ nearest (b - a) * n :=
    mul_le_mul_of_nonneg_left hcn hwidth
  have hway : nearest (nearest (b - a) * c) / n ≤ nearest (nearest (b - a) * n) / n :=
    div_le_div_of_nonneg_right (nearest_mono hmultiple) hn
  have hnonneg : 0 ≤ nearest (nearest (b - a) * c) / n :=
    div_nonneg (nearest_nonneg (mul_nonneg hwidth hc)) hn
  have hpoint := nearest_nonneg hnonneg
  refine ⟨h.width, ?_, ?_, abs_lt.mpr ⟨?_, ?_⟩⟩
  · rw [abs_of_nonneg (mul_nonneg hwidth hc)]
    exact hmultiple.trans_lt (lt_of_abs_lt h.multiple)
  · rw [abs_of_nonneg hnonneg]
    exact hway.trans_lt (lt_of_abs_lt h.way)
  · linarith [neg_lt_of_abs_lt ha]
  · linarith [lt_of_abs_lt h.point, nearest_mono hway]

theorem three_mul_lt_limit : (3 * 2 ^ 1022 : ℝ) < limit := by
  have hlt : (2 : ℝ) ^ 970 < 2 ^ 1022 := pow_lt_pow_right₀ one_lt_two (by decide)
  have hpow : (2 : ℝ) ^ 1024 = 2 ^ 2 * 2 ^ 1022 := pow_add 2 2 1022
  rw [limit_eq_sub, hpow]
  generalize (2 : ℝ) ^ 1022 = bound, (2 : ℝ) ^ 970 = half at *
  linarith only [hlt]

/-- No step is too large if the ends of the range and the number of steps are small enough
together. -/
theorem reaches_of_le {k : ℕ} (ha : |a| ≤ 2 ^ k) (hb : |b| ≤ 2 ^ k) (hc : 0 ≤ c) (hcn : c ≤ n)
    (hn : 1 ≤ n) (h : n * 2 ^ k ≤ 2 ^ 1022) : Reaches a b c n := by
  have hk : (2 : ℝ) ^ k ≤ 2 ^ 1022 := (le_mul_of_one_le_left (by positivity) hn).trans h
  have hwidth : |b - a| ≤ 2 ^ (k + 1) := by
    rw [pow_succ]
    linarith only [abs_sub b a, ha, hb]
  have hmultiple : |nearest (b - a) * c| ≤ 2 ^ 1023 := by
    rw [abs_mul, abs_of_nonneg hc]
    calc |nearest (b - a)| * c
        ≤ 2 ^ (k + 1) * n := by
          gcongr
          exact abs_nearest_le_two_pow hwidth
      _ = 2 * (n * 2 ^ k) := by ring
      _ ≤ 2 * 2 ^ 1022 := by gcongr
      _ = 2 ^ 1023 := (pow_succ' 2 1022).symm
  have hway : |nearest (nearest (b - a) * c) / n| ≤ 2 ^ 1023 := by
    rw [abs_div, abs_of_nonneg (zero_le_one.trans hn)]
    exact (div_le_self (abs_nonneg _) hn).trans (abs_nearest_le_two_pow hmultiple)
  have hpoint : |a + nearest (nearest (nearest (b - a) * c) / n)| ≤ 2 ^ k + 2 ^ 1023 :=
    (abs_add_le _ _).trans (add_le_add ha (abs_nearest_le_two_pow hway))
  have hlimit := three_mul_lt_limit
  have hpos : (0 : ℝ) < 2 ^ 1022 := by positivity
  have hdouble : (2 : ℝ) ^ 1023 = 2 * 2 ^ 1022 := pow_succ' 2 1022
  rw [pow_succ'] at hwidth
  rw [hdouble] at hmultiple hway hpoint
  generalize (2 : ℝ) ^ 1022 = bound at *
  constructor <;> linarith only [hwidth, hmultiple, hway, hpoint, hlimit, hpos, hk]

end

/-! ## machine numbers -/

section

variable {start stop c steps : Float}

/-- A point is finite if the ends of the range are and no step is too large. -/
theorem finite_point_iff (hc : Arith.finite c = true) (hsteps : Arith.finite steps = true)
    (hpos : 0 < value steps) : Arith.finite (start + (stop - start) * c / steps) = true ↔
      (Arith.finite start = true ∧ Arith.finite stop = true) ∧
        Reaches (value start) (value stop) (value c) (value steps) := by
  have hsub (hstart : Arith.finite start = true) (hstop : Arith.finite stop = true)
      (h : Arith.finite (stop - start) = true) := (correct_sub hstop hstart).value_eq h
  have hmul (hwidth : Arith.finite (stop - start) = true)
      (h : Arith.finite ((stop - start) * c) = true) := (correct_mul hwidth hc).value_eq h
  have hdiv (hmultiple : Arith.finite ((stop - start) * c) = true)
      (h : Arith.finite ((stop - start) * c / steps) = true) :=
    (correct_div hmultiple hsteps hpos.ne').value_eq h
  constructor
  · intro h
    obtain ⟨⟨hstart, hway⟩, hpoint⟩ := finite_add_iff.mp h
    obtain ⟨hmultiple, hquotient⟩ := (finite_div_iff hsteps hpos.ne').mp hway
    obtain ⟨⟨hwidth, -⟩, hproduct⟩ := finite_mul_iff.mp hmultiple
    obtain ⟨⟨hstop, -⟩, hdifference⟩ := finite_sub_iff.mp hwidth
    rw [hdiv hmultiple hway, hmul hwidth hmultiple, hsub hstart hstop hwidth] at hpoint
    rw [hmul hwidth hmultiple, hsub hstart hstop hwidth] at hquotient
    rw [hsub hstart hstop hwidth] at hproduct
    exact ⟨⟨hstart, hstop⟩, hdifference, hproduct, hquotient, hpoint⟩
  · rintro ⟨⟨hstart, hstop⟩, h⟩
    have hwidth := finite_sub_iff.mpr ⟨⟨hstop, hstart⟩, h.width⟩
    have hmultiple := finite_mul_iff.mpr ⟨⟨hwidth, hc⟩, hsub hstart hstop hwidth ▸ h.multiple⟩
    have hproduct := hmul hwidth hmultiple
    rw [hsub hstart hstop hwidth] at hproduct
    have hway := (finite_div_iff hsteps hpos.ne').mpr ⟨hmultiple, hproduct ▸ h.way⟩
    have hquotient := hdiv hmultiple hway
    rw [hproduct] at hquotient
    exact finite_add_iff.mpr ⟨⟨hstart, hway⟩, hquotient ▸ h.point⟩

end

/-! ## whole ranges -/

section

variable {start stop v : Float} {n : ℕ} {xs : List Float}

/-- A number of steps that is too large is refused. -/
theorem grid_of_large (h : limit ≤ n) : grid start stop n = .error .integerTooLarge := by
  have hsteps : (Arith.ofNat n : Except MathFault Float) = .error .integerTooLarge :=
    if_neg (finite_natCast_iff.not.mpr h.not_gt)
  change (do let steps ← Arith.ofNat n; (List.range (n + 1)).mapM (gridPoint start stop steps)) = _
  rw [hsteps]
  rfl

/-- The points of a range whose number of steps is not too large. -/
theorem grid_of_lt (hn : 0 < n) (h : n < limit) : grid start stop n = .ok
    ((List.range (n + 1)).map fun i =>
      start + (stop - start) * Arith.ofDecimal i 0 / Arith.ofDecimal n 0) :=
  grid_eq hn (if_pos (finite_natCast_iff.mpr h))

theorem nearest_natCast_mono {i : ℕ} (h : i ≤ n) : 0 ≤ nearest i ∧ nearest i ≤ nearest n :=
  ⟨nearest_nonneg (Nat.cast_nonneg i), nearest_mono (Nat.cast_le.mpr h)⟩

/-- A point of a range is finite if the ends are and no step is too large. -/
theorem finite_gridPoint_iff {i : ℕ} (hn : 0 < n) (h : n < limit) (hi : i ≤ n) :
    Arith.finite (start + (stop - start) * Arith.ofDecimal i 0 / Arith.ofDecimal n 0) = true ↔
      (Arith.finite start = true ∧ Arith.finite stop = true) ∧
        Reaches (value start) (value stop) (nearest i) (nearest n) := by
  have hfinite : Arith.finite (Arith.ofDecimal n 0 : Float) = true := finite_natCast_iff.mpr h
  have hfinite' : Arith.finite (Arith.ofDecimal i 0 : Float) = true :=
    finite_natCast_iff.mpr ((Nat.cast_le.mpr hi).trans_lt h)
  have hvalue := (correct_natCast n).value_eq hfinite
  have hvalue' := (correct_natCast i).value_eq hfinite'
  rw [← hvalue, ← hvalue']
  exact finite_point_iff hfinite' hfinite (hvalue ▸ one_pos.trans_le (one_le_nearest_natCast hn))

theorem lt_limit_of_grid (hxs : grid start stop n = .ok xs) : n < limit := by
  by_contra h
  rw [grid_of_large (not_lt.mp h)] at hxs
  cases hxs

/-- The last point decides whether all points of a range are finite. -/
theorem forall_finite_iff (hn : 0 < n) (hlt : Arith.lt start stop = true)
    (hxs : grid start stop n = .ok xs) : (∀ v ∈ xs, Arith.finite v = true) ↔
      ∃ v, xs.getLast? = some v ∧ Arith.finite v = true := by
  have h := lt_limit_of_grid hxs
  obtain rfl := Except.ok.inj ((grid_of_lt hn h).symm.trans hxs)
  have hlast : ((List.range (n + 1)).map fun i =>
      start + (stop - start) * Arith.ofDecimal i 0 / Arith.ofDecimal n 0).getLast? =
        some (start + (stop - start) * Arith.ofDecimal n 0 / Arith.ofDecimal n 0) := by
    rw [List.range_succ, List.map_append, List.map_singleton, List.getLast?_concat]
  rw [hlast]
  constructor
  · intro hall
    exact ⟨_, rfl, hall _ (List.mem_map.mpr ⟨n, List.self_mem_range_succ, rfl⟩)⟩
  · rintro ⟨_, ⟨⟩, hv⟩
    obtain ⟨⟨hstart, hstop⟩, hreaches⟩ := (finite_gridPoint_iff hn h le_rfl).mp hv
    rw [lt_eq, parts_lt_iff hstart hstop] at hlt
    simp only [List.mem_map, List.mem_range]
    rintro _ ⟨i, hi, rfl⟩
    have hin : i ≤ n := Nat.le_of_lt_succ hi
    obtain ⟨hnonneg, hmono⟩ := nearest_natCast_mono hin
    exact (finite_gridPoint_iff hn h hin).mpr ⟨⟨hstart, hstop⟩,
      hreaches.of_le ((correct_self hstart).finite_iff.mp hstart) hlt.le hnonneg hmono⟩

/-- All points of a range are finite if its ends and the number of steps are small enough
together. -/
theorem forall_finite_of_le {k : ℕ} (hn : 0 < n) (hstart : Arith.finite start = true)
    (hstop : Arith.finite stop = true) (hlow : |value start| ≤ 2 ^ k) (hhigh : |value stop| ≤ 2 ^ k)
    (h : n * 2 ^ k ≤ 2 ^ 1022) (hxs : grid start stop n = .ok xs) :
    ∀ v ∈ xs, Arith.finite v = true := by
  obtain ⟨j, hj⟩ : ∃ j, 1022 = j + k := by
    have hpow := (Nat.le_mul_of_pos_left _ hn).trans h
    have hk := (Nat.pow_le_pow_iff_right Nat.one_lt_two).mp hpow
    exact ⟨1022 - k, (Nat.sub_add_cancel hk).symm⟩
  have hn' : n ≤ 2 ^ j := by
    rw [hj, pow_add] at h
    exact Nat.le_of_mul_le_mul_right h (Nat.two_pow_pos k)
  have hcast : |(n : ℝ)| ≤ 2 ^ j := by
    rw [Nat.abs_cast]
    exact_mod_cast hn'
  have hnearest : nearest n * 2 ^ k ≤ 2 ^ 1022 := by
    rw [hj, pow_add]
    exact mul_le_mul_of_nonneg_right ((le_abs_self _).trans (abs_nearest_le_two_pow hcast))
      (by positivity)
  have hlt := lt_limit_of_grid hxs
  obtain rfl := Except.ok.inj ((grid_of_lt hn hlt).symm.trans hxs)
  simp only [List.mem_map, List.mem_range]
  rintro _ ⟨i, hi, rfl⟩
  have hin : i ≤ n := Nat.le_of_lt_succ hi
  obtain ⟨hnonneg, hmono⟩ := nearest_natCast_mono hin
  exact (finite_gridPoint_iff hn hlt hin).mpr ⟨⟨hstart, hstop⟩,
    reaches_of_le hlow hhigh hnonneg hmono (one_le_nearest_natCast hn) hnearest⟩

end

end Fluxion.Samples

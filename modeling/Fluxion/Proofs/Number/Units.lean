import Mathlib
import Fluxion.Proofs.Number.Lawful

/-!
# Fluxion.Proofs.Number.Units

The real numbers that double precision numbers stand for.

The unit is the least positive number, `2 ^ (-1074)`.  Every finite number is a whole multiple of
it, so sums, differences and comparisons can be followed in whole numbers (`Binary64.units`), and
what they say about the real numbers (`Binary64.value`) follows by scaling.

* `Binary64.compare_eq`: numbers are ordered by their units, both zeros being equal;
* `Binary64.negative_iff`, `Binary64.nonneg_iff`, `Binary64.beq_iff`: the comparisons of the
  program, on values.
-/

namespace Fluxion.Binary64

open Float.Model Float.Model.UnpackedFloat

/-! ## units -/

/-- A finite number in units; what is not finite has none. -/
def units : UnpackedFloat → ℤ
  | .finite s m e _ => s.apply (m * 2 ^ (e + 1074).toNat : ℕ)
  | _ => 0

@[simp] theorem units_zero (s : Sign) : units (.zero s) = 0 := rfl

theorem isFinite_neg (u : UnpackedFloat) : u.neg.isFinite = u.isFinite := by
  cases u <;> rfl

theorem isFinite_abs (u : UnpackedFloat) : u.abs.isFinite = u.isFinite := by
  cases u <;> rfl

/-- The opposite number has the opposite units. -/
theorem units_neg (u : UnpackedFloat) : units u.neg = -units u := by
  cases u with
  | notANumber | infinity | zero => rfl
  | finite s m e h =>
      cases s with
      | positive => rfl
      | negative => exact (neg_neg _).symm

/-- The absolute value has the absolute value of the units. -/
theorem units_abs (u : UnpackedFloat) : units u.abs = |units u| := by
  cases u with
  | notANumber | infinity | zero => rfl
  | finite s m e h => cases s <;> simp [UnpackedFloat.abs, units, Sign.apply, abs_mul]

/-! ## the order -/

/-- The mantissa and the exponent of a stored number: the mantissa has its leading bit, unless the
exponent is the least one. -/
structure Canonical (m : ℕ) (e : ℤ) : Prop where
  pos : 0 < m
  lt : m < 2 ^ 53
  least : -1074 ≤ e
  leading : 2 ^ 52 ≤ m ∨ e = -1074

/-- A finite number that is stored has a mantissa and an exponent of the format. -/
theorem Representable.canonical {s : Sign} {m : ℕ} {e : ℤ} {h : 0 < m}
    (hu : Representable (.finite s m e h)) : Canonical m e ∧ e ≤ 971 := by
  cases hu with
  | normal _ _ _ _ hm he => exact ⟨⟨h, hm.2, he.1, .inl hm.1⟩, he.2⟩
  | subnormal _ _ _ hm => exact ⟨⟨h, by omega, le_rfl, .inr rfl⟩, by omega⟩

/-- A mantissa and an exponent of the format are those of a stored number, unless it is too large.
-/
theorem Canonical.representable {s : Sign} {m : ℕ} {e : ℤ} (hc : Canonical m e) (he : e ≤ 971) :
    Representable (.finite s m e hc.pos) := by
  by_cases hm : 2 ^ 52 ≤ m
  · exact .normal s m e hc.pos ⟨hm, hc.lt⟩ ⟨hc.least, he⟩
  · obtain rfl := hc.leading.resolve_left hm
    exact .subnormal s m hc.pos (not_le.mp hm)

/-- Of two stored magnitudes the one with the larger exponent is larger, whatever the mantissas. -/
theorem Canonical.lt_of_exponent_lt {m m' : ℕ} {e e' : ℤ} (h : Canonical m e)
    (h' : Canonical m' e') (he : e < e') :
    m * 2 ^ (e + 1074).toNat < m' * 2 ^ (e' + 1074).toNat := by
  have hleast := h.least
  have hm' : 2 ^ 52 ≤ m' := h'.leading.resolve_right (by omega)
  calc m * 2 ^ (e + 1074).toNat
      < 2 ^ 53 * 2 ^ (e + 1074).toNat := by gcongr; exact h.lt
    _ = 2 ^ 52 * 2 ^ ((e + 1074).toNat + 1) := by ring
    _ ≤ m' * 2 ^ (e' + 1074).toNat := by gcongr <;> omega

/-- Stored magnitudes are compared by their exponents first. -/
theorem Canonical.compare_eq {m m' : ℕ} {e e' : ℤ} (h : Canonical m e) (h' : Canonical m' e') :
    (compare e e').then (compare m m') =
      compare (m * 2 ^ (e + 1074).toNat) (m' * 2 ^ (e' + 1074).toNat) := by
  rcases lt_trichotomy e e' with he | rfl | he
  · rw [compare_lt_iff_lt.mpr he, compare_lt_iff_lt.mpr (h.lt_of_exponent_lt h' he)]
    rfl
  · have hpos : 0 < 2 ^ (e + 1074).toNat := Nat.two_pow_pos _
    rw [compare_eq_iff_eq.mpr rfl, Ordering.eq_then]
    rcases lt_trichotomy m m' with hm | rfl | hm
    · rw [compare_lt_iff_lt.mpr hm, compare_lt_iff_lt.mpr (Nat.mul_lt_mul_of_pos_right hm hpos)]
    · rw [compare_eq_iff_eq.mpr rfl, compare_eq_iff_eq.mpr rfl]
    · rw [compare_gt_iff_gt.mpr hm, compare_gt_iff_gt.mpr (Nat.mul_lt_mul_of_pos_right hm hpos)]
  · rw [compare_gt_iff_gt.mpr he, compare_gt_iff_gt.mpr (h'.lt_of_exponent_lt h he)]
    rfl

theorem compare_natCast (a b : ℕ) : compare (a : ℤ) b = compare a b := by
  rw [← cmp_eq_compare, ← cmp_eq_compare]
  exact Nat.strictMono_cast.cmp_map_eq a b

/-- Opposite numbers are ordered the other way around. -/
theorem compare_neg_natCast (a b : ℕ) : compare (-a : ℤ) (-b) = (compare a b).swap := by
  rw [← compare_natCast, ← cmp_eq_compare, ← cmp_eq_compare, cmp_swap]
  exact (show StrictAnti (fun n : ℤ => -n) from fun _ _ h => neg_lt_neg h).cmp_map_eq a b

/-- Positive numbers have positive units. -/
theorem units_positive (m : ℕ) (e : ℤ) (h : 0 < m) : 0 < units (.finite .positive m e h) :=
  Int.natCast_pos.mpr (Nat.mul_pos h (Nat.two_pow_pos _))

/-- Negative numbers have negative units. -/
theorem units_negative (m : ℕ) (e : ℤ) (h : 0 < m) : units (.finite .negative m e h) < 0 :=
  neg_neg_of_pos (units_positive m e h)

/-- Finite numbers are compared by their units. -/
theorem compare_eq {u w : UnpackedFloat} (hu : Representable u) (hw : Representable w)
    (hfu : u.isFinite = true) (hfw : w.isFinite = true) :
    u.compare w = some (compare (units u) (units w)) := by
  cases u with
  | notANumber | infinity => cases hfu
  | zero s =>
      cases w with
      | notANumber | infinity => cases hfw
      | zero s' => rfl
      | finite s' m e h =>
          cases s' with
          | positive => exact congrArg some (compare_lt_iff_lt.mpr (units_positive m e h)).symm
          | negative => exact congrArg some (compare_gt_iff_gt.mpr (units_negative m e h)).symm
  | finite s m e h =>
      cases w with
      | notANumber | infinity => cases hfw
      | zero s' =>
          cases s with
          | positive => exact congrArg some (compare_gt_iff_gt.mpr (units_positive m e h)).symm
          | negative => exact congrArg some (compare_lt_iff_lt.mpr (units_negative m e h)).symm
      | finite s' m' e' h' =>
          have hmagnitudes := hu.canonical.1.compare_eq hw.canonical.1
          cases s with
          | positive =>
              cases s' with
              | positive =>
                  refine congrArg some (hmagnitudes.trans ?_)
                  exact (compare_natCast _ _).symm
              | negative =>
                  exact congrArg some (compare_gt_iff_gt.mpr
                    ((units_negative m' e' h').trans (units_positive m e h))).symm
          | negative =>
              cases s' with
              | positive =>
                  exact congrArg some (compare_lt_iff_lt.mpr
                    ((units_negative m e h).trans (units_positive m' e' h'))).symm
              | negative =>
                  refine congrArg some ((congrArg Ordering.swap hmagnitudes).trans ?_)
                  exact (compare_neg_natCast _ _).symm

/-- Stored numbers are ordered as their units. -/
theorem lt_iff_units {u w : UnpackedFloat} (hu : Representable u) (hw : Representable w)
    (hfu : u.isFinite = true) (hfw : w.isFinite = true) :
    u.lt w = true ↔ units u < units w := by
  rw [UnpackedFloat.lt, compare_eq hu hw hfu hfw, beq_iff_eq, Option.some_inj, compare_lt_iff_lt]

/-- Stored numbers are weakly ordered as their units. -/
theorem le_iff_units {u w : UnpackedFloat} (hu : Representable u) (hw : Representable w)
    (hfu : u.isFinite = true) (hfw : w.isFinite = true) :
    u.le w = true ↔ units u ≤ units w := by
  rw [UnpackedFloat.le, compare_eq hu hw hfu hfw, Option.any_some, Std.isLE_compare]

/-- Stored numbers are equal exactly if their units are, whatever the sign of zero. -/
theorem beq_iff_units {u w : UnpackedFloat} (hu : Representable u) (hw : Representable w)
    (hfu : u.isFinite = true) (hfw : w.isFinite = true) :
    u.beq w = true ↔ units u = units w := by
  rw [UnpackedFloat.beq, compare_eq hu hw hfu hfw, beq_iff_eq, Option.some_inj, compare_eq_iff_eq]

/-! ## values -/

/-- The real number that a finite number stands for; what is not finite stands for zero. -/
noncomputable def value (v : Float) : ℝ :=
  match parts v with
  | .finite s m e _ => s.apply m * ((2 : ℕ) : ℝ) ^ e
  | _ => 0

/-- The least positive number. -/
noncomputable def unit : ℝ := ((2 : ℕ) : ℝ) ^ (-1074 : ℤ)

theorem unit_eq : unit = 2 ^ (-1074 : ℤ) := by
  rw [unit, Nat.cast_ofNat]

theorem unit_pos : 0 < unit := by
  rw [unit_eq]
  exact zpow_pos two_pos _

/-- The number one in units. -/
def unitsOfOne : ℤ := 2 ^ 1074

/-- So many units are one. -/
theorem unitsOfOne_mul_unit : unitsOfOne * unit = 1 := by
  rw [unitsOfOne, unit_eq, Int.cast_pow, ← zpow_natCast, Int.cast_ofNat, ← zpow_add₀ two_ne_zero]
  exact zpow_zero 2

/-- The value of a number is its units times the unit. -/
theorem value_eq (v : Float) : value v = units (parts v) * unit := by
  have hv := representable_parts v
  unfold value
  cases h : parts v with
  | notANumber | infinity | zero => simp [units]
  | finite s m e hm =>
      rw [h] at hv
      have hleast := hv.canonical.1.least
      have hpow : (2 : ℝ) ^ e = 2 ^ (e + 1074).toNat * unit := by
        rw [unit_eq, ← zpow_natCast (2 : ℝ), ← zpow_add₀ two_ne_zero]
        congr 1
        omega
      cases s <;> simp only [units, Sign.apply] <;> push_cast <;> rw [hpow] <;> ring

/-- Values are ordered as units. -/
theorem value_lt_iff {v w : Float} : value v < value w ↔ units (parts v) < units (parts w) := by
  rw [value_eq, value_eq, mul_lt_mul_iff_left₀ unit_pos, Int.cast_lt]

/-- Values are weakly ordered as units. -/
theorem value_le_iff {v w : Float} : value v ≤ value w ↔ units (parts v) ≤ units (parts w) := by
  rw [value_eq, value_eq, mul_le_mul_iff_left₀ unit_pos, Int.cast_le]

/-- Values are equal exactly if the units are. -/
theorem value_eq_iff {v w : Float} : value v = value w ↔ units (parts v) = units (parts w) := by
  rw [le_antisymm_iff, le_antisymm_iff, value_le_iff, value_le_iff]

/-- A number stands for a whole one exactly if its units are a multiple of those of one. -/
theorem value_eq_intCast_iff {v : Float} {k : ℤ} :
    value v = k ↔ units (parts v) = k * unitsOfOne := by
  have hk : (k : ℝ) = (k * unitsOfOne : ℤ) * unit := by
    rw [Int.cast_mul, mul_assoc, unitsOfOne_mul_unit, mul_one]
  rw [value_eq, hk, mul_left_inj' unit_pos.ne', Int.cast_inj]

/-! ## operations that do not round -/

/-- The opposite number has the opposite value. -/
theorem value_neg (v : Float) : value (-v) = -value v := by
  rw [value_eq, value_eq, parts_neg, units_neg, Int.cast_neg, neg_mul]

/-- Nothing is rounded when zero is added. -/
theorem value_add_zero (v : Float) : value (v + 0) = value v := by
  rcases parts_add_zero v with h | ⟨s, h, h'⟩
  · rw [value_eq, value_eq, h]
  · rw [value_eq, value_eq, h, h', units_zero, units_zero]

/-- The opposite of a finite number is finite. -/
theorem finite_neg {v : Float} (hv : Arith.finite v = true) : Arith.finite (-v) = true := by
  rw [finite_eq, parts_neg, isFinite_neg]
  exact hv

/-- The absolute value of a finite number is finite. -/
theorem finite_abs {v : Float} (hv : Arith.finite v = true) : Arith.finite v.abs = true := by
  rw [finite_eq, parts_abs, isFinite_abs]
  exact hv

/-- A finite number is neither undefined nor infinite. -/
theorem not_isNaN_of_finite {v : Float} (hv : Arith.finite v = true) :
    v.isNaN = false ∧ v.isInf = false := by
  change (parts v).isNaN = false ∧ (parts v).isInf = false
  rw [finite_eq] at hv
  cases h : parts v with
  | notANumber | infinity => rw [h] at hv; cases hv
  | zero | finite => exact ⟨rfl, rfl⟩

/-! ## comparisons -/

section

variable {v w : Float}

/-- Finite numbers are ordered as their values. -/
theorem parts_lt_iff (hv : Arith.finite v = true) (hw : Arith.finite w = true) :
    (parts v).lt (parts w) = true ↔ value v < value w :=
  (lt_iff_units (representable_parts v) (representable_parts w) hv hw).trans value_lt_iff.symm

/-- Finite numbers are weakly ordered as their values. -/
theorem parts_le_iff (hv : Arith.finite v = true) (hw : Arith.finite w = true) :
    (parts v).le (parts w) = true ↔ value v ≤ value w :=
  (le_iff_units (representable_parts v) (representable_parts w) hv hw).trans value_le_iff.symm

/-- Finite numbers are equal exactly if their values are. -/
theorem beq_iff (hv : Arith.finite v = true) (hw : Arith.finite w = true) :
    (v == w) = true ↔ value v = value w :=
  (beq_iff_units (representable_parts v) (representable_parts w) hv hw).trans value_eq_iff.symm

theorem finite_zero : Arith.finite (0 : Float) = true := rfl

theorem value_zero : value 0 = 0 := by simp [value_eq, parts_zero]

/-- Finite numbers are below zero exactly if their values are. -/
theorem negative_iff (hv : Arith.finite v = true) : Arith.negative v = true ↔ value v < 0 := by
  rw [negative_eq, ← parts_zero, parts_lt_iff hv finite_zero, value_zero]

/-- Finite numbers are not below zero exactly if their values are not. -/
theorem nonneg_iff (hv : Arith.finite v = true) : Arith.nonneg v = true ↔ 0 ≤ value v := by
  rw [nonneg_eq, ← parts_zero, parts_le_iff finite_zero hv, value_zero]

/-- Positive values are those of numbers above zero. -/
theorem value_pos_iff (hv : Arith.finite v = true) :
    0 < value v ↔ (parts 0).lt (parts v) = true := by
  rw [parts_lt_iff finite_zero hv, value_zero]

/-- Finite numbers are zero exactly if their values are. -/
theorem isZero_iff (hv : Arith.finite v = true) : Arith.isZero v = true ↔ value v = 0 := by
  rw [← value_zero]
  exact beq_iff hv finite_zero

end

/-! ## constants -/

theorem parts_one : parts 1 = .finite .positive (2 ^ 52) (-52) (by decide) := by rfl

theorem parts_two : parts 2 = .finite .positive (2 ^ 52) (-51) (by decide) := by rfl

theorem value_one : value 1 = 1 := by
  rw [value, parts_one]
  norm_num [Sign.apply]

theorem value_two : value 2 = 2 := by
  rw [value, parts_two]
  norm_num [Sign.apply]

theorem parts_tolerance :
    parts tolerance = .finite .positive 4722366482869645 (-72) (by decide) := by rfl

/-- The nearest number to a millionth is a little below it. -/
theorem value_tolerance : 0 < value tolerance ∧ value tolerance ≤ 1 / 1000000 := by
  rw [value, parts_tolerance]
  norm_num [Sign.apply]

end Fluxion.Binary64

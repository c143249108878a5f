import Fluxion.Proofs.Expr.Tex
import Fluxion.Proofs.Number.Layout
import Fluxion.Proofs.Number.Units

/-!
# Fluxion.Proofs.Number.Numeral

Machine numbers as text.

A finite number has an exact magnitude, which is taken from its bits.  Where its sign bit is clear,
its text in a formula is one numeral, and that is read as the number nearest to a decimal that has
twelve digits and is next to the number.

* `Binary64.ofFloat?_spec`: the magnitude of a finite number;
* `Numeral.isNumeral_of_finite`: its text is one numeral;
* `Numeral.reread_spec`: what is read.
-/

namespace Fluxion

namespace Binary64

open Float.Model Float.Model.UnpackedFloat

variable {v : Float}

/-! ## the fields of a number -/

/-- The fraction of a number as it is stored. -/
def fractionField (v : Float) : ℕ := v.toBits.toNat % 2 ^ 52

/-- The exponent of a number as it is stored. -/
def exponentField (v : Float) : ℕ := v.toBits.toNat / 2 ^ 52 % 2 ^ 11

theorem toNat_unpackMantissa (v : Float) :
    (@unpackMantissa Format.binary64 v.toModel.toBits.toBitVec).toNat = fractionField v := by
  rw [unpackMantissa, BitVec.toNat_cast, BitVec.extractLsb_toNat, Nat.shiftRight_zero]
  rfl

theorem toNat_unpackExponent (v : Float) :
    (@unpackExponent Format.binary64 v.toModel.toBits.toBitVec).toNat = exponentField v := by
  rw [unpackExponent, BitVec.toNat_cast, BitVec.extractLsb_toNat, Nat.shiftRight_eq_div_pow]
  rfl

theorem toNat_unpackSign (v : Float) :
    (@unpackSign Format.binary64 v.toModel.toBits.toBitVec).toNat =
      v.toBits.toNat / 2 ^ 63 % 2 := by
  rw [unpackSign, BitVec.toNat_cast, BitVec.extractLsb_toNat, Nat.shiftRight_eq_div_pow]
  rfl

/-- A number whose sign bit is clear is written without a sign. -/
theorem isSigned_eq_false (h : SignClear v) : Layout.isSigned v = false := by
  have hlt : v.toBits.toNat < 2 ^ 64 := v.toBits.toNat_lt
  have hsign := toNat_unpackSign v
  rw [h] at hsign
  apply decide_eq_false
  rw [Nat.pow_eq]
  change 0 = _ at hsign
  omega

/-- A number that is written without a sign has none. -/
theorem signClear_of_isSigned (h : Layout.isSigned v = false) : SignClear v := by
  have hbit : ¬Nat.pow 2 63 ≤ v.toBits.toNat := of_decide_eq_false h
  rw [Nat.pow_eq] at hbit
  apply BitVec.eq_of_toNat_eq
  rw [toNat_unpackSign]
  change _ = 0
  omega

theorem abs_sign_apply (s : Sign) (m : ℕ) : |((s.apply m : ℤ) : ℝ)| = m := by
  cases s with
  | positive => simp [Sign.apply]
  | negative => simp [Sign.apply]

/-- The mantissa of a number: its leading bit is not stored, and there is none if the stored
exponent is the least one. -/
def significand (v : Float) : ℕ :=
  if exponentField v = 0 then fractionField v else fractionField v + 2 ^ 52

/-- The exponent of a number, that of its least bit. -/
def leastBit (v : Float) : ℤ := (max (exponentField v) 1 : ℕ) - 1075

/-- The parts of a finite number are read off its fields. -/
theorem parts_of_finite (hv : Arith.finite v = true) :
    (∃ s, parts v = .zero s ∧ significand v = 0) ∨
    ∃ s h, parts v = .finite s (significand v) (leastBit v) h := by
  have hmantissa := toNat_unpackMantissa v
  have hexponent := toNat_unpackExponent v
  have hparts : parts v = UnpackedFloat.unpack Format.binary64 v.toModel.toBits.toBitVec := rfl
  rw [finite_eq, hparts] at hv
  rw [hparts]
  unfold significand leastBit
  generalize v.toModel.toBits.toBitVec = b at hv hmantissa hexponent
  have hbias : ((Format.binary64.exponentBias : ℕ) : ℤ) +
    (Format.binary64.mantissaBitsWithoutImplicit : ℕ) = 1075 := rfl
  unfold UnpackedFloat.unpack at hv ⊢
  dsimp only at hv ⊢
  split at hv
  · split at hv <;> cases hv
  next hmax =>
    rw [if_neg hmax]
    by_cases hleast : @unpackExponent Format.binary64 b = 0#_
    · have hzero : exponentField v = 0 := by
        rw [← hexponent, hleast]
        rfl
      rw [if_pos hleast, if_pos hzero, ← hmantissa, hzero]
      by_cases hm : @unpackMantissa Format.binary64 b = 0#_
      · rw [dif_pos hm]
        exact .inl ⟨_, rfl, congrArg BitVec.toNat hm⟩
      · rw [dif_neg hm, hleast]
        exact .inr ⟨_, Nat.pos_of_ne_zero fun h => hm (BitVec.eq_of_toNat_eq h), rfl⟩
    · have hne : exponentField v ≠ 0 := by
        rw [← hexponent]
        exact fun h => hleast (BitVec.eq_of_toNat_eq h)
      have hsignificand : (1#1 ++ @unpackMantissa Format.binary64 b).toNat =
          fractionField v + 2 ^ 52 := by
        rw [← hmantissa]
        exact (toNat_leadingBit _).trans (Nat.add_comm _ _)
      have hleastBit : ((@unpackExponent Format.binary64 b).toNat : ℤ) - 1075 =
          (max (exponentField v) 1 : ℕ) - 1075 := by
        rw [hexponent, Nat.max_eq_left (Nat.one_le_iff_ne_zero.mpr hne)]
      rw [if_neg hleast, if_neg hne]
      simp only [hbias, hsignificand, hleastBit]
      exact .inr ⟨_, Nat.add_pos_right _ (Nat.two_pow_pos _), rfl⟩

/-- What a finite number stands for, by its fields. -/
theorem abs_value_eq (hv : Arith.finite v = true) :
    |value v| = significand v * 2 ^ leastBit v := by
  obtain ⟨s, hparts, hzero⟩ | ⟨s, h, hparts⟩ := parts_of_finite hv
  · rw [value, hparts, hzero, abs_zero, Nat.cast_zero, zero_mul]
  · rw [value, hparts]
    dsimp only
    rw [abs_mul, abs_sign_apply, abs_of_nonneg (by positivity), Nat.cast_ofNat]

/-! ## magnitudes -/

/-- The magnitude of a finite number is what the number is without its sign. -/
theorem ofFloat?_spec (hv : Arith.finite v = true) :
    ∃ m, Magnitude.ofFloat? v = some m ∧ 0 < m.den ∧ m.toReal = |value v| := by
  have hfinite : v.isFinite = true := hv
  rw [abs_value_eq hv, Magnitude.ofFloat?, if_pos hfinite]
  dsimp only
  split
  next k hk =>
    have hleast : leastBit v = k := hk
    refine ⟨_, rfl, Nat.one_pos, ?_⟩
    change ((significand v * Nat.pow 2 k : ℕ) : ℝ) / (1 : ℕ) = _
    rw [hleast, Nat.pow_eq, zpow_natCast]
    push_cast
    exact div_one _
  next k hk =>
    have hleast : leastBit v = .negSucc k := hk
    refine ⟨_, rfl, Nat.two_pow_pos _, ?_⟩
    change (significand v : ℝ) / (Nat.pow 2 (k + 1) : ℕ) = _
    rw [hleast, Nat.pow_eq, zpow_negSucc]
    push_cast
    exact div_eq_mul_inv _ _

/-- A finite number without a sign is not below zero. -/
theorem value_nonneg (hv : Arith.finite v = true) (hs : SignClear v) : 0 ≤ value v := by
  rw [← not_lt, ← negative_iff hv, hs.not_negative]
  exact Bool.false_ne_true

/-- A pattern with a sign has no positive units. -/
theorem units_unpack_nonpos {b : BitVec 64} (h : @unpackSign Format.binary64 b = 1#1) :
    units (UnpackedFloat.unpack Format.binary64 b) ≤ 0 := by
  have hs : Sign.ofBitVec (@unpackSign Format.binary64 b) = .negative := by rw [h]; rfl
  unfold UnpackedFloat.unpack
  dsimp only
  rw [hs]
  split
  · split <;> exact le_rfl
  · split
    · split
      · exact le_rfl
      · exact (units_negative _ _ _).le
    · exact (units_negative _ _ _).le

/-- A number that is written with a sign is not above zero. -/
theorem value_nonpos (h : Layout.isSigned v = true) : value v ≤ 0 := by
  have hbit : Nat.pow 2 63 ≤ v.toBits.toNat := of_decide_eq_true h
  have hlt : v.toBits.toNat < 2 ^ 64 := v.toBits.toNat_lt
  have hsign : @unpackSign Format.binary64 v.toModel.toBits.toBitVec = 1#1 := by
    apply BitVec.eq_of_toNat_eq
    rw [Nat.pow_eq] at hbit
    rw [toNat_unpackSign]
    change _ = 1
    omega
  have hunits : units (parts v) ≤ 0 := units_unpack_nonpos hsign
  rw [value_eq]
  exact mul_nonpos_of_nonpos_of_nonneg (Int.cast_nonpos.mpr hunits) unit_pos.le
end Binary64

/-! ## numerals -/

namespace Numeral

open Binary64

variable {v : Float}

/-- The sign that the text of a number begins with, which zero does not have. -/
def signText (v : Float) : List Char := if Arith.nonneg v then [] else ['-']

/-- A finite number is written as its sign and the digits of its magnitude. -/
theorem toList_twelve (hv : Arith.finite v = true) {m : Magnitude}
    (hm : Magnitude.ofFloat? v = some m) :
    (twelve v).toList = (if Layout.isSigned v then ['-'] else []) ++
      (Layout.general 12).unsigned (Digits.rounded 12 m) := by
  have hnan : ¬v.isNaN = true := by
    rw [(not_isNaN_of_finite hv).1]
    exact Bool.false_ne_true
  change (Layout.write _ v).toList = _
  rw [Layout.write, if_neg hnan, hm, String.toList_append, apply_ite String.toList]
  exact congrArg _ String.toList_ofList

/-- A number that is not written as zero with a sign is written as it is. -/
theorem plain_of_ne (h : (twelve v).toList ≠ ['-', '0']) : plain v = twelve v := by
  have hminus : (twelve v == "-0") = false := by
    rw [beq_eq_false_iff_ne]
    exact fun heq => h (congrArg String.toList heq)
  rw [plain, hminus]
  rfl

/-- Zero is written without a sign. -/
theorem plain_of_eq (h : (twelve v).toList = ['-', '0']) : (plain v).toList = ['0'] := by
  have hminus : (twelve v == "-0") = true := beq_iff_eq.mpr (String.toList_inj.mp h)
  rw [plain, hminus, if_pos rfl]
  rfl

/-- A magnitude of zero is rounded to zero. -/
theorem rounded_of_toReal_eq_zero {m : Magnitude} (hden : 0 < m.den) (h : m.toReal = 0) :
    Digits.rounded 12 m = ⟨0, 0⟩ := by
  have hden' : (m.den : ℝ) ≠ 0 := Nat.cast_ne_zero.mpr hden.ne'
  rw [Magnitude.toReal, div_eq_zero_iff, or_iff_left hden', Nat.cast_eq_zero] at h
  rw [Digits.rounded, if_pos h]

/-- Digits of a number other than zero are not written as a single zero. -/
theorem chars_ne_zero {m : Magnitude} (hden : 0 < m.den) (hne : m.toReal ≠ 0) {w : Written}
    (hw : w.WellFormed) (hvalue : w.value = (Digits.rounded 12 m).toReal) : w.chars ≠ ['0'] := by
  intro hchars
  have hread := hw.readNumber_chars
  rw [hchars] at hread
  have hzero : Nat.ofDigitChars 10 w.digits 0 = 0 := (congrArg Prod.fst hread).symm
  have hnum : 0 < m.num := Nat.pos_of_ne_zero fun h => hne (by
    rw [Magnitude.toReal, h, Nat.cast_zero, zero_div])
  have hlength := (Digits.rounded_spec hnum hden (by decide : 0 < 12)).length
  rw [Written.value, hzero, Nat.cast_zero, zero_mul, Digits.toReal] at hvalue
  have hten : ((10 : ℕ) : ℝ) ≠ 0 := by norm_num
  have hdigits := (mul_eq_zero.mp hvalue.symm).resolve_right (zpow_ne_zero _ hten)
  rw [Nat.cast_eq_zero.mp hdigits] at hlength
  exact absurd hlength (by decide)

/-- The text of a number in a formula is a decimal with a sign, if the number is below zero.  The
decimal stands for the first twelve digits of the magnitude. -/
theorem exists_signed (hv : Arith.finite v = true) :
    ∃ m : Magnitude, 0 < m.den ∧ m.toReal = |value v| ∧
      ∃ w : Written, w.WellFormed ∧ (plain v).toList = signText v ++ w.chars ∧
        w.value = (Digits.rounded 12 m).toReal := by
  obtain ⟨m, hm, hden, hvalue⟩ := ofFloat?_spec hv
  obtain ⟨w, hw, hchars, hsame⟩ :=
    (Layout.general 12).exists_written (Digits.rounded 12 m)
  refine ⟨m, hden, hvalue, w, hw, ?_, hsame⟩
  have htext := toList_twelve hv hm
  rw [hchars] at htext
  cases hsigned : Layout.isSigned v with
  | false =>
      have hnonneg := (nonneg_iff hv).mpr (value_nonneg hv (signClear_of_isSigned hsigned))
      rw [hsigned, if_neg Bool.false_ne_true, List.nil_append] at htext
      have hne : (twelve v).toList ≠ ['-', '0'] := by
        intro h
        have hhead : w.whole.head? = some '-' := by
          rw [← hw.head?_chars, ← htext, h, List.head?_cons]
        exact absurd (hw.whole '-' (List.mem_of_head? hhead)) (by decide)
      rw [plain_of_ne hne, signText, if_pos hnonneg, List.nil_append, htext]
  | true =>
      rw [hsigned, if_pos rfl, List.singleton_append] at htext
      obtain hneg | hzero := (value_nonpos hsigned).lt_or_eq
      · have hnonneg : ¬Arith.nonneg v = true := fun h => absurd ((nonneg_iff hv).mp h) hneg.not_ge
        have hmagnitude : m.toReal ≠ 0 := hvalue ▸ (abs_pos.mpr hneg.ne).ne'
        have hne : (twelve v).toList ≠ ['-', '0'] := fun h =>
          chars_ne_zero hden hmagnitude hw hsame (List.cons.inj (htext.symm.trans h)).2
        rw [plain_of_ne hne, signText, if_neg hnonneg, List.singleton_append, htext]
      · -- zero loses the sign that it has
        have hnonneg := (nonneg_iff hv).mpr hzero.ge
        have hdigits : w.chars = ['0'] := by
          rw [← hchars, rounded_of_toReal_eq_zero hden (by rw [hvalue, hzero, abs_zero])]
          rfl
        rw [hdigits] at htext
        rw [plain_of_eq htext, signText, if_pos hnonneg, hdigits, List.nil_append]

/-- The text of a number in a formula is a decimal, which stands for the first twelve digits of the
number. -/
theorem exists_written (hv : Arith.finite v = true) (hs : SignClear v) :
    ∃ m : Magnitude, 0 < m.den ∧ m.toReal = value v ∧
      ∃ w : Written, w.WellFormed ∧ (plain v).toList = w.chars ∧
        w.value = (Digits.rounded 12 m).toReal := by
  obtain ⟨m, hden, hvalue, w, hw, htext, hsame⟩ := exists_signed hv
  have hnonneg := value_nonneg hv hs
  rw [abs_of_nonneg hnonneg] at hvalue
  rw [signText, if_pos ((nonneg_iff hv).mpr hnonneg)] at htext
  exact ⟨m, hden, hvalue, w, hw, htext, hsame⟩

/-- The text of a finite number whose sign bit is clear is one numeral. -/
theorem isNumeral_of_finite (hv : Arith.finite v = true) (hs : SignClear v) : IsNumeral v := by
  obtain ⟨-, -, -, w, hw, htext, -⟩ := exists_written hv hs
  constructor
  · rw [htext]
    exact List.append_ne_nil_of_left_ne_nil hw.nonempty _
  · rw [htext]
    exact hw.numberLength_chars

/-- The text of a finite number whose sign bit is clear is read as the number nearest to a decimal,
which is the number itself rounded to twelve digits. -/
theorem reread_spec (hv : Arith.finite v = true) (hs : SignClear v) :
    ∃ (m : ℕ) (e : ℤ), reread v = Arith.ofDecimal m e ∧
      Digits.IsRounding 12 (value v) (m * 10 ^ e) := by
  obtain ⟨magnitude, hden, hvalue, w, hw, htext, hsame⟩ := exists_written hv hs
  refine ⟨Nat.ofDigitChars 10 w.digits 0, w.power, ?_, ?_⟩
  · rw [reread, htext, hw.readNumber_chars]
  · rw [Written.value, Nat.cast_ofNat] at hsame
    rw [hsame, ← hvalue]
    exact Digits.isRounding_rounded hden (by decide)

end Numeral

end Fluxion

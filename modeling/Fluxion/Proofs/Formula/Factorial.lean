import Fluxion.Formula.Calculus
import Fluxion.Proofs.Number.Lawful
import Fluxion.Proofs.Number.Rounding

/-!
# Fluxion.Proofs.Formula.Factorial

The factorials in a Taylor series, as machine numbers.

Whole numbers up to `2 ^ 1023` are represented by finite numbers (`Binary64.finite_ofDecimal`), and
so are the factorials up to that of `maxFactorial`; the next one is too large.
-/

namespace Fluxion

namespace Binary64

open Float.Model Float.Model.UnpackedFloat

/-- Large whole numbers are read by rounding. -/
theorem ofScientific_of_le {m : ℕ} (h : 2 ^ 53 ≤ m) :
    parts (Float.ofScientific m false 0) = (Float.Model.pack (roundWithAccuracy Format.binary64
      .positive (m * 2 ^ 53) (-53) .exact)).unpack := by
  have hlarge : ¬(m < 2 ^ 53 ∧ 0 ≤ 22) := fun hm => absurd hm.1 (Nat.not_lt.mpr h)
  have hscientific : UnpackedFloat.ofScientific Format.binary64 m 0 =
      roundWithAccuracy Format.binary64 .positive (m * 2 ^ 53) (-53) .exact := by
    have hpos : m ≠ 0 := by rintro rfl; omega
    have hexponent : ¬(0 : ℤ) > 2 ^ Format.binary64.exponentBits := by decide
    have hleast : ¬(0 : ℤ) < -(2 ^ Format.binary64.exponentBits + m.log2) := by
      have : (0 : ℤ) ≤ 2 ^ Format.binary64.exponentBits := by positivity
      omega
    rw [UnpackedFloat.ofScientific, dif_neg hpos, if_neg hexponent, if_neg hleast, if_pos le_rfl]
    simp only [UnpackedFloat.mul, Nat.shiftLeft_eq, Int.toNat_zero, pow_zero, mul_one, add_zero]
    rfl
  unfold Float.ofScientific
  rw [dif_neg hlarge]
  exact congrArg (fun u => (Float.Model.pack u).unpack) hscientific

/-- A large whole number is rounded to the format. -/
theorem rounded_ofScientific {m : ℕ} (h : 2 ^ 53 ≤ m) :
    Rounded (m * 2 ^ 1074 : ℕ) (parts (Float.ofScientific m false 0)) := by
  have hm : 0 < m * 2 ^ 53 := by positivity
  have hlog : 53 ≤ (m * 2 ^ 53).log2 := by
    rw [log2_mul_two_pow (by omega)]
    omega
  have hr := rounds_roundWithAccuracy .positive hm (e := -53) (by decide) (by
    rw [targetExponent_eq]
    omega)
  have hunits : m * 2 ^ 53 * 2 ^ ((-53 : ℤ) + 1074).toNat = m * 2 ^ 1074 := by
    rw [mul_assoc, ← pow_add, show 53 + ((-53 : ℤ) + 1074).toNat = 1074 from rfl]
  rw [ofScientific_of_le h, ← hunits]
  exact hr.rounded

/-- Large whole numbers are finite as long as their exponent is. -/
theorem finite_ofDecimal {m : ℕ} (hlow : 2 ^ 53 ≤ m) (hhigh : m ≤ 2 ^ 1023) :
    Arith.finite (Arith.ofDecimal m 0 : Float) = true := by
  have hlarge : 2 ^ 1023 < 10 ^ 400 := by decide +kernel
  have hdigits : (Nat.toDigits 10 m).length ≤ 400 :=
    Nat.toDigits_length 10 m 400 (by decide) (hhigh.trans_lt hlarge)
  have hpos : ¬(m = 0 ∨ ((Nat.toDigits 10 m).length : ℤ) + 0 < -400) := by omega
  have hsmall : ¬(400 : ℤ) < (Nat.toDigits 10 m).length + 0 := by omega
  change Arith.finite (ofDecimal m 0) = true
  unfold ofDecimal
  dsimp only
  rw [if_neg hpos, if_neg hsmall, finite_eq]
  have hfits : Fits (2 ^ 52 * 2 ^ 2045 : ℕ) := fits_sign_apply .positive (by decide) le_rfl
  refine (rounded_ofScientific hlow).finite _ hfits ?_
  rw [Nat.abs_cast, Int.ofNat_le]
  calc m * 2 ^ 1074 ≤ 2 ^ 1023 * 2 ^ 1074 := Nat.mul_le_mul_right _ hhigh
    _ = 2 ^ 52 * 2 ^ 2045 := by rw [← pow_add, ← pow_add]

end Binary64

/-! ## factorials -/

/-- The product of the numbers from one on is the factorial. -/
theorem factorial_eq (n : ℕ) : factorial n = n.factorial := by
  induction n with
  | zero => rfl
  | succ n ih => rw [factorial, ih, Nat.factorial_succ]

/-- The last number whose factorial can be represented. -/
def maxFactorial : Nat := 170

/-- Small whole numbers are finite. -/
theorem finite_ofNat : ∀ n < maxFactorial + 1, Arith.finite (Arith.ofDecimal n 0 : Float) = true := by
  decide +kernel

/-- The factorials up to the greatest one are finite. -/
theorem finite_factorial {n : Nat} (h : n ≤ maxFactorial) :
    Arith.finite (Arith.ofDecimal (factorial n) 0 : Float) = true := by
  have hsmall : ∀ k < 19, Arith.finite (Arith.ofDecimal (factorial k) 0 : Float) = true := by
    decide +kernel
  rcases Nat.lt_or_ge n 19 with hn | hn
  · exact hsmall n hn
  · have hlow : 2 ^ 53 ≤ factorial 19 := by decide +kernel
    have hhigh : factorial maxFactorial ≤ 2 ^ 1023 := by decide +kernel
    have hmono : ∀ {j k : ℕ}, j ≤ k → factorial j ≤ factorial k := by
      intro j k hjk
      rw [factorial_eq, factorial_eq]
      exact Nat.factorial_le hjk
    exact Binary64.finite_ofDecimal (hlow.trans (hmono hn)) ((hmono h).trans hhigh)

example : (Arith.ofNat (factorial 171) : Except MathFault Float) = .error .integerTooLarge := by
  decide +kernel

/-- A whole number that is finite is represented. -/
theorem ofNat_of_finite {n : Nat} (h : Arith.finite (Arith.ofDecimal n 0 : Float) = true) :
    (Arith.ofNat n : Except MathFault Float) = .ok (Arith.ofDecimal n 0) := if_pos h

/-- A whole number is represented by a finite one, or by none. -/
theorem ofNat_spec (n : Nat) :
    match (Arith.ofNat n : Except MathFault Float) with
    | .ok v => Arith.finite v = true
    | .error f => f = .integerTooLarge := by
  change match Binary64.ofNat n with | .ok v => _ | .error f => _
  unfold Binary64.ofNat
  dsimp only
  split
  · next hr =>
    split at hr
    · next hfinite => exact Except.ok.inj hr ▸ hfinite
    · cases hr
  · next hr =>
    split at hr
    · cases hr
    · exact (Except.error.inj hr).symm

end Fluxion

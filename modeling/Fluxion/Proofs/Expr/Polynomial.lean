import Fluxion.Proofs.Expr.Derivative
import Fluxion.Proofs.Expr.Simplify
import Fluxion.Proofs.Expr.Tex
import Fluxion.Proofs.Expr.Weight
import Fluxion.Proofs.Term.Rules

/-!
# Fluxion.Proofs.Expr.Polynomial

Polynomials with whole coefficients, simplified without loss.

A polynomial is defined everywhere, so its value is that of its total extension (`Expr.total`), even
where zero is raised to the power of zero.  The rules of simplification compare its numbers only with
whole ones, and whole numbers are near each other only if they are equal.  So a pass does not fail,
and what it leaves is a polynomial with the same values (`Expr.Tidy`).

The derivative of a power is no polynomial as it stands, `n * a ^ (n - 1)`.  For `n = 0` the power is
not defined everywhere, but the factor zero removes it in the first pass.

* `Expr.IsPolynomialOver`, `Expr.IsPolynomial`: polynomials, with and without quotients;
* `Expr.tidy`, `Expr.tidy_derivative`, `Expr.tidy_div`: a pass over a polynomial, over its
  derivative, and over the quotients in the terms of a series;
* `Expr.hasDerivAt_of_isPolynomial`: the symbolic derivative is the derivative, everywhere.
-/

namespace Fluxion

open Noted (Ends Returns)

/-- What the rules of binary nodes lead to, rule by rule. -/
theorem Term.ends_reduceBin {α β : Type} [Arith α] [Term α β] {P : Option β → Prop}
    {E : SimplifyError α β → Prop} {s : Strictness} {op : BinOp} {a b : β}
    (hfold : ∀ v w, literal? a = some v → literal? b = some w → Ends P E (fold s op a b v w))
    (hhoist : ∀ t, hoistNeg? op a b = some t → P (some t)) (hidentity : Ends P E (identity s op a b))
    (hcollapse : ∀ t, collapse? op a b = some t → P (some t)) (hnegBase : Ends P E (negBase op a b)) :
    Ends P E (reduceBin s op a b) := by
  unfold reduceBin
  split
  · next v w hv hw => exact hfold v w hv hw
  · split
    · next t ht => exact Noted.ends_pure (hhoist t ht)
    · refine hidentity.bind fun o ho => ?_
      split
      · exact Noted.ends_pure ho
      · split
        · next t ht => exact Noted.ends_pure (hcollapse t ht)
        · exact hnegBase

namespace Expr

/-! ## polynomials -/

/-- Built from whole numbers and variables by sums, differences, products, negations, powers whose
exponent is a whole number, and the quotients that are allowed. -/
def IsPolynomialOver (quotient : Expr ℝ → Expr ℝ → Prop) : Expr ℝ → Prop
  | num v => ∃ k : ℤ, v = k
  | var _ => True
  | bin .add a b => a.IsPolynomialOver quotient ∧ b.IsPolynomialOver quotient
  | bin .sub a b => a.IsPolynomialOver quotient ∧ b.IsPolynomialOver quotient
  | bin .mul a b => a.IsPolynomialOver quotient ∧ b.IsPolynomialOver quotient
  | bin .div a b => quotient a b
  | bin .pow a b => a.IsPolynomialOver quotient ∧ ∃ n : ℕ, b = num (n : ℝ)
  | neg a => a.IsPolynomialOver quotient
  | app _ _ => False

/-- Built from whole numbers and variables by sums, differences, products, negations and powers whose
exponent is a whole number. -/
def IsPolynomial (e : Expr ℝ) : Prop := e.IsPolynomialOver fun _ _ => False

variable {quotient : Expr ℝ → Expr ℝ → Prop} {op : BinOp} {a b e t : Expr ℝ}

/-- A sum, a difference or a product is a polynomial exactly if both operands are. -/
theorem isPolynomialOver_bin (hop : op.isLoose = true) :
    (bin op a b).IsPolynomialOver quotient ↔
      a.IsPolynomialOver quotient ∧ b.IsPolynomialOver quotient := by
  cases op with
  | add | sub | mul => exact Iff.rfl
  | div | pow => cases hop

theorem isPolynomialOver_num (k : ℤ) : (num (k : ℝ)).IsPolynomialOver quotient := ⟨k, rfl⟩

theorem isPolynomialOver_zero : (num (Arith.zero : ℝ)).IsPolynomialOver quotient :=
  ⟨0, Int.cast_zero.symm⟩

theorem isPolynomialOver_one : (num (Arith.one : ℝ)).IsPolynomialOver quotient :=
  ⟨1, Int.cast_one.symm⟩

theorem isPolynomialOver_two : (num (Arith.two : ℝ)).IsPolynomialOver quotient :=
  ⟨2, Int.cast_ofNat 2 |>.symm⟩

/-- A polynomial is one, whatever quotients are allowed. -/
theorem IsPolynomial.over (h : e.IsPolynomial) : e.IsPolynomialOver quotient := by
  induction e with
  | num _ | var _ => exact h
  | bin op a b iha ihb =>
      cases op with
      | add | sub | mul => exact ⟨iha h.1, ihb h.2⟩
      | div => exact h.elim
      | pow => exact ⟨iha h.1, h.2⟩
  | neg a ih => exact ih h
  | app _ _ _ => exact h.elim

/-- Literals of whole numbers are polynomials. -/
theorem isPolynomialOver_literal (k : ℤ) :
    (Term.literal (k : ℝ) : Expr ℝ).IsPolynomialOver quotient := by
  unfold Term.literal
  split
  · exact isPolynomialOver_num k
  · exact ⟨-k, (Int.cast_neg k).symm⟩

/-- A literal has its number for a value. -/
theorem total_literal (v : ℝ) (env : Assignment ℝ) : (Term.literal v : Expr ℝ).total env = v :=
  total_of_evaluate (denotes_literal.mpr rfl).1

/-- The numbers of a polynomial are whole, negated or not. -/
theorem whole_of_literal? {v : ℝ} (ha : a.IsPolynomialOver quotient)
    (hv : Term.literal? a = some v) : (∃ k : ℤ, v = k) ∧ ∀ env, a.total env = v := by
  cases a with
  | num w =>
      obtain rfl : w = v := Option.some.inj hv
      exact ⟨ha, fun _ => rfl⟩
  | neg c =>
      cases c with
      | num w =>
          obtain rfl : -w = v := Option.some.inj hv
          obtain ⟨k, rfl⟩ := ha
          exact ⟨⟨-k, (Int.cast_neg k).symm⟩, fun _ => rfl⟩
      | var _ | bin _ _ _ | neg _ | app _ _ => cases hv
  | var _ | bin _ _ _ | app _ _ => cases hv

/-- What is near a whole number is that number. -/
theorem eq_num_of_near {k : ℤ} (ha : a.IsPolynomialOver quotient)
    (h : Term.isNear (k : ℝ) a = true) : a = num (k : ℝ) := by
  cases a with
  | num v =>
      obtain ⟨l, rfl⟩ := ha
      rw [Term.eq_of_near_intCast h]
  | var _ | bin _ _ _ | neg _ | app _ _ => exact absurd h Bool.false_ne_true

theorem eq_zero_of_nearZero (ha : a.IsPolynomialOver quotient) (h : Term.nearZero a = true) :
    a = num 0 := by
  rw [← Int.cast_zero]
  refine eq_num_of_near ha ?_
  rw [Int.cast_zero]
  exact h

theorem eq_one_of_nearOne (ha : a.IsPolynomialOver quotient) (h : Term.nearOne a = true) :
    a = num 1 := by
  rw [← Int.cast_one]
  refine eq_num_of_near ha ?_
  rw [Int.cast_one]
  exact h

/-! ## rules of simplification -/

/-- A polynomial with the values of an expression. -/
structure Replaces (quotient : Expr ℝ → Expr ℝ → Prop) (e t : Expr ℝ) : Prop where
  isPolynomial : t.IsPolynomialOver quotient
  total (env : Assignment ℝ) : t.total env = e.total env

/-- What replaces a replacement replaces the first expression. -/
theorem Replaces.trans {u : Expr ℝ} (h : Replaces quotient e t) (h' : Replaces quotient t u) :
    Replaces quotient e u := ⟨h'.isPolynomial, fun env => (h'.total env).trans (h.total env)⟩

/-- What a rule puts in the place of an expression, if it applies. -/
def Offers (quotient : Expr ℝ → Expr ℝ → Prop) (e : Expr ℝ) (o : Option (Expr ℝ)) : Prop :=
  ∀ t, o = some t → Replaces quotient e t

theorem offers_some (h : Replaces quotient e t) : Offers quotient e (some t) :=
  fun _ ht => Option.some.inj ht ▸ h

theorem offers_none : Offers quotient e none := fun _ ht => nomatch ht

/-- Folding comes to the number that is the value. -/
theorem returns_fold {v w : ℝ} {m : ℤ} (ha : ∀ env, a.total env = v) (hb : ∀ env, b.total env = w)
    (hd : op.DefinedAt v w) (hm : op.real v w = m) :
    Returns (Offers quotient (bin op a b)) (Term.fold .lenient op a b v w) := by
  rw [Term.fold_of_definedAt hd, hm]
  refine Noted.ends_pure (offers_some ⟨isPolynomialOver_literal m, fun env => ?_⟩)
  rw [total_literal, total, ha, hb, hm]

/-! ### sums, differences and products -/

/-- The sign may be put in front. -/
theorem replaces_hoistNeg (hop : op.isLoose = true) (ha : a.IsPolynomialOver quotient)
    (hb : b.IsPolynomialOver quotient) (h : Term.hoistNeg? op a b = some t) :
    Replaces quotient (bin op a b) t := by
  unfold Term.hoistNeg? at h
  split at h
  case h_8 | h_10 | h_12 => cases hop
  case h_13 => cases h
  case h_1 | h_2 | h_7 =>
    obtain rfl := eq_neg_of_view ‹Term.view a = _›
    obtain rfl := eq_neg_of_view ‹Term.view b = _›
    obtain rfl := Option.some.inj h
    refine ⟨⟨ha, hb⟩, fun env => ?_⟩
    simp only [Term.bin, Term.neg, total, BinOp.real]
    ring
  case h_3 | h_4 | h_11 =>
    obtain rfl := eq_neg_of_view ‹Term.view b = _›
    obtain rfl := Option.some.inj h
    refine ⟨⟨ha, hb⟩, fun env => ?_⟩
    simp only [Term.bin, Term.neg, total, BinOp.real]
    ring
  case h_5 =>
    obtain rfl := eq_neg_of_view ‹Term.view a = _›
    obtain rfl := Option.some.inj h
    refine ⟨⟨hb, ha⟩, fun env => ?_⟩
    simp only [Term.bin, total, BinOp.real]
    ring
  case h_6 | h_9 =>
    obtain rfl := eq_neg_of_view ‹Term.view a = _›
    obtain rfl := Option.some.inj h
    refine ⟨⟨ha, hb⟩, fun env => ?_⟩
    simp only [Term.bin, Term.neg, total, BinOp.real]
    ring

/-- Neutral operands may be dropped. -/
theorem returns_identity (hop : op.isLoose = true) (ha : a.IsPolynomialOver quotient)
    (hb : b.IsPolynomialOver quotient) :
    Returns (Offers quotient (bin op a b)) (Term.identity .lenient op a b) := by
  have hzero : (num (Arith.zero : ℝ)).IsPolynomialOver quotient := isPolynomialOver_zero
  cases op with
  | div | pow => cases hop
  | add =>
      simp only [Term.identity]
      split
      · next h =>
        refine Noted.ends_pure (offers_some ⟨ha, fun env => ?_⟩)
        simp only [eq_zero_of_nearZero hb h, total, BinOp.real, add_zero]
      · split
        · next h =>
          refine Noted.ends_pure (offers_some ⟨hb, fun env => ?_⟩)
          simp only [eq_zero_of_nearZero ha h, total, BinOp.real, zero_add]
        · exact Noted.ends_pure offers_none
  | sub =>
      simp only [Term.identity]
      split
      · next h =>
        refine Noted.ends_pure (offers_some ⟨ha, fun env => ?_⟩)
        simp only [eq_zero_of_nearZero hb h, total, BinOp.real, sub_zero]
      · split
        · next h =>
          refine Noted.ends_pure (offers_some ⟨hb, fun env => ?_⟩)
          simp only [Term.neg, eq_zero_of_nearZero ha h, total, BinOp.real, zero_sub]
        · exact Noted.ends_pure offers_none
  | mul =>
      simp only [Term.identity, Bool.or_eq_true]
      split
      · next h =>
        refine Noted.ends_pure (offers_some ⟨hzero, fun env => ?_⟩)
        rcases h with h | h
        · simp only [Term.num, eq_zero_of_nearZero ha h, total, BinOp.real, zero_mul, real_zero]
        · simp only [Term.num, eq_zero_of_nearZero hb h, total, BinOp.real, mul_zero, real_zero]
      · split
        · next h =>
          refine Noted.ends_pure (offers_some ⟨ha, fun env => ?_⟩)
          simp only [eq_one_of_nearOne hb h, total, BinOp.real, mul_one]
        · split
          · next h =>
            refine Noted.ends_pure (offers_some ⟨hb, fun env => ?_⟩)
            simp only [eq_one_of_nearOne ha h, total, BinOp.real, one_mul]
          · exact Noted.ends_pure offers_none

/-- Equal operands may collapse. -/
theorem replaces_collapse (hop : op.isLoose = true) (ha : a.IsPolynomialOver quotient)
    (h : Term.collapse? op a b = some t) : Replaces quotient (bin op a b) t := by
  unfold Term.collapse? at h
  split at h
  · next hab =>
    obtain rfl : a = b := eq_of_same hab
    cases op with
    | add =>
        obtain rfl := Option.some.inj h
        exact ⟨⟨isPolynomialOver_two, ha⟩, fun env => two_mul (a.total env)⟩
    | sub =>
        obtain rfl := Option.some.inj h
        exact ⟨isPolynomialOver_zero, fun env => (sub_self (a.total env)).symm⟩
    | mul =>
        obtain rfl := Option.some.inj h
        refine ⟨⟨ha, 2, congrArg num (Nat.cast_ofNat (R := ℝ)).symm⟩, fun env => ?_⟩
        exact (Real.rpow_two (a.total env)).trans (sq (a.total env))
    | div | pow => cases hop
  · cases h

/-- The rules replace sums, differences and products of polynomials. -/
theorem returns_reduceBin (hop : op.isLoose = true) (ha : a.IsPolynomialOver quotient)
    (hb : b.IsPolynomialOver quotient) :
    Returns (Offers quotient (bin op a b)) (Term.reduceBin .lenient op a b) := by
  refine Term.ends_reduceBin (fun v w hv hw => ?_)
    (fun t ht => offers_some (replaces_hoistNeg hop ha hb ht)) (returns_identity hop ha hb)
    (fun t ht => offers_some (replaces_collapse hop ha ht)) ?_
  · obtain ⟨⟨k, rfl⟩, hva⟩ := whole_of_literal? ha hv
    obtain ⟨⟨l, rfl⟩, hvb⟩ := whole_of_literal? hb hw
    cases op with
    | add => exact returns_fold hva hvb trivial (Int.cast_add k l).symm
    | sub => exact returns_fold hva hvb trivial (Int.cast_sub k l).symm
    | mul => exact returns_fold hva hvb trivial (Int.cast_mul k l).symm
    | div | pow => cases hop
  · cases op with
    | add | sub | mul => exact Noted.ends_pure offers_none
    | div | pow => cases hop

/-! ### powers -/

/-- Powers with natural exponents are those of numbers. -/
theorem total_power (n : ℕ) (env : Assignment ℝ) :
    (bin .pow a (num (n : ℝ))).total env = a.total env ^ n := Real.rpow_natCast _ n

/-- A power of a negation, whose exponent is whole. -/
theorem returns_negBase (ha : a.IsPolynomialOver quotient) (n : ℕ) :
    Returns (Offers quotient (bin .pow a (num (n : ℝ)))) (Term.negBase .pow a (num (n : ℝ))) := by
  cases a with
  | num _ | var _ | bin _ _ _ | app _ _ => exact Noted.ends_pure offers_none
  | neg c =>
      have hround : round (n : ℝ) = n := round_natCast n
      have hnear : |(n : ℝ) - round (n : ℝ)| < Arith.tolerance := by
        rw [hround, Int.cast_natCast, sub_self, abs_zero]
        norm_num [Arith.tolerance]
      simp only [Term.negBase, Term.view, view, real_parity_of_lt hnear, hround, Parity.ofInt,
        Int.even_coe_nat]
      by_cases heven : Even n
      · rw [if_pos heven]
        refine Noted.ends_pure (offers_some ⟨⟨ha, n, rfl⟩, fun env => ?_⟩)
        rw [total_power, total]
        exact (total_power n env).trans (heven.neg_pow _).symm
      · rw [if_neg heven]
        refine Noted.ends_pure (offers_some ⟨⟨ha, n, rfl⟩, fun env => ?_⟩)
        rw [total_power, total]
        exact (congrArg Neg.neg (total_power n env)).trans
          ((Nat.not_even_iff_odd.mp heven).neg_pow _).symm

/-- Neutral exponents and bases may be dropped. -/
theorem returns_identity_power (ha : a.IsPolynomialOver quotient) (n : ℕ) :
    Returns (Offers quotient (bin .pow a (num (n : ℝ))))
      (Term.identity .lenient .pow a (num (n : ℝ))) := by
  have hn : (num (n : ℝ)).IsPolynomialOver quotient := ⟨n, (Int.cast_natCast n).symm⟩
  simp only [Term.identity]
  split
  · next h =>
    have hzero : (n : ℝ) = 0 := num.inj (eq_zero_of_nearZero hn h)
    refine Noted.ends_pure (offers_some ⟨isPolynomialOver_one, fun env => ?_⟩)
    simp only [Term.num, total, BinOp.real, hzero, Real.rpow_zero, real_one]
  · next hzero =>
    split
    · next h =>
      have hone : (n : ℝ) = 1 := num.inj (eq_one_of_nearOne hn h)
      refine Noted.ends_pure (offers_some ⟨ha, fun env => ?_⟩)
      simp only [total, BinOp.real, hone, Real.rpow_one]
    · split
      · next h =>
        refine Noted.ends_pure (offers_some ⟨isPolynomialOver_one, fun env => ?_⟩)
        simp only [Term.num, eq_one_of_nearOne ha h, total, BinOp.real, Real.one_rpow, real_one]
      · split
        · next h =>
          -- the exponent is not zero, or an earlier rule would have applied
          have hne : n ≠ 0 := by
            rintro rfl
            rw [Nat.cast_zero] at hzero
            exact hzero (real_near_self 0)
          refine Noted.ends_pure (offers_some ⟨isPolynomialOver_zero, fun env => ?_⟩)
          rw [eq_zero_of_nearZero ha (Bool.and_eq_true_iff.mp h).1, total_power, total,
            zero_pow hne]
          rfl
        · exact Noted.ends_pure offers_none

/-- A power is neither rearranged nor collapsed. -/
theorem hoistNeg?_pow : Term.hoistNeg? .pow a b = none := rfl

theorem collapse?_pow : Term.collapse? .pow a b = none := by
  unfold Term.collapse?
  split
  · rfl
  · rfl

/-- The rules replace powers of polynomials. -/
theorem returns_reduceBin_power (ha : a.IsPolynomialOver quotient) (n : ℕ) :
    Returns (Offers quotient (bin .pow a (num (n : ℝ))))
      (Term.reduceBin .lenient .pow a (num (n : ℝ))) := by
  refine Term.ends_reduceBin (fun v w hv hw => ?_) (fun t ht => ?_) (returns_identity_power ha n)
    (fun t ht => ?_) (returns_negBase ha n)
  · obtain ⟨⟨k, rfl⟩, hva⟩ := whole_of_literal? ha hv
    obtain rfl : (n : ℝ) = w := Option.some.inj hw
    have hdefined : PowDefinedAt k ((n : ℤ) : ℝ) :=
      powDefinedAt_intCast.mpr (.inr (Int.natCast_nonneg n))
    rw [Int.cast_natCast] at hdefined
    have hvalue : BinOp.pow.real k n = ((k ^ n : ℤ) : ℝ) := by
      rw [Int.cast_pow]
      exact Real.rpow_natCast k n
    exact returns_fold hva (fun _ => rfl) hdefined hvalue
  · rw [hoistNeg?_pow] at ht
    cases ht
  · rw [collapse?_pow] at ht
    cases ht

/-! ## passes -/

/-- A pass does not fail, and leaves a polynomial with the same values. -/
def Tidy (quotient : Expr ℝ → Expr ℝ → Prop) (e : Expr ℝ) : Prop :=
  Returns (fun p => Replaces quotient e p.1) (pass .lenient e)

/-- A rule that applies after others replaces the first expression. -/
theorem replaces_settled {e' : Expr ℝ} {below : Bool} {o : Option (Expr ℝ)}
    (h : Replaces quotient e e') (ho : Offers quotient e' o) :
    Replaces quotient e (settled below e' o).1 := by
  cases o with
  | none => exact h
  | some t => exact h.trans (ho t rfl)

theorem tidy_num (k : ℤ) : Tidy quotient (num (k : ℝ)) := by
  refine Noted.ends_pure (replaces_settled ⟨isPolynomialOver_num k, fun _ => rfl⟩ fun t ht => ?_)
  unfold Term.reduceNum at ht
  split at ht
  · obtain rfl := Option.some.inj ht
    rw [real_add, real_zero, add_zero]
    exact ⟨isPolynomialOver_literal k, fun env => total_literal k env⟩
  · cases ht

theorem tidy_var (x : String) : Tidy quotient (var x) := Noted.ends_pure ⟨trivial, fun _ => rfl⟩

/-- Sums, differences and products of tidy expressions are tidy. -/
theorem tidy_loose (hop : op.isLoose = true) (ha : Tidy quotient a) (hb : Tidy quotient b) :
    Tidy quotient (bin op a b) := by
  refine ha.bind fun p hp => hb.bind fun q hq => ?_
  have hreduce := returns_reduceBin hop hp.isPolynomial hq.isPolynomial
  refine hreduce.bind fun o ho => Noted.ends_pure (replaces_settled ⟨?_, fun env => ?_⟩ ho)
  · exact (isPolynomialOver_bin hop).mpr ⟨hp.isPolynomial, hq.isPolynomial⟩
  · rw [total, total, hp.total, hq.total]

/-- Negations of tidy expressions are tidy. -/
theorem tidy_neg (ha : Tidy quotient a) : Tidy quotient (neg a) := by
  refine ha.bind fun p hp => Noted.ends_pure ?_
  have hneg : Replaces quotient (neg a) (neg p.1) :=
    ⟨hp.isPolynomial, fun env => congrArg Neg.neg (hp.total env)⟩
  refine replaces_settled hneg fun t ht => ?_
  unfold Term.reduceNeg at ht
  split at ht
  · next c hc =>
    obtain rfl := Option.some.inj ht
    have hpoly := hp.isPolynomial
    rw [eq_neg_of_view hc] at hpoly ⊢
    exact ⟨hpoly, fun env => (neg_neg (c.total env)).symm⟩
  · split at ht
    · next hzero =>
      obtain rfl := Option.some.inj ht
      rw [eq_zero_of_nearZero hp.isPolynomial hzero]
      exact ⟨isPolynomialOver_zero, fun env => neg_zero.symm⟩
    · cases ht

/-- A binary node with a whole number on the right. -/
theorem tidy_natCast_right {inner : Expr ℝ → Expr ℝ → Prop} (ha : Tidy inner a) (n : ℕ)
    (h : ∀ a', Replaces inner a a' → (bin op a' (num (n : ℝ))).IsPolynomialOver quotient ∧
      Returns (Offers quotient (bin op a' (num (n : ℝ))))
        (Term.reduceBin .lenient op a' (num (n : ℝ)))) :
    Tidy quotient (bin op a (num (n : ℝ))) := by
  refine ha.bind fun p hp =>
    (Noted.returns_of_ok (pass_natCast .lenient n) rfl).bind fun q hq => ?_
  subst hq
  obtain ⟨hpoly, hreduce⟩ := h p.1 hp
  refine hreduce.bind fun o ho => Noted.ends_pure (replaces_settled ⟨hpoly, fun env => ?_⟩ ho)
  rw [total, hp.total]
  rfl

/-- Powers of tidy expressions are tidy. -/
theorem tidy_power (ha : Tidy quotient a) (n : ℕ) : Tidy quotient (bin .pow a (num (n : ℝ))) :=
  tidy_natCast_right ha n fun _ ha' =>
    ⟨⟨ha'.isPolynomial, n, rfl⟩, returns_reduceBin_power ha'.isPolynomial n⟩

/-- A pass over a polynomial, if passes over its quotients leave polynomials. -/
theorem tidy (hdiv : ∀ a b, quotient a b → Tidy quotient (bin .div a b))
    (he : e.IsPolynomialOver quotient) : Tidy quotient e := by
  induction e with
  | num v =>
      obtain ⟨k, rfl⟩ := he
      exact tidy_num k
  | var x => exact tidy_var x
  | bin op a b iha ihb =>
      cases op with
      | add | sub | mul => exact tidy_loose rfl (iha he.1) (ihb he.2)
      | div => exact hdiv a b he
      | pow =>
          obtain ⟨ha, n, rfl⟩ := he
          exact tidy_power (iha ha) n
  | neg a ih => exact tidy_neg (ih he)
  | app _ _ _ => exact he.elim

/-- Polynomials are tidy. -/
theorem IsPolynomial.tidy (he : e.IsPolynomial) : Tidy (fun _ _ => False) e :=
  Expr.tidy (fun _ _ h => h.elim) he

/-! ## derivatives -/

theorem literal_natCast (n : ℕ) : (Term.literal (n : ℝ) : Expr ℝ) = num (n : ℝ) :=
  if_pos ((real_nonneg _).mpr (Nat.cast_nonneg n))

theorem literal?_literal (v : ℝ) : Term.literal? (Term.literal v : Expr ℝ) = some v := by
  unfold Term.literal
  split
  · rfl
  · exact congrArg some (neg_neg v)

/-- A pass computes an exponent less one. -/
theorem pass_exponent (n : ℕ) :
    (pass .lenient (bin .sub (num (n : ℝ)) Term.unit)).result =
      .ok (Term.literal ((n : ℝ) - 1), true) := by
  have hfold : Term.reduceBin .lenient .sub (num (n : ℝ)) (Term.unit : Expr ℝ) =
      pure (some (Term.literal ((n : ℝ) - 1))) := by
    change Term.fold .lenient .sub (num (n : ℝ)) (Term.unit : Expr ℝ) (n : ℝ) 1 = _
    exact Term.fold_of_definedAt trivial
  have hone : (pass .lenient (Term.unit : Expr ℝ)).result = .ok (Term.unit, false) :=
    pass_one .lenient
  exact pass_bin_of_some (pass_natCast .lenient n) hone (congrArg Noted.result hfold)

/-- The exponent of a power comes down by one. -/
theorem tidy_lowerPower (ha : Tidy quotient a) (n : ℕ) :
    Tidy quotient (bin .pow a (bin .sub (num ((n + 1 : ℕ) : ℝ)) Term.unit)) := by
  have hexponent : (Term.literal (((n + 1 : ℕ) : ℝ) - 1) : Expr ℝ) = num (n : ℝ) := by
    rw [Nat.cast_succ, add_sub_cancel_right, literal_natCast]
  have htotal : ∀ env, (bin .sub (num ((n + 1 : ℕ) : ℝ)) (Term.unit : Expr ℝ)).total env = n := by
    intro env
    rw [← total_literal (n : ℝ) env, literal_natCast, ← hexponent, total_literal]
    rfl
  refine ha.bind fun p hp =>
    (Noted.returns_of_ok (pass_exponent (n + 1)) rfl).bind fun q hq => ?_
  obtain rfl : (Term.literal (((n + 1 : ℕ) : ℝ) - 1), true) = q := hq
  dsimp only
  rw [hexponent]
  refine (returns_reduceBin_power hp.isPolynomial n).bind fun o ho => Noted.ends_pure ?_
  refine replaces_settled ⟨⟨hp.isPolynomial, n, rfl⟩, fun env => ?_⟩ ho
  rw [total, hp.total]
  exact congrArg (BinOp.pow.real (a.total env)) (htotal env).symm

/-- A number, if anything. -/
def OffersNumber (o : Option (Expr ℝ)) : Prop := ∀ t, o = some t → ∃ v, t = Term.literal v

theorem offersNumber_none : OffersNumber none := fun _ ht => nomatch ht

theorem offersNumber_literal (v : ℝ) : OffersNumber (some (Term.literal v)) :=
  fun _ ht => ⟨v, (Option.some.inj ht).symm⟩

/-- An operation on numbers leaves the node as it is where it has no value. -/
theorem returns_fold_number (v w : ℝ) :
    Returns OffersNumber (Term.fold .lenient op a b v w) := by
  unfold Term.fold
  split
  · exact (Noted.ends_note _).bind fun _ _ => Noted.ends_pure offersNumber_none
  · split
    · exact (Noted.ends_note _).bind fun _ _ => Noted.ends_pure offersNumber_none
    · exact (Noted.ends_note _).bind fun _ _ => Noted.ends_pure offersNumber_none
    · split
      · exact Noted.ends_pure (offersNumber_literal _)
      · exact (Noted.ends_note _).bind fun _ _ => Noted.ends_pure offersNumber_none

/-- The inverse of what is a number by then is a number, or stays as it is. -/
theorem returns_reduceBin_inverse :
    Returns OffersNumber (Term.reduceBin .lenient .pow a (neg (num (1 : ℝ)))) := by
  refine Term.ends_reduceBin (fun v w _ _ => returns_fold_number v w) (fun t ht => ?_) ?_
    (fun t ht => ?_) ?_
  · rw [hoistNeg?_pow] at ht
    cases ht
  · have hone : some (num (Arith.one : ℝ)) = some (Term.literal 1) := by
      have h := literal_natCast 1
      rw [Nat.cast_one] at h
      exact congrArg some h.symm
    change Returns _ (if Term.nearOne a = true then pure (some (num Arith.one))
      else if (Term.nearZero a && false) = true then pure (some (num Arith.zero)) else pure none)
    rw [Bool.and_false, if_neg Bool.false_ne_true, hone]
    split
    · exact Noted.ends_pure (offersNumber_literal 1)
    · exact Noted.ends_pure offersNumber_none
  · rw [collapse?_pow] at ht
    cases ht
  · cases a with
    | num _ | var _ | bin _ _ _ | neg _ | app _ _ => exact Noted.ends_pure offersNumber_none

/-- Zero times a number, or a power. -/
theorem reduceBin_zero_mul {c : Expr ℝ}
    (hc : (∃ v, c = Term.literal v) ∨ ∃ p q, c = bin .pow p q) :
    (Term.reduceBin .lenient .mul (num (0 : ℝ)) c).result = .ok (some (num 0)) := by
  rcases hc with ⟨v, rfl⟩ | ⟨p, q, rfl⟩
  · have hzero : (Term.literal (BinOp.mul.real 0 v) : Expr ℝ) = num 0 := by
      have h := literal_natCast 0
      rw [Nat.cast_zero] at h
      rw [BinOp.real, zero_mul, h]
    unfold Term.reduceBin
    rw [literal?_literal]
    change (Term.fold .lenient .mul (num (0 : ℝ)) (Term.literal v) 0 v).result = _
    have hdefined : BinOp.mul.DefinedAt 0 v := trivial
    rw [Term.fold_of_definedAt hdefined, hzero]
    rfl
  · have hnear : Term.nearZero (num (0 : ℝ)) = true := real_near_self 0
    refine Noted.bind_result_of_ok (a := some (num 0)) ?_ _
    simp only [Term.identity, hnear, Bool.true_or, if_true]
    rfl

/-- The degenerate factor in the derivative of a power with the exponent zero. -/
theorem tidy_zeroPower {inner : Expr ℝ → Expr ℝ → Prop} (ha : Tidy inner a) :
    Tidy quotient (bin .mul (num (0 : ℝ)) (bin .pow a (bin .sub (num (0 : ℝ)) Term.unit))) := by
  have hexponent := pass_exponent 0
  have hliteral : (Term.literal (((0 : ℕ) : ℝ) - 1) : Expr ℝ) = neg (num 1) := by
    have hneg : ¬Arith.nonneg (((0 : ℕ) : ℝ) - 1) = true := by
      rw [real_nonneg]
      norm_num
    rw [Term.literal, if_neg hneg, real_neg, Nat.cast_zero, zero_sub, neg_neg]
    rfl
  rw [hliteral, Nat.cast_zero] at hexponent
  have hpower : Returns (fun p => (∃ v, p.1 = Term.literal v) ∨ ∃ p' q, p.1 = bin .pow p' q)
      (pass .lenient (bin .pow a (bin .sub (num (0 : ℝ)) Term.unit))) := by
    refine ha.bind fun p _ => (Noted.returns_of_ok hexponent rfl).bind fun q hq => ?_
    obtain rfl : (neg (num 1), true) = q := hq
    refine returns_reduceBin_inverse.bind fun o ho => Noted.ends_pure ?_
    cases o with
    | none => exact .inr ⟨p.1, _, rfl⟩
    | some t => exact .inl (ho t rfl)
  refine (Noted.returns_of_ok (pass_zero .lenient) rfl).bind fun p hp => ?_
  subst hp
  refine hpower.bind fun q hq => (Noted.returns_of_ok (reduceBin_zero_mul hq) rfl).bind fun o ho => ?_
  obtain rfl : some (num 0) = o := ho
  refine Noted.ends_pure ⟨⟨0, Int.cast_zero.symm⟩, fun env => ?_⟩
  exact (zero_mul _).symm

/-- The factor in the derivative of a power, degenerate or not. -/
theorem tidy_lowered (ha : Tidy quotient a) (n : ℕ) :
    Tidy quotient (bin .mul (num (n : ℝ)) (bin .pow a (bin .sub (num (n : ℝ)) Term.unit))) := by
  cases n with
  | zero =>
      rw [Nat.cast_zero]
      exact tidy_zeroPower ha
  | succ n =>
      have hn : Tidy quotient (num ((n + 1 : ℕ) : ℝ)) := by
        rw [← Int.cast_natCast]
        exact tidy_num _
      exact tidy_loose rfl hn (tidy_lowerPower ha n)

/-- The rule for a constant exponent, for a power that is not constant. -/
theorem binDerivative_power {x : String} {v : ℝ} {da db : Expr ℝ}
    (hc : ¬(bin .pow a (num v)).isConst x = true) :
    binDerivative x .pow a (num v) da db =
      bin .mul (bin .mul (num v) (bin .pow a (bin .sub (num v) Term.unit))) da := by
  have hbase : ¬a.isConst x = true := fun h => hc (Bool.and_eq_true_iff.mpr ⟨h, rfl⟩)
  have hpower : (num v).isConst x = true := rfl
  rw [binDerivative, powerDerivative, if_neg hbase, if_pos hpower]
  rfl

/-- A pass over the derivative of a polynomial, by the rules that give it. -/
theorem tidy_derivative (he : e.IsPolynomial) (x : String) :
    Tidy (fun _ _ => False) (e.derivative x) := by
  have hzero : Tidy (fun _ _ => False) (num (Arith.zero : ℝ)) :=
    IsPolynomial.tidy isPolynomialOver_zero
  induction e with
  | num v => exact hzero
  | var y =>
      unfold derivative
      split
      · exact IsPolynomial.tidy isPolynomialOver_one
      · exact hzero
  | bin op a b iha ihb =>
      unfold derivative
      split
      · exact hzero
      · next hc =>
        cases op with
        | add | sub => exact tidy_loose rfl (iha he.1) (ihb he.2)
        | mul =>
            have ha : Tidy (fun _ _ => False) a := IsPolynomial.tidy he.1
            have hb : Tidy (fun _ _ => False) b := IsPolynomial.tidy he.2
            exact tidy_loose rfl (tidy_loose rfl (iha he.1) hb) (tidy_loose rfl ha (ihb he.2))
        | div => exact he.elim
        | pow =>
            obtain ⟨ha, n, rfl⟩ := he
            rw [binDerivative_power hc]
            exact tidy_loose rfl (tidy_lowered (IsPolynomial.tidy ha) n) (iha ha)
  | neg a ih =>
      unfold derivative
      split
      · exact hzero
      · exact tidy_neg (ih he)
  | app _ _ _ => exact he.elim

/-- The factor in the derivative of a power. -/
theorem total_lowered (n : ℕ) (env : Assignment ℝ) :
    (bin .mul (num (n : ℝ)) (bin .pow a (bin .sub (num (n : ℝ)) Term.unit))).total env =
      n * a.total env ^ (n - 1) := by
  cases n with
  | zero =>
      rw [Nat.cast_zero, zero_mul]
      exact zero_mul _
  | succ n =>
      have hexponent : ((n + 1 : ℕ) : ℝ) - 1 = n := by rw [Nat.cast_succ, add_sub_cancel_right]
      change ((n + 1 : ℕ) : ℝ) * a.total env ^ (((n + 1 : ℕ) : ℝ) - 1) = _
      rw [hexponent, Real.rpow_natCast, Nat.add_sub_cancel]

/-- The symbolic derivative of a polynomial is its derivative, everywhere. -/
theorem hasDerivAt_of_isPolynomial (he : e.IsPolynomial) (x : String) (env : Assignment ℝ) (r : ℝ) :
    HasDerivAt (fun s => e.total (env.update x s)) ((e.derivative x).total (env.update x r)) r := by
  induction e with
  | num v => exact hasDerivAt_const r v
  | var y => exact hasDerivAt_var x y env _
  | bin op a b iha ihb =>
      by_cases hc : (bin op a b).isConst x = true
      · rw [derivative, if_pos hc]
        exact hasDerivAt_of_isConst hc
      · rw [derivative, if_neg hc]
        cases op with
        | add => exact (iha he.1).add (ihb he.2)
        | sub => exact (iha he.1).sub (ihb he.2)
        | mul => exact (iha he.1).mul (ihb he.2)
        | div => exact he.elim
        | pow =>
            obtain ⟨ha, n, rfl⟩ := he
            rw [binDerivative_power hc]
            simp only [total_power]
            refine ((iha ha).pow n).congr_deriv ?_
            exact congrArg (· * (a.derivative x).total (env.update x r)) (total_lowered n _).symm
  | neg a ih =>
      by_cases hc : a.isConst x = true
      · rw [derivative, if_pos hc]
        exact hasDerivAt_of_isConst (e := neg a) hc
      · rw [derivative, if_neg hc]
        exact (ih he).neg
  | app _ _ _ => exact he.elim

/-! ## quotients -/

/-- A polynomial over a whole number, that is zero if it is the same everywhere.  So it never becomes
a quotient of two numbers, which would not be whole. -/
def IsShare (a b : Expr ℝ) : Prop :=
  a.IsPolynomial ∧ (∀ v, (∀ env, a.total env = v) → v = 0) ∧ ∃ d : ℕ, 0 < d ∧ b = num (d : ℝ)

/-- The rules for a quotient.  If its numerator is a number, that is zero. -/
theorem returns_reduceBin_share (ha : a.IsPolynomial)
    (hconst : ∀ v, (∀ env, a.total env = v) → v = 0) {d : ℕ} (hd : 0 < d) :
    Returns (Offers IsShare (bin .div a (num (d : ℝ))))
      (Term.reduceBin .lenient .div a (num (d : ℝ))) := by
  have hne : (d : ℝ) ≠ 0 := Nat.cast_ne_zero.mpr hd.ne'
  have hdpoly : (num (d : ℝ)).IsPolynomial := ⟨d, (Int.cast_natCast d).symm⟩
  refine Term.ends_reduceBin (fun v w hv hw => ?_) (fun t ht => ?_) ?_ (fun t ht => ?_) ?_
  · obtain ⟨-, hva⟩ := whole_of_literal? ha hv
    obtain rfl : v = 0 := hconst v hva
    obtain rfl : (d : ℝ) = w := Option.some.inj hw
    have hzero : BinOp.div.real 0 d = ((0 : ℤ) : ℝ) := by rw [BinOp.real, zero_div, Int.cast_zero]
    exact returns_fold hva (fun _ => rfl) hne hzero
  · cases a with
    | num _ | var _ | bin _ _ _ | app _ _ => cases ht
    | neg c =>
        obtain rfl := Option.some.inj ht
        have hconst' : ∀ v, (∀ env, c.total env = v) → v = 0 := fun v hv =>
          neg_eq_zero.mp (hconst (-v) fun env => congrArg Neg.neg (hv env))
        refine offers_some ⟨⟨ha, hconst', d, hd, rfl⟩, fun env => ?_⟩
        exact (neg_div _ _).symm
  · simp only [Term.identity]
    split
    · next h => exact absurd (num.inj (eq_zero_of_nearZero hdpoly h)) hne
    · split
      · next h =>
        refine Noted.ends_pure (offers_some ⟨isPolynomialOver_zero, fun env => ?_⟩)
        rw [eq_zero_of_nearZero ha h]
        exact (zero_div _).symm
      · split
        · next h =>
          have hone : (d : ℝ) = 1 := num.inj (eq_one_of_nearOne hdpoly h)
          refine Noted.ends_pure (offers_some ⟨ha.over, fun env => ?_⟩)
          rw [total, total, hone]
          exact (div_one _).symm
        · exact Noted.ends_pure offers_none
  · unfold Term.collapse? at ht
    split at ht
    · next hab =>
      obtain rfl : a = num (d : ℝ) := eq_of_same hab
      obtain rfl := Option.some.inj ht
      exact offers_some ⟨isPolynomialOver_one, fun env => (div_self hne).symm⟩
    · cases ht
  · exact Noted.ends_pure offers_none

/-- A pass over a quotient. -/
theorem tidy_div (h : IsShare a b) : Tidy IsShare (bin .div a b) := by
  obtain ⟨ha, hconst, d, hd, rfl⟩ := h
  refine tidy_natCast_right ha.tidy d fun a' ha' => ?_
  have hconst' : ∀ v, (∀ env, a'.total env = v) → v = 0 := fun v hv =>
    hconst v fun env => (ha'.total env).symm.trans (hv env)
  exact ⟨⟨ha'.isPolynomial, hconst', d, hd, rfl⟩,
    returns_reduceBin_share ha'.isPolynomial hconst' hd⟩

/-! ## runs of passes -/

/-- A run that starts with a tidy pass. -/
theorem Tidy.returns_passes_succ (he : Tidy quotient e) {n : ℕ}
    (hn : ∀ t, t.IsPolynomialOver quotient →
      Returns (fun p => Replaces quotient t p.1) (passes .lenient n t)) :
    Returns (fun p => Replaces quotient e p.1) (passes .lenient (n + 1) e) := by
  refine he.bind fun p hp => ?_
  obtain ⟨t, changed⟩ := p
  cases changed with
  | true => exact (hn t hp.isPolynomial).mono fun _ hq => hp.trans hq
  | false => exact Noted.ends_pure hp

/-- A run of passes over a polynomial. -/
theorem returns_passes (hdiv : ∀ a b, quotient a b → Tidy quotient (bin .div a b))
    (he : e.IsPolynomialOver quotient) (n : ℕ) :
    Returns (fun p => Replaces quotient e p.1) (passes .lenient n e) := by
  induction n generalizing e with
  | zero => exact Noted.ends_pure ⟨he, fun _ => rfl⟩
  | succ n ih => exact (tidy hdiv he).returns_passes_succ fun _ ht => ih ht

/-- A run of passes over what is a polynomial after the first. -/
theorem Tidy.returns_passes (hdiv : ∀ a b, quotient a b → Tidy quotient (bin .div a b))
    (he : Tidy quotient e) {n : ℕ} (hn : 0 < n) :
    Returns (fun p => Replaces quotient e p.1) (passes .lenient n e) := by
  obtain ⟨n, rfl⟩ := Nat.exists_eq_succ_of_ne_zero hn.ne'
  exact he.returns_passes_succ fun _ ht => Expr.returns_passes hdiv ht n

/-! ## values -/

/-- A polynomial has a value wherever its variables have one. -/
theorem evaluate_of_isPolynomialOver {env : Assignment ℝ}
    (hdiv : ∀ a b, quotient a b → (∀ y ∈ (bin .div a b).names, ∃ r, env y = some r) →
      (bin .div a b).evaluate env = .ok ((bin .div a b).total env))
    (he : e.IsPolynomialOver quotient) (henv : ∀ y ∈ e.names, ∃ r, env y = some r) :
    e.evaluate env = .ok (e.total env) := by
  induction e with
  | num v => rfl
  | var y =>
      obtain ⟨r, hr⟩ := henv y (List.mem_singleton.mpr rfl)
      rw [total, evaluate_var_eq_ok, hr, Option.getD_some]
  | bin op a b iha ihb =>
      have hleft : ∀ y ∈ a.names, ∃ r, env y = some r :=
        fun y hy => henv y (List.mem_append_left _ hy)
      have hright : ∀ y ∈ b.names, ∃ r, env y = some r :=
        fun y hy => henv y (List.mem_append_right _ hy)
      cases op with
      | add | sub | mul =>
          exact evaluate_bin_of_definedAt _ (iha he.1 hleft) (ihb he.2 hright) trivial
      | div => exact hdiv a b he henv
      | pow =>
          obtain ⟨ha, n, rfl⟩ := he
          have hdefined : PowDefinedAt (a.total env) ((n : ℤ) : ℝ) :=
            powDefinedAt_intCast.mpr (.inr (Int.natCast_nonneg n))
          rw [Int.cast_natCast] at hdefined
          exact evaluate_bin_of_definedAt .pow (iha ha hleft) rfl hdefined
  | neg a ih => exact evaluate_neg_real.mpr ⟨_, ih he henv, rfl⟩
  | app _ _ _ => exact he.elim

/-- A polynomial has a value wherever its variables have one. -/
theorem evaluate_of_isPolynomial {env : Assignment ℝ} (he : e.IsPolynomial)
    (henv : ∀ y ∈ e.names, ∃ r, env y = some r) : e.evaluate env = .ok (e.total env) :=
  evaluate_of_isPolynomialOver (fun _ _ h => h.elim) he henv

/-- A polynomial over a number has a value wherever its variables have one. -/
theorem evaluate_of_isShare {env : Assignment ℝ} (h : IsShare a b)
    (henv : ∀ y ∈ (bin .div a b).names, ∃ r, env y = some r) :
    (bin .div a b).evaluate env = .ok ((bin .div a b).total env) := by
  obtain ⟨ha, -, d, hd, rfl⟩ := h
  have hleft := evaluate_of_isPolynomial ha fun y hy => henv y (List.mem_append_left _ hy)
  exact evaluate_bin_of_definedAt .div hleft rfl (Nat.cast_ne_zero.mpr hd.ne')

end Expr

end Fluxion

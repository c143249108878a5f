import Fluxion.Proofs.Term.Tests

/-!
# Fluxion.Proofs.Term.Rules

Every rule of simplification keeps the value of the node that it rewrites.

A rule is right for a node that has a value (`Expr.Denotes`): then it does not fail, it reports
nothing even when diagnostics are errors, and the term that it puts in the node's place has the
node's value.  The domains matter in both directions.  That the node has a value excludes the
operands for which a rule would be wrong (`x / x` at zero), and the new term must have one as well
(`-x / -y` becomes `x / y`, whose divisor is not zero either).

* `Term.keeps_reduceBin`, `Term.denotes_reduceNum`, `Term.denotes_reduceNeg`, `Term.keeps_reduceApp`:
  the four kinds of nodes.
-/

namespace Fluxion

/-! ## powers with a whole exponent -/

theorem powDefinedAt_intCast {a : ℝ} {n : ℤ} : PowDefinedAt a n ↔ a ≠ 0 ∨ 0 ≤ n := by
  unfold PowDefinedAt
  constructor
  · intro hall
    obtain h | ⟨-, h⟩ | ⟨h, -⟩ := hall
    · exact Or.inl h.ne'
    · exact Or.inr (Int.cast_nonneg_iff.mp h)
    · exact Or.inl h.ne
  · intro h
    rcases lt_trichotomy a 0 with ha | ha | ha
    · exact Or.inr (Or.inr ⟨ha, n, rfl⟩)
    · have hn : 0 ≤ n := h.resolve_left (fun hne => hne ha)
      exact Or.inr (Or.inl ⟨ha, Int.cast_nonneg_iff.mpr hn⟩)
    · exact Or.inl ha

/-- A whole power of a negation exists where the power of the number does. -/
theorem powDefinedAt_neg {a : ℝ} {n : ℤ} (h : PowDefinedAt (-a) n) : PowDefinedAt a n := by
  rw [powDefinedAt_intCast] at h ⊢
  exact h.imp_left neg_ne_zero.mp

theorem neg_rpow_of_even {a : ℝ} {n : ℤ} (hn : Even n) : (-a) ^ (n : ℝ) = a ^ (n : ℝ) := by
  rw [Real.rpow_intCast, Real.rpow_intCast, hn.neg_zpow]

theorem neg_rpow_of_odd {a : ℝ} {n : ℤ} (hn : Odd n) : (-a) ^ (n : ℝ) = -a ^ (n : ℝ) := by
  rw [Real.rpow_intCast, Real.rpow_intCast, hn.neg_zpow]

/-- A square exists for every base. -/
theorem powDefinedAt_two (a : ℝ) : PowDefinedAt a 2 := by
  have h : PowDefinedAt a ((2 : ℤ) : ℝ) := powDefinedAt_intCast.mpr (Or.inr (by decide))
  exact_mod_cast h

namespace Term

open Fluxion.Expr (Denotes denotes_num denotes_neg denotes_app denotes_bin denotes_literal eq_of_same)

variable {env : Assignment ℝ} {s : Strictness} {op : BinOp} {a b : Expr ℝ} {v : ℝ}

/-- A rule does not fail, and what it puts in the place of a node has the value `v`. -/
def Keeps (env : Assignment ℝ) (v : ℝ) (r : Simplifying ℝ (Expr ℝ) (Option (Expr ℝ))) : Prop :=
  ∃ o, r.result = .ok o ∧ ∀ t, o = some t → Denotes env t v

theorem keeps_some {t : Expr ℝ} (h : Denotes env t v) : Keeps env v (pure (some t)) :=
  ⟨some t, rfl, fun _ ht => Option.some.inj ht ▸ h⟩

theorem keeps_none : Keeps env v (pure none) := ⟨none, rfl, fun _ ht => nomatch ht⟩

/-- What follows a rule that does not fail decides. -/
theorem keeps_bind {x : Simplifying ℝ (Expr ℝ) (Option (Expr ℝ))} {o : Option (Expr ℝ)}
    {f : Option (Expr ℝ) → Simplifying ℝ (Expr ℝ) (Option (Expr ℝ))} (ho : x.result = .ok o)
    (h : Keeps env v (f o)) : Keeps env v (x >>= f) := by
  obtain ⟨o', ho', hk⟩ := h
  exact ⟨o', (Noted.bind_result_of_ok ho f).trans ho', hk⟩

/-! ## operations on numbers -/

theorem denotes_of_literal? {w : ℝ} (hw : literal? a = some w) (h : Denotes env a v) : v = w := by
  cases a with
  | num u =>
      have hu : u = w := Option.some.inj hw
      rw [← denotes_num.mp h, hu]
  | neg c =>
      cases c with
      | num u =>
          have hu : -u = w := Option.some.inj hw
          obtain ⟨x, hx, hv⟩ := denotes_neg.mp h
          rw [← hv, ← denotes_num.mp hx, hu]
      | var _ | bin _ _ _ | neg _ | app _ _ => cases hw
  | var _ | bin _ _ _ | app _ _ => cases hw

/-- Folding computes the value; where the node has one there is nothing to report. -/
theorem fold_of_definedAt {x y : ℝ} (hd : op.DefinedAt x y) :
    fold s op a b x y = pure (some (literal (op.real x y))) := by
  have hc : op.compute x y = .ok (op.real x y) := compute_eq_ok.mpr ⟨hd, rfl⟩
  have hz : ¬(op = .pow ∧ Arith.isZero x = true ∧ Arith.negative y = true) := by
    intro h
    obtain ⟨rfl, hx, hy⟩ := h
    rw [real_isZero] at hx
    rw [real_negative] at hy
    rcases hd with h | ⟨-, h⟩ | ⟨h, -⟩ <;> linarith
  unfold fold
  rw [if_neg hz, hc]
  simp only [real_finite, real_add, real_zero, add_zero, if_true]

theorem keeps_fold {x y : ℝ} (hd : op.DefinedAt x y) :
    Keeps env (op.real x y) (fold s op a b x y) := by
  rw [fold_of_definedAt hd]
  exact keeps_some (denotes_literal.mpr rfl)

/-! ## the rules of binary nodes -/

theorem denotes_of_negation {c : Expr ℝ} {x : ℝ} (hc : view a = .negation c)
    (h : Denotes env a x) : Denotes env c (-x) := by
  cases a with
  | neg d =>
      obtain ⟨u, hu, rfl⟩ := denotes_neg.mp h
      rw [neg_neg, ← View.negation.inj hc]
      exact hu
  | num _ | var _ | bin _ _ _ | app _ _ => cases hc

/-- Negations move outwards: the signs come out right, and no divisor becomes zero. -/
theorem denotes_hoistNeg {t : Expr ℝ} (h : Denotes env (.bin op a b) v)
    (ht : hoistNeg? op a b = some t) : Denotes env t v := by
  obtain ⟨x, y, hx, hy, hd, rfl, -⟩ := denotes_bin.mp h
  unfold hoistNeg? at ht
  split at ht
  case h_1 c d hc hd' =>
    obtain rfl := Option.some.inj ht
    have hcd :=
      (denotes_of_negation hc hx).binary .add (denotes_of_negation hd' hy) trivial (by decide)
    exact hcd.negation.of_eq (by simp only [BinOp.real]; ring)
  case h_2 c d hc hd' =>
    obtain rfl := Option.some.inj ht
    have hcd :=
      (denotes_of_negation hc hx).binary .sub (denotes_of_negation hd' hy) trivial (by decide)
    exact hcd.negation.of_eq (by simp only [BinOp.real]; ring)
  case h_3 d hd' _ =>
    obtain rfl := Option.some.inj ht
    have had := hx.binary .sub (denotes_of_negation hd' hy) trivial (by decide)
    exact had.of_eq (by simp only [BinOp.real]; ring)
  case h_4 d hd' _ =>
    obtain rfl := Option.some.inj ht
    have had := hx.binary .add (denotes_of_negation hd' hy) trivial (by decide)
    exact had.of_eq (by simp only [BinOp.real]; ring)
  case h_5 c hc _ =>
    obtain rfl := Option.some.inj ht
    have hbc := hy.binary .sub (denotes_of_negation hc hx) trivial (by decide)
    exact hbc.of_eq (by simp only [BinOp.real]; ring)
  case h_6 c hc _ =>
    obtain rfl := Option.some.inj ht
    have hcb := (denotes_of_negation hc hx).binary .add hy trivial (by decide)
    exact hcb.negation.of_eq (by simp only [BinOp.real]; ring)
  case h_7 c d hc hd' =>
    obtain rfl := Option.some.inj ht
    have hcd :=
      (denotes_of_negation hc hx).binary .mul (denotes_of_negation hd' hy) trivial (by decide)
    exact hcd.of_eq (by simp only [BinOp.real]; ring)
  case h_8 c d hc hd' =>
    obtain rfl := Option.some.inj ht
    have hcd := (denotes_of_negation hc hx).binary .div (denotes_of_negation hd' hy)
      (neg_ne_zero.mpr hd) (by decide)
    exact hcd.of_eq (neg_div_neg_eq x y)
  case h_9 c hc _ =>
    obtain rfl := Option.some.inj ht
    have hcb := (denotes_of_negation hc hx).binary .mul hy trivial (by decide)
    exact hcb.negation.of_eq (by simp only [BinOp.real]; ring)
  case h_10 c hc _ =>
    obtain rfl := Option.some.inj ht
    have hcb := (denotes_of_negation hc hx).binary .div hy hd (by decide)
    exact hcb.negation.of_eq (by simp only [BinOp.real]; ring)
  case h_11 d hd' _ =>
    obtain rfl := Option.some.inj ht
    have had := hx.binary .mul (denotes_of_negation hd' hy) trivial (by decide)
    exact had.negation.of_eq (by simp only [BinOp.real]; ring)
  case h_12 d hd' _ =>
    obtain rfl := Option.some.inj ht
    have had := hx.binary .div (denotes_of_negation hd' hy) (neg_ne_zero.mpr hd) (by decide)
    exact had.negation.of_eq (by simp only [BinOp.real, div_neg, neg_neg])
  case h_13 => cases ht

/-- One link in a chain of comparisons.  Where the comparison succeeds the term is the number. -/
theorem keeps_ite {w : ℝ} {e : Expr ℝ} {rest : List (ℝ × Expr ℝ)}
    {p q : Simplifying ℝ (Expr ℝ) (Option (Expr ℝ))} (ht : AllSharp (untilNear ((w, e) :: rest)))
    (hp : e = .num w → Keeps env v p) (hq : AllSharp (untilNear rest) → Keeps env v q) :
    Keeps env v (if isNear w e then p else q) := by
  rcases untilNear_cons ht with ⟨hn, he⟩ | ⟨hn, hrest⟩
  · rw [if_pos hn]
    exact hp he
  · rw [if_neg (by simp [hn])]
    exact hq hrest

/-- A binary node with a literal operand that is neutral or absorbing. -/
theorem keeps_identity (h : Denotes env (.bin op a b) v) (ht : AllSharp (identityTests op a b)) :
    Keeps env v (identity s op a b) := by
  obtain ⟨x, y, hx, hy, hd, rfl, hz⟩ := denotes_bin.mp h
  have ha : ∀ {w : ℝ}, a = .num w → x = w := fun hw => (denotes_num.mp (hw ▸ hx)).symm
  have hb : ∀ {w : ℝ}, b = .num w → y = w := fun hw => (denotes_num.mp (hw ▸ hy)).symm
  cases op with
  | add =>
      refine keeps_ite ht (fun hb0 => keeps_some (hx.of_eq ?_)) fun ht =>
        keeps_ite ht (fun ha0 => keeps_some (hy.of_eq ?_)) fun _ => keeps_none
      · rw [hb hb0]
        exact (add_zero x).symm
      · rw [ha ha0]
        exact (zero_add y).symm
  | sub =>
      refine keeps_ite ht (fun hb0 => keeps_some (hx.of_eq ?_)) fun ht =>
        keeps_ite ht (fun ha0 => keeps_some (hy.negation.of_eq ?_)) fun _ => keeps_none
      · rw [hb hb0]
        exact (sub_zero x).symm
      · rw [ha ha0]
        exact (zero_sub y).symm
  | mul =>
      have hor : identity s .mul a b =
          if nearZero a then pure (some (num Arith.zero))
          else if nearZero b then pure (some (num Arith.zero))
          else if nearOne b then pure (some a)
          else if nearOne a then pure (some b)
          else pure none := by
        cases hna : nearZero a <;> simp [identity, hna]
      rw [hor]
      refine keeps_ite ht (fun ha0 => keeps_some (denotes_num.mpr ?_)) fun ht =>
        keeps_ite ht (fun hb0 => keeps_some (denotes_num.mpr ?_)) fun ht =>
        keeps_ite ht (fun hb1 => keeps_some (hx.of_eq ?_)) fun ht =>
        keeps_ite ht (fun ha1 => keeps_some (hy.of_eq ?_)) fun _ => keeps_none
      · rw [ha ha0]
        exact (zero_mul y).symm
      · rw [hb hb0]
        exact (mul_zero x).symm
      · rw [hb hb1]
        exact (mul_one x).symm
      · rw [ha ha1]
        exact (one_mul y).symm
  | div =>
      refine keeps_ite ht (fun hb0 => absurd (hb hb0) hd) fun ht =>
        keeps_ite ht (fun ha0 => keeps_some (denotes_num.mpr ?_)) fun ht =>
        keeps_ite ht (fun hb1 => keeps_some (hx.of_eq ?_)) fun _ => keeps_none
      · rw [ha ha0]
        exact (zero_div y).symm
      · rw [hb hb1]
        exact (div_one x).symm
  | pow =>
      refine keeps_ite ht (fun hb0 => keeps_some (denotes_num.mpr ?_)) fun ht =>
        keeps_ite ht (fun hb1 => keeps_some (hx.of_eq ?_)) fun ht =>
        keeps_ite ht (fun ha1 => keeps_some (denotes_num.mpr ?_)) fun ht => ?_
      · rw [hb hb0]
        exact (Real.rpow_zero x).symm
      · rw [hb hb1]
        exact (Real.rpow_one x).symm
      · rw [ha ha1]
        exact (Real.one_rpow y).symm
      · cases isNeg b with
        | true =>
            rw [if_neg (by simp)]
            exact keeps_none
        | false =>
            -- the exponent is not zero, since the base is
            simp only [Bool.not_false, Bool.and_true]
            refine keeps_ite ht (fun ha0 => keeps_some (denotes_num.mpr ?_)) fun _ => keeps_none
            have hy0 : y ≠ 0 := fun hy0 => hz ⟨rfl, ha ha0, hy0⟩
            rw [ha ha0]
            exact (Real.zero_rpow hy0).symm

/-- Equal operands. -/
theorem denotes_collapse {t : Expr ℝ} (h : Denotes env (.bin op a b) v)
    (ht : collapse? op a b = some t) : Denotes env t v := by
  obtain ⟨x, y, hx, hy, hd, rfl, -⟩ := denotes_bin.mp h
  unfold collapse? at ht
  split at ht
  · next hab =>
    obtain rfl : a = b := eq_of_same hab
    obtain rfl : x = y := Except.ok.inj (hx.1.symm.trans hy.1)
    cases op with
    | add =>
        obtain rfl := Option.some.inj ht
        have h2 : Denotes env (.num Arith.two) 2 := denotes_num.mpr rfl
        exact (h2.binary .mul hx trivial (by decide)).of_eq (two_mul x)
    | sub =>
        obtain rfl := Option.some.inj ht
        exact denotes_num.mpr (sub_self x).symm
    | mul =>
        obtain rfl := Option.some.inj ht
        refine denotes_bin.mpr ⟨x, 2, hx, denotes_num.mpr rfl, powDefinedAt_two x, ?_, ?_⟩
        · exact (Real.rpow_two x).trans (sq x)
        · intro h
          obtain ⟨-, -, h2⟩ := h
          exact two_ne_zero h2
    | div =>
        obtain rfl := Option.some.inj ht
        exact denotes_num.mpr (div_self hd).symm
    | pow => cases ht
  · cases ht

/-- A power of a negation whose exponent is a literal. -/
theorem keeps_negBase_num {c : Expr ℝ} {n : ℝ} (h : Denotes env (.bin .pow (.neg c) (.num n)) v)
    (ht : Test.Sharp ⟨n, round n⟩) : Keeps env v (negBase .pow (.neg c) (.num n)) := by
  obtain ⟨x, y, hx, hy, hd, rfl, hz⟩ := denotes_bin.mp h
  obtain ⟨u, hu, rfl⟩ := denotes_neg.mp hx
  obtain rfl : n = y := denotes_num.mp hy
  by_cases hn : |n - round n| < Arith.tolerance
  · have hwhole : n = round n := ht ((real_near _ _).mpr hn)
    have hdu : PowDefinedAt u n := by
      rw [hwhole] at hd ⊢
      exact powDefinedAt_neg hd
    have hpow : Denotes env (.bin .pow c (.num n)) (u ^ n) :=
      denotes_bin.mpr ⟨u, n, hu, hy, hdu, rfl,
        fun hz' => hz ⟨rfl, neg_eq_zero.mpr hz'.2.1, hz'.2.2⟩⟩
    simp only [negBase, view, Expr.view, real_parity_of_lt hn, Parity.ofInt]
    by_cases heven : Even (round n)
    · rw [if_pos heven]
      refine keeps_some (hpow.of_eq ?_)
      rw [hwhole]
      exact (neg_rpow_of_even heven).symm
    · rw [if_neg heven]
      refine keeps_some (hpow.negation.of_eq ?_)
      rw [hwhole]
      exact (neg_rpow_of_odd (Int.not_even_iff_odd.mp heven)).symm
  · simp only [negBase, view, Expr.view, real_parity_of_not_lt hn]
    exact keeps_none

/-- A whole power of a negation. -/
theorem keeps_negBase (h : Denotes env (.bin op a b) v) (ht : AllSharp (negBaseTests op a b)) :
    Keeps env v (negBase op a b) := by
  cases op with
  | add | sub | mul | div => exact keeps_none
  | pow =>
      cases a with
      | num _ | var _ | bin _ _ _ | app _ _ => exact keeps_none
      | neg c =>
          cases b with
          | var _ | bin _ _ _ | neg _ | app _ _ => exact keeps_none
          | num n => exact keeps_negBase_num h (ht _ (List.mem_singleton.mpr rfl))

/-! ## nodes of every kind -/

/-- The rules of binary nodes in their order. -/
theorem keeps_reduceBin (h : Denotes env (.bin op a b) v) (ht : AllSharp (binTests s op a b)) :
    Keeps env v (reduceBin s op a b) := by
  unfold reduceBin
  unfold binTests at ht
  split
  · next x y hx hy =>
    obtain ⟨x', y', ha, hb, hd, rfl, -⟩ := denotes_bin.mp h
    obtain rfl := denotes_of_literal? hx ha
    obtain rfl := denotes_of_literal? hy hb
    exact keeps_fold hd
  · next hlit =>
    split at ht
    · next x y hx hy => exact absurd hy (hlit x y hx)
    cases hh : hoistNeg? op a b with
    | some t => exact keeps_some (denotes_hoistNeg h hh)
    | none =>
        rw [hh] at ht
        obtain ⟨hid, hrest⟩ := allSharp_append.mp ht
        obtain ⟨o, ho, hkeep⟩ := keeps_identity (s := s) h hid
        refine keeps_bind ho ?_
        cases o with
        | some t => exact keeps_some (hkeep t rfl)
        | none =>
            cases hc : collapse? op a b with
            | some t => exact keeps_some (denotes_collapse h hc)
            | none =>
                rw [ho, hc] at hrest
                exact keeps_negBase h hrest

/-- A literal below zero becomes a negation. -/
theorem denotes_reduceNum {w : ℝ} {t : Expr ℝ} (h : Denotes env (.num w) v)
    (ht : reduceNum w = some t) : Denotes env t v := by
  unfold reduceNum at ht
  split at ht
  · obtain rfl := Option.some.inj ht
    refine denotes_literal.mpr ?_
    rw [real_add, real_zero, add_zero]
    exact denotes_num.mp h
  · cases ht

/-- Negations that cancel. -/
theorem denotes_reduceNeg {t : Expr ℝ} (h : Denotes env (.neg a) v) (hs : AllSharp (negTests a))
    (ht : reduceNeg a = some t) : Denotes env t v := by
  obtain ⟨x, hx, rfl⟩ := denotes_neg.mp h
  cases a with
  | neg c =>
      obtain rfl := Option.some.inj ht
      obtain ⟨u, hu, rfl⟩ := denotes_neg.mp hx
      rwa [neg_neg]
  | num w =>
      change (if isNear Arith.zero (Expr.num w) = true then some (num Arith.zero) else none) = some t
        at ht
      by_cases hn : isNear Arith.zero (Expr.num w) = true
      · rw [if_pos hn] at ht
        obtain rfl := Option.some.inj ht
        have hw : w = 0 := Expr.num.inj (eq_num_of_isNear hs hn)
        have hwx : w = x := denotes_num.mp hx
        refine denotes_num.mpr ?_
        rw [← hwx, hw]
        exact neg_zero.symm
      · rw [if_neg hn] at ht
        cases ht
  | var _ | bin _ _ _ | app _ _ => cases ht

/-! ## functions -/

/-- Odd functions have symmetric domains and change their sign with their argument. -/
theorem real_neg_of_isOdd {f : Fn} (hf : isOdd f = true) {u : ℝ} (hd : f.DefinedAt (-u)) :
    f.DefinedAt u ∧ f.real (-u) = -f.real u := by
  cases f with
  | sin => exact ⟨trivial, Real.sin_neg u⟩
  | tan =>
      refine ⟨?_, Real.tan_neg u⟩
      rwa [Fn.DefinedAt, Real.cos_neg] at hd
  | cot =>
      rw [Fn.DefinedAt, Real.cos_neg, Real.tan_neg, neg_ne_zero] at hd
      refine ⟨hd, ?_⟩
      simp only [Fn.real, Real.tan_neg]
      rw [div_neg]
  | arcsin =>
      obtain ⟨hl, hr⟩ := hd
      exact ⟨⟨by linarith, by linarith⟩, Real.arcsin_neg u⟩
  | arctan => exact ⟨trivial, Real.arctan_neg u⟩
  | cos | arccos | arccot | sqrt | ln => cases hf

/-- Functions at zero, at one, and of negations.  The logarithm and the cotangent have no value at
zero, so there is nothing to report. -/
theorem keeps_reduceApp {f : Fn} (h : Denotes env (.app f a) v) (ht : AllSharp (appTests a)) :
    Keeps env v (reduceApp s f a) := by
  obtain ⟨x, hx, hd, rfl⟩ := denotes_app.mp h
  have ha : ∀ {w : ℝ}, a = .num w → x = w := fun hw => (denotes_num.mp (hw ▸ hx)).symm
  refine keeps_ite ht (fun ha0 => ?_) fun ht => keeps_ite ht (fun ha1 => ?_) fun _ => ?_
  · obtain rfl := ha ha0
    cases f with
    | sin => exact keeps_some (denotes_num.mpr Real.sin_zero.symm)
    | tan => exact keeps_some (denotes_num.mpr Real.tan_zero.symm)
    | arcsin => exact keeps_some (denotes_num.mpr Real.arcsin_zero.symm)
    | arctan => exact keeps_some (denotes_num.mpr Real.arctan_zero.symm)
    | sqrt => exact keeps_some (denotes_num.mpr Real.sqrt_zero.symm)
    | cos => exact keeps_some (denotes_num.mpr Real.cos_zero.symm)
    | ln => exact absurd hd (lt_irrefl 0)
    | cot => exact absurd Real.tan_zero hd.2
    | arccos | arccot => exact keeps_none
  · obtain rfl := ha ha1
    cases f with
    | ln => exact keeps_some (denotes_num.mpr Real.log_one.symm)
    | sqrt => exact keeps_some (denotes_num.mpr Real.sqrt_one.symm)
    | sin | cos | tan | cot | arcsin | arccos | arctan | arccot => exact keeps_none
  · cases a with
    | num _ | var _ | bin _ _ _ | app _ _ => exact keeps_none
    | neg c =>
        obtain ⟨u, hu, rfl⟩ := denotes_neg.mp hx
        have hodd : isOdd f = true → Denotes env (.neg (.app f c)) (f.real (-u)) := by
          intro hf
          obtain ⟨hdu, hv⟩ := real_neg_of_isOdd hf hd
          exact (denotes_app.mpr ⟨u, hu, hdu, rfl⟩ : Denotes env (.app f c) _).negation.of_eq hv.symm
        cases f with
        | cos =>
            exact keeps_some (denotes_app.mpr ⟨u, hu, trivial, (Real.cos_neg u).symm⟩)
        | sin | tan | cot | arcsin | arctan => exact keeps_some (hodd rfl)
        | arccos | arccot | sqrt | ln => exact keeps_none

end Term

end Fluxion

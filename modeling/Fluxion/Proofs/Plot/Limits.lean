import Fluxion.Plot.Limits
import Fluxion.Proofs.Number.Extended

/-!
# Fluxion.Proofs.Plot.Limits

The vertical range of a plot, with exact arithmetic.

The finite values are real numbers, and the range is made of two of them in ascending order.  What
lies below the first of these comes before it, and what lies above the second comes after it, so
that the range leaves out no more values than were to be cut off.

* `Limits.exists_widened`, `Limits.exists_withMargin`: the range only grows;
* `Limits.limits_bulk`: what lies outside the range.
-/

namespace Fluxion.Limits

open Extended

/-! ## places in ascending lists -/

/-- Where a list is ordered, no more entries than come before a place fail to be in order with the
entry there. -/
theorem countP_le {α : Type} {R : α → α → Prop} {xs : List α} {k : ℕ} {x : α} {p : α → Bool}
    (h : xs.Pairwise R) (hx : xs[k]? = some x) (hpx : p x = false)
    (hp : ∀ y, R x y → p y = false) : xs.countP p ≤ k := by
  obtain ⟨hk, rfl⟩ := List.getElem?_eq_some_iff.mp hx
  have hdrop : (xs.drop k).countP p = 0 := by
    have hpair := h.sublist (List.drop_sublist k xs)
    rw [List.drop_eq_getElem_cons hk] at hpair ⊢
    rw [List.countP_eq_zero]
    intro y hy
    obtain rfl | hy := List.mem_cons.mp hy
    · simp [hpx]
    · simp [hp y (List.rel_of_pairwise_cons hpair hy)]
  have htake : (xs.take k).countP p ≤ k :=
    List.countP_le_length.trans (List.length_take_le k xs)
  rw [← List.take_append_drop k xs, List.countP_append, hdrop]
  exact htake

section Places

variable {xs ys : List ℝ} {k : ℕ} {x : ℝ}

/-- Few numbers are below the one at a place. -/
theorem countP_lt_le (h : xs.Pairwise (· ≤ ·)) (hx : xs[k]? = some x) :
    xs.countP (fun y => decide (y < x)) ≤ k :=
  countP_le h hx (by simp) fun y hy => by simpa using hy

/-- Few numbers are above the one at a place, counted from the end. -/
theorem countP_gt_le (h : xs.Pairwise (· ≤ ·)) (hk : k < xs.length)
    (hx : xs[xs.length - 1 - k]? = some x) : xs.countP (fun y => decide (x < y)) ≤ k := by
  have hreverse : xs.reverse[k]? = some x := by rw [List.getElem?_reverse hk, hx]
  rw [← List.countP_reverse]
  exact countP_le (List.pairwise_reverse.mpr h) hreverse (by simp) fun y hy => by simpa using hy

/-- In an ascending list later entries are not smaller. -/
theorem le_of_places {i j : ℕ} {y : ℝ} (h : xs.Pairwise (· ≤ ·)) (hij : i ≤ j)
    (hx : xs[i]? = some x) (hy : xs[j]? = some y) : x ≤ y := by
  obtain ⟨hi, rfl⟩ := List.getElem?_eq_some_iff.mp hx
  obtain ⟨hj, rfl⟩ := List.getElem?_eq_some_iff.mp hy
  obtain rfl | hlt := hij.eq_or_lt
  · exact le_rfl
  · exact List.pairwise_iff_getElem.mp h i j hi hj hlt

/-- All values are there in ascending order. -/
theorem ascending_perm (xs : List ℝ) : (ascending xs).Perm xs := by
  have hfilter : xs.filter Arith.finite = xs := List.filter_eq_self.mpr fun _ _ => rfl
  rw [ascending, hfilter]
  exact List.mergeSort_perm _ _

/-- Values in ascending order ascend. -/
theorem pairwise_ascending (xs : List ℝ) : (ascending xs).Pairwise (· ≤ ·) := by
  have hle (a b : ℝ) : Arith.le a b = true ↔ a ≤ b := decide_eq_true_iff
  have hpair : (ascending xs).Pairwise fun a b => Arith.le a b = true := by
    apply List.pairwise_mergeSort
    · simp only [hle]
      exact fun _ _ _ => le_trans
    · simp only [Bool.or_eq_true, hle]
      exact le_total
  simpa only [hle] using hpair

/-- The order in which values are given does not matter. -/
theorem ascending_eq_of_perm (h : xs.Perm ys) : ascending xs = ascending ys :=
  (((ascending_perm xs).trans h).trans (ascending_perm ys).symm).eq_of_pairwise
    (fun _ _ _ _ hab hba => le_antisymm hab hba) (pairwise_ascending xs) (pairwise_ascending ys)

end Places

/-! ## ranges -/

/-- What is cut off at both ends leaves something. -/
theorem cut_lt {n : ℕ} (hn : 0 < n) : cut n < n ∧ cut n ≤ n - 1 - cut n := by
  rw [cut]
  omega

/-- The bulk of values that are changed is that of the values, changed. -/
theorem bulk?_map {α β : Type} (f : α → β) (vs : List α) :
    bulk? (vs.map f) = (bulk? vs).map (Prod.map f f) := by
  simp only [bulk?, List.length_map, List.getElem?_map]
  cases vs[cut vs.length]? with
  | none => rfl
  | some lo => cases vs[vs.length - 1 - cut vs.length]? <;> rfl

/-- Values that are there have a bulk. -/
theorem exists_bulk {α : Type} {vs : List α} (h : 0 < vs.length) :
    ∃ lo hi, bulk? vs = some (lo, hi) ∧ vs[cut vs.length]? = some lo ∧
      vs[vs.length - 1 - cut vs.length]? = some hi := by
  obtain ⟨hlow, -⟩ := cut_lt h
  have hhigh : vs.length - 1 - cut vs.length < vs.length := by omega
  refine ⟨vs[cut vs.length], vs[vs.length - 1 - cut vs.length], ?_,
    List.getElem?_eq_getElem hlow, List.getElem?_eq_getElem hhigh⟩
  rw [bulk?, List.getElem?_eq_getElem hlow, List.getElem?_eq_getElem hhigh]
  rfl

/-- A range that is widened has a height. -/
theorem exists_widened {lo hi : ℝ} (h : lo ≤ hi) :
    ∃ lo' hi', widened (real lo, real hi) = (real lo', real hi') ∧ lo' ≤ lo ∧ hi ≤ hi' ∧
      lo' < hi' := by
  have hleast : (leastHeight : Extended) = real (1 / 10 ^ 9) := by
    change real ((1 : ℕ) * (10 : ℝ) ^ (-9 : ℤ)) = _
    norm_num
  by_cases hlow : hi - lo < 1 / 10 ^ 9
  · refine ⟨lo - 1, hi + 1, ?_, by linarith, by linarith, by linarith⟩
    rw [widened, hleast, sub_real, if_pos (lt_real.mpr hlow)]
    change (Arith.sub (real lo) (real 1), Arith.add (real hi) (real 1)) = _
    rw [sub_real, add_real]
  · have hpos : (0 : ℝ) < 1 / 10 ^ 9 := by norm_num
    refine ⟨lo, hi, ?_, le_rfl, le_rfl, by linarith⟩
    rw [widened, hleast, sub_real, if_neg fun hlt => hlow (lt_real.mp hlt)]

/-- A range with a margin holds the range without it. -/
theorem exists_withMargin {lo hi : ℝ} (h : lo < hi) {margin : Extended}
    (hm : Arith.nonneg margin = true) :
    ∃ a b, withMargin margin (real lo, real hi) = (a, b) ∧ Arith.le a (real lo) = true ∧
      Arith.le (real hi) b = true ∧ Arith.lt a b = true := by
  have hreal (x : ℝ) : ¬IsInfinite x := by simp [IsInfinite]
  cases margin with
  | notANumber => cases hm
  | number m =>
      have hheight : (0 : EReal) < (hi - lo : ℝ) := by exact_mod_cast sub_pos.mpr h
      obtain ⟨d, hd⟩ : ∃ d : EReal, d = (hi - lo : ℝ) * m := ⟨_, rfl⟩
      have hnonneg : 0 ≤ d := hd ▸ mul_nonneg hheight.le (le_number.mp hm)
      have hrange : withMargin (number m) (real lo, real hi) =
          (Arith.sub (real lo) (number d), Arith.add (real hi) (number d)) := by
        rw [withMargin, sub_real, hd, ← mul_number (hreal _) hheight.ne']
        rfl
      have hlo : Arith.le (Arith.sub (real lo) (number d)) (real lo) = true := by
        have hneg : -d ≤ 0 := EReal.neg_le_zero.mpr hnonneg
        rw [real, sub_number (hreal lo), le_number, sub_eq_add_neg]
        exact add_le_of_nonpos_right hneg
      have hhi : Arith.le (real hi) (Arith.add (real hi) (number d)) = true := by
        rw [real, add_number (hreal hi), le_number]
        exact le_add_of_nonneg_right hnonneg
      exact ⟨_, _, hrange, hlo, hhi, lt_of_lt_of_le (lt_of_le_of_lt hlo (lt_real.mpr h)) hhi⟩

/-! ## the range of some values -/

section Values

variable {ys zs : List Float} {margin : Float}

/-- The real numbers among some values. -/
noncomputable def reals (ys : List Float) : List ℝ :=
  (ys.filter Arith.finite).map Binary64.value

/-- As many values count as are finite. -/
theorem length_reals (ys : List Float) : (reals ys).length = (ys.filter Arith.finite).length :=
  List.length_map _

theorem filter_map_ofFloat (ys : List Float) :
    (ys.map ofFloat).filter Arith.finite = (reals ys).map real := by
  rw [List.filter_map, reals, List.map_map]
  have hfinite : (Arith.finite ∘ ofFloat : Float → Bool) = Arith.finite :=
    funext finite_ofFloat
  rw [hfinite]
  exact List.map_congr_left fun v hv => ofFloat_of_finite (List.mem_filter.mp hv).2

/-- The values in ascending order are the real numbers among them. -/
theorem ascending_map_ofFloat (ys : List Float) :
    ascending (ys.map ofFloat) = (ascending (reals ys)).map real := by
  have hfilter : (reals ys).filter Arith.finite = reals ys :=
    List.filter_eq_self.mpr fun _ _ => rfl
  rw [ascending, filter_map_ofFloat, ascending, hfilter]
  refine (List.map_mergeSort fun a _ b _ => ?_).symm
  rw [Bool.eq_iff_iff, le_real]
  exact decide_eq_true_iff

/-- What is said of the finite values is said of the numbers in ascending order. -/
theorem countP_finite (ys : List Float) (p : Extended → Bool) :
    (ys.filter Arith.finite).countP (fun v => p (ofFloat v)) =
      (ascending (reals ys)).countP fun x => p (real x) := by
  rw [(ascending_perm (reals ys)).countP_eq, reals, List.countP_map]
  refine List.countP_congr fun v hv => ?_
  rw [Function.comp_apply, ofFloat_of_finite (List.mem_filter.mp hv).2]

/-- The limits are those of the finite values. -/
theorem limits_eq (ys : List Float) (margin : Float) :
    limits (ys.map ofFloat) (ofFloat margin) = (bulk? (ascending (reals ys))).map fun range =>
      withMargin (ofFloat margin) (widened (real range.1, real range.2)) := by
  rw [limits, ascending_map_ofFloat, bulk?_map, Option.map_map]
  rfl

/-- Without finite values there are no limits. -/
theorem limits_of_reals_nil (h : reals ys = []) :
    limits (ys.map ofFloat) (ofFloat margin) = none := by
  have hascending : ascending (reals ys) = [] := List.Perm.eq_nil (h ▸ ascending_perm (reals ys))
  rw [limits_eq, hascending]
  rfl

/-- Only the finite values matter, and not their order. -/
theorem limits_eq_of_perm (h : (zs.filter Arith.finite).Perm (ys.filter Arith.finite)) :
    limits (zs.map ofFloat) (ofFloat margin) = limits (ys.map ofFloat) (ofFloat margin) := by
  have hreals : (reals zs).Perm (reals ys) := h.map Binary64.value
  rw [limits_eq, limits_eq, ascending_eq_of_perm hreals]

/-- With finite values there are limits, and few values are outside of them. -/
theorem exists_limits (hn : 0 < (reals ys).length) (hm : Arith.nonneg margin = true) :
    ∃ a b, limits (ys.map ofFloat) (ofFloat margin) = some (a, b) ∧ Arith.lt a b = true ∧
      (ascending (reals ys)).countP (fun x => Arith.lt (real x) a) ≤ cut (reals ys).length ∧
      (ascending (reals ys)).countP (fun x => Arith.lt b (real x)) ≤ cut (reals ys).length := by
  have hlength : (ascending (reals ys)).length = (reals ys).length :=
    (ascending_perm (reals ys)).length_eq
  have hpair := pairwise_ascending (reals ys)
  rw [← hlength] at hn ⊢
  obtain ⟨lo, hi, hbulk, hlo, hhi⟩ := exists_bulk hn
  obtain ⟨hcut, horder⟩ := cut_lt hn
  have hle : lo ≤ hi := le_of_places hpair horder hlo hhi
  obtain ⟨lo', hi', hwidened, hlo', hhi', hlt⟩ := exists_widened hle
  have hm' : Arith.nonneg (ofFloat margin) = true := (nonneg_ofFloat margin).trans hm
  obtain ⟨a, b, hmargin, ha, hb, hab⟩ := exists_withMargin hlt hm'
  refine ⟨a, b, ?_, hab, ?_, ?_⟩
  · rw [limits_eq, hbulk, Option.map_some, hwidened, hmargin]
  · refine le_trans (List.countP_mono_left fun x _ hx => ?_) (countP_lt_le hpair hlo)
    have hbelow : x < lo' := lt_real.mp (lt_of_lt_of_le hx ha)
    exact decide_eq_true (hbelow.trans_le hlo')
  · refine le_trans (List.countP_mono_left fun x _ hx => ?_) (countP_gt_le hpair hcut hhi)
    have habove : hi' < x := lt_real.mp (lt_of_le_of_lt hb hx)
    exact decide_eq_true (hhi'.trans_lt habove)

/-- **The range of a plot keeps the bulk of the values.**  Let `n` of some values be finite, and let
the margin be zero or above.  If arithmetic is exact, then there is no range exactly if `n` is zero.
Otherwise both places where the range is looked up are in the list, and the range has a height; no
more than a twentieth of the finite values lie below it, and no more than a twentieth above.  It is
the same for all values with the same finite ones, in any order. -/
theorem limits_bulk (ys : List Float) (hm : Arith.nonneg margin = true) :
    let n := (ys.filter Arith.finite).length
    let range := limits (ys.map ofFloat) (ofFloat margin)
    (range = none ↔ n = 0) ∧
      ((ascending (ys.map ofFloat)).length = n ∧
        (0 < n → cut n < n ∧ cut n ≤ n - 1 - cut n)) ∧
      (∀ a b, range = some (a, b) → Arith.lt a b = true ∧
        (ys.filter Arith.finite).countP (fun v => Arith.lt (ofFloat v) a) ≤ n / 20 ∧
        (ys.filter Arith.finite).countP (fun v => Arith.lt b (ofFloat v)) ≤ n / 20) ∧
      ∀ zs : List Float, (zs.filter Arith.finite).Perm (ys.filter Arith.finite) →
        limits (zs.map ofFloat) (ofFloat margin) = range := by
  intro n range
  have hn : (reals ys).length = n := length_reals ys
  have hlength : (ascending (ys.map ofFloat)).length = n := by
    rw [ascending_map_ofFloat, List.length_map, (ascending_perm _).length_eq, hn]
  refine ⟨?_, ⟨hlength, cut_lt⟩, ?_, fun zs h => limits_eq_of_perm h⟩
  · constructor
    · intro hnone
      by_contra hpos
      obtain ⟨a, b, hsome, -⟩ := exists_limits (hn ▸ Nat.pos_of_ne_zero hpos) hm
      cases hnone.symm.trans hsome
    · intro hzero
      exact limits_of_reals_nil (List.eq_nil_of_length_eq_zero (hn.trans hzero))
  · intro a b hrange
    have hpos : 0 < (reals ys).length := by
      by_contra hzero
      have hnil : reals ys = [] := List.eq_nil_of_length_eq_zero (Nat.eq_zero_of_not_pos hzero)
      cases (limits_of_reals_nil hnil).symm.trans hrange
    obtain ⟨a', b', hsome, hlt, hbelow, habove⟩ := exists_limits hpos hm
    cases hsome.symm.trans hrange
    rw [countP_finite ys fun v => Arith.lt v a, countP_finite ys fun v => Arith.lt b v, ← hn]
    exact ⟨hlt, hbelow, habove⟩

/-- Values with a pole among them have a range. -/
theorem limits_bulk_pole : Arith.nonneg (0.1 : Float) = true ∧
    limits ([1, 1 / 0, 2].map ofFloat) (ofFloat 0.1) ≠ none := by
  have hm : Arith.nonneg (0.1 : Float) = true := by decide +kernel
  have hn : ([1, 1 / 0, 2].filter Arith.finite : List Float).length ≠ 0 := by decide +kernel
  exact ⟨hm, fun hnone => hn ((limits_bulk [1, 1 / 0, 2] hm).1.mp hnone)⟩

end Values

end Fluxion.Limits

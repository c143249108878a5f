import Fluxion.Expr.Outline
import Fluxion.Proofs.Except

/-!
# Fluxion.Proofs.Expr.Outline

Expressions from which nothing is taken out.

An operand is treated in the same way wherever it stands (`Expr.operand`): its own operands come
first, and then it is taken out if it is too large.

* `Expr.outline_of_size_le`: small expressions stay whole;
* `Expr.root_of_outline`: an expression whose legend is empty is its own outline.
-/

namespace Fluxion

variable {α : Type} {legend legend' : Legend α} {e r : Expr α}

/-- An operand that is not too large stays where it is. -/
theorem Legend.take_of_size_le (legend : Legend α) (h : e.size ≤ maxPart) :
    legend.take e = .ok (e, legend) := by
  rw [Legend.take, if_neg (Nat.not_lt.mpr h)]

/-- The legend grows when a part is taken out, and otherwise the part stays. -/
theorem Legend.take_grows (h : legend.take e = .ok (r, legend')) :
    legend <+: legend' ∧ (legend' = legend → r = e) := by
  unfold Legend.take at h
  split at h
  · cases hl : labels[legend.length]? with
    | none =>
        rw [hl] at h
        exact nomatch h
    | some label =>
        rw [hl] at h
        cases h
        constructor
        · exact List.prefix_append _ _
        · intro heq
          exact absurd heq (by simp)
  · cases h
    exact ⟨List.prefix_refl _, fun _ => rfl⟩

namespace Expr

/-- An operand with its large operands taken out, and then with itself taken out if it is still
too large. -/
def operand (legend : Legend α) (e : Expr α) : Except LabelsExhausted (Expr α × Legend α) := do
  let (e, legend) ← outlineFrom legend e
  legend.take e

theorem outlineFrom_bin (legend : Legend α) (op : BinOp) (a b : Expr α) :
    outlineFrom legend (bin op a b) = (do
      let (a, legend) ← operand legend a
      let (b, legend) ← operand legend b
      return (bin op a b, legend)) := by
  simp only [outlineFrom, operand, bind_assoc]

theorem outlineFrom_neg (legend : Legend α) (a : Expr α) :
    outlineFrom legend (neg a) = (do
      let (a, legend) ← operand legend a
      return (neg a, legend)) := by
  simp only [outlineFrom, operand, bind_assoc]

theorem outlineFrom_app (legend : Legend α) (f : Fn) (a : Expr α) :
    outlineFrom legend (app f a) = (do
      let (a, legend) ← operand legend a
      return (app f a, legend)) := by
  simp only [outlineFrom, operand, bind_assoc]

/-! ## small expressions -/

/-- A small operand that is not divided stays where it is. -/
theorem operand_of_size_le (hfrom : outlineFrom legend e = .ok (e, legend)) (h : e.size ≤ maxPart) :
    operand legend e = .ok (e, legend) := by
  rw [operand, hfrom]
  exact legend.take_of_size_le h

/-- A small expression is not divided. -/
theorem outlineFrom_of_size_le (legend : Legend α) (h : e.size ≤ maxPart) :
    outlineFrom legend e = .ok (e, legend) := by
  induction e with
  | num v => rfl
  | var x => rfl
  | bin op a b iha ihb =>
      rw [size] at h
      have ha : a.size ≤ maxPart := by omega
      have hb : b.size ≤ maxPart := by omega
      rw [outlineFrom_bin, operand_of_size_le (iha ha) ha]
      change (do let (b, legend) ← operand legend b; return (bin op a b, legend)) = _
      rw [operand_of_size_le (ihb hb) hb]
      rfl
  | neg a ih =>
      rw [size] at h
      have ha : a.size ≤ maxPart := by omega
      rw [outlineFrom_neg, operand_of_size_le (ih ha) ha]
      rfl
  | app f a ih =>
      rw [size] at h
      have ha : a.size ≤ maxPart := by omega
      rw [outlineFrom_app, operand_of_size_le (ih ha) ha]
      rfl

/-- Small expressions stay whole. -/
theorem outline_of_size_le (h : e.size ≤ maxPart) : e.outline = .ok ⟨e, []⟩ := by
  rw [outline, outlineFrom_of_size_le [] h]
  rfl

/-! ## expressions without a legend -/

/-- An operand adds to the legend, or stays as it is. -/
theorem operand_grows
    (hfrom : ∀ {r legend'}, outlineFrom legend e = .ok (r, legend') →
      legend <+: legend' ∧ (legend' = legend → r = e))
    (h : operand legend e = .ok (r, legend')) :
    legend <+: legend' ∧ (legend' = legend → r = e) := by
  obtain ⟨⟨m, between⟩, hm, htake⟩ := bind_eq_ok.mp h
  obtain ⟨hle, hsame⟩ := hfrom hm
  obtain ⟨hle', hsame'⟩ := Legend.take_grows htake
  constructor
  · exact hle.trans hle'
  · intro heq
    have hbetween : between = legend := (hle.eq_of_length_le (heq ▸ hle'.length_le)).symm
    rw [hsame' (heq.trans hbetween.symm), hsame hbetween]

/-- The legend only grows, and the expression stays as it is as long as the legend does. -/
theorem outlineFrom_grows (h : outlineFrom legend e = .ok (r, legend')) :
    legend <+: legend' ∧ (legend' = legend → r = e) := by
  induction e generalizing legend legend' r with
  | num v =>
      cases h
      exact ⟨List.prefix_refl _, fun _ => rfl⟩
  | var x =>
      cases h
      exact ⟨List.prefix_refl _, fun _ => rfl⟩
  | bin op a b iha ihb =>
      rw [outlineFrom_bin] at h
      obtain ⟨⟨a', between⟩, ha, h⟩ := bind_eq_ok.mp h
      obtain ⟨⟨b', last⟩, hb, h⟩ := bind_eq_ok.mp h
      cases h
      obtain ⟨hle, hsame⟩ := operand_grows iha ha
      obtain ⟨hle', hsame'⟩ := operand_grows ihb hb
      constructor
      · exact hle.trans hle'
      · intro heq
        have hbetween : between = legend := (hle.eq_of_length_le (heq ▸ hle'.length_le)).symm
        rw [hsame hbetween, hsame' (heq.trans hbetween.symm)]
  | neg a ih =>
      rw [outlineFrom_neg] at h
      obtain ⟨⟨a', last⟩, ha, h⟩ := bind_eq_ok.mp h
      cases h
      obtain ⟨hle, hsame⟩ := operand_grows ih ha
      exact ⟨hle, fun heq => congrArg neg (hsame heq)⟩
  | app f a ih =>
      rw [outlineFrom_app] at h
      obtain ⟨⟨a', last⟩, ha, h⟩ := bind_eq_ok.mp h
      cases h
      obtain ⟨hle, hsame⟩ := operand_grows ih ha
      exact ⟨hle, fun heq => congrArg (app f) (hsame heq)⟩

/-- An expression whose legend is empty is its own outline. -/
theorem root_of_outline {o : Outline α} (h : e.outline = .ok o) (ho : o.legend = []) :
    o.root = e := by
  obtain ⟨⟨root, legend⟩, hfrom, hroot⟩ := bind_eq_ok.mp h
  cases hroot
  exact (outlineFrom_grows hfrom).2 ho

end Expr

end Fluxion

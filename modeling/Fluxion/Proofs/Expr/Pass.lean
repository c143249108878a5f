import Fluxion.Expr.Simplify
import Fluxion.Proofs.Noted

/-!
# Fluxion.Proofs.Expr.Pass

Passes taken apart.

A pass that has a result is taken apart node by node (`Expr.pass_bin_ok`, `Expr.pass_neg_ok`,
`Expr.pass_app_ok`), so what holds of a pass is a matter of the rules.

* `Expr.eq_of_unchanged`: a pass that reports no change leaves the expression as it is;
* `Expr.passes_induction`: what every pass keeps, a run of passes keeps;
* `Expr.pass_of_settled`: a run that settled ends in such a pass.
-/

namespace Fluxion.Expr

variable {α : Type} [Arith α] {s : Strictness}

theorem eq_neg_of_view {a x : Expr α} (h : Term.view a = .negation x) : a = neg x := by
  cases a with
  | neg y => rw [View.negation.inj h]
  | num _ | var _ | bin _ _ _ | app _ _ => cases h

omit [Arith α] in
/-- A node that is reported as unchanged had no rule, and nothing changed below it. -/
theorem settled_eq_false {below : Bool} {e e' : Expr α} {o : Option (Expr α)}
    (h : settled below e o = (e', false)) : o = none ∧ e = e' ∧ below = false := by
  cases o with
  | some t => cases h
  | none =>
      obtain ⟨he, hbelow⟩ := Prod.mk.inj h
      exact ⟨rfl, he, hbelow⟩

/-! ## one pass -/

section

variable {p : Expr α × Bool}

theorem pass_bin_ok {op : BinOp} {a b : Expr α} (h : (pass s (bin op a b)).result = .ok p) :
    ∃ a' b' o, (pass s a).result = .ok a' ∧ (pass s b).result = .ok b' ∧
      (Term.reduceBin s op a'.1 b'.1).result = .ok o ∧
      settled (a'.2 || b'.2) (bin op a'.1 b'.1) o = p ∧
      (pass s (bin op a b)).notes =
        (pass s a).notes ++ ((pass s b).notes ++ (Term.reduceBin s op a'.1 b'.1).notes) := by
  obtain ⟨a', ha, h, hnotes⟩ := Noted.bind_ok h
  obtain ⟨b', hb, h, hnotes'⟩ := Noted.bind_ok h
  obtain ⟨o, ho, h, hnotes''⟩ := Noted.bind_ok h
  refine ⟨a', b', o, ha, hb, ho, Except.ok.inj h, hnotes.trans ?_⟩
  rw [hnotes', hnotes'', Noted.pure_eq, List.append_nil]

theorem pass_neg_ok {a : Expr α} (h : (pass s (neg a)).result = .ok p) :
    ∃ a', (pass s a).result = .ok a' ∧ settled a'.2 (neg a'.1) (Term.reduceNeg a'.1) = p ∧
      (pass s (neg a)).notes = (pass s a).notes := by
  obtain ⟨a', ha, h, hnotes⟩ := Noted.bind_ok h
  exact ⟨a', ha, Except.ok.inj h, hnotes.trans (List.append_nil _)⟩

theorem pass_app_ok {f : Fn} {a : Expr α} (h : (pass s (app f a)).result = .ok p) :
    ∃ a' o, (pass s a).result = .ok a' ∧ (Term.reduceApp s f a'.1).result = .ok o ∧
      settled a'.2 (app f a'.1) o = p ∧
      (pass s (app f a)).notes = (pass s a).notes ++ (Term.reduceApp s f a'.1).notes := by
  obtain ⟨a', ha, h, hnotes⟩ := Noted.bind_ok h
  obtain ⟨o, ho, h, hnotes'⟩ := Noted.bind_ok h
  refine ⟨a', o, ha, ho, Except.ok.inj h, hnotes.trans ?_⟩
  rw [hnotes', Noted.pure_eq, List.append_nil]

/-- A node that a rule replaces. -/
theorem pass_bin_of_some {op : BinOp} {a b a' b' t : Expr α} {c d : Bool}
    (ha : (pass s a).result = .ok (a', c)) (hb : (pass s b).result = .ok (b', d))
    (h : (Term.reduceBin s op a' b').result = .ok (some t)) :
    (pass s (bin op a b)).result = .ok (t, true) := by
  rw [pass, Noted.bind_result_of_ok ha, Noted.bind_result_of_ok hb, Noted.bind_result_of_ok h]
  rfl

theorem pass_app_of_some {f : Fn} {a a' t : Expr α} {c : Bool}
    (ha : (pass s a).result = .ok (a', c))
    (h : (Term.reduceApp s f a').result = .ok (some t)) :
    (pass s (app f a)).result = .ok (t, true) := by
  rw [pass, Noted.bind_result_of_ok ha, Noted.bind_result_of_ok h]
  rfl

end

/-! ## passes that change nothing -/

section

variable {e : Expr α}

theorem unchanged_bin {op : BinOp} {a b : Expr α}
    (h : (pass s (bin op a b)).result = .ok (e, false)) :
    ∃ a' b', (pass s a).result = .ok (a', false) ∧ (pass s b).result = .ok (b', false) ∧
      (Term.reduceBin s op a' b').result = .ok none ∧ e = bin op a' b' ∧
      (pass s (bin op a b)).notes =
        (pass s a).notes ++ ((pass s b).notes ++ (Term.reduceBin s op a' b').notes) := by
  obtain ⟨⟨a', ca⟩, ⟨b', cb⟩, o, ha, hb, ho, he, hnotes⟩ := pass_bin_ok h
  obtain ⟨rfl, rfl, hbelow⟩ := settled_eq_false he
  obtain ⟨rfl, rfl⟩ := Bool.or_eq_false_iff.mp hbelow
  exact ⟨a', b', ha, hb, ho, rfl, hnotes⟩

theorem unchanged_neg {a : Expr α} (h : (pass s (neg a)).result = .ok (e, false)) :
    ∃ a', (pass s a).result = .ok (a', false) ∧ Term.reduceNeg a' = none ∧ e = neg a' ∧
      (pass s (neg a)).notes = (pass s a).notes := by
  obtain ⟨⟨a', ca⟩, ha, he, hnotes⟩ := pass_neg_ok h
  obtain ⟨ho, rfl, rfl⟩ := settled_eq_false he
  exact ⟨a', ha, ho, rfl, hnotes⟩

theorem unchanged_app {f : Fn} {a : Expr α} (h : (pass s (app f a)).result = .ok (e, false)) :
    ∃ a', (pass s a).result = .ok (a', false) ∧ (Term.reduceApp s f a').result = .ok none ∧
      e = app f a' ∧
      (pass s (app f a)).notes = (pass s a).notes ++ (Term.reduceApp s f a').notes := by
  obtain ⟨⟨a', ca⟩, o, ha, ho, he, hnotes⟩ := pass_app_ok h
  obtain ⟨rfl, rfl, rfl⟩ := settled_eq_false he
  exact ⟨a', ha, ho, rfl, hnotes⟩

/-- A pass that reports no change leaves the expression as it is. -/
theorem eq_of_unchanged {e' : Expr α} (h : (pass s e).result = .ok (e', false)) : e' = e := by
  induction e generalizing e' with
  | num v => exact (settled_eq_false (Except.ok.inj h)).2.1.symm
  | var x => exact (Prod.mk.inj (Except.ok.inj h)).1.symm
  | bin op a b iha ihb =>
      obtain ⟨a', b', ha, hb, -, rfl, -⟩ := unchanged_bin h
      rw [iha ha, ihb hb]
  | neg a ih =>
      obtain ⟨a', ha, -, rfl, -⟩ := unchanged_neg h
      rw [ih ha]
  | app f a ih =>
      obtain ⟨a', ha, -, rfl, -⟩ := unchanged_app h
      rw [ih ha]

end

/-! ## runs of passes -/

/-- The first pass of a run, which is the last one if it changes nothing. -/
theorem passes_succ {n : Nat} {e e' : Expr α} {settled : Bool}
    (h : (passes s (n + 1) e).result = .ok (e', settled)) :
    (∃ e₁, (pass s e).result = .ok (e₁, true) ∧ (passes s n e₁).result = .ok (e', settled) ∧
      (passes s (n + 1) e).notes = (pass s e).notes ++ (passes s n e₁).notes) ∨
    ((pass s e).result = .ok (e', false) ∧ settled = true ∧
      (passes s (n + 1) e).notes = (pass s e).notes) := by
  rw [passes, untilSettled] at h ⊢
  obtain ⟨⟨e₁, changed⟩, hpass, h, hnotes⟩ := Noted.bind_ok h
  cases changed with
  | true => exact .inl ⟨e₁, hpass, h, hnotes⟩
  | false =>
      obtain ⟨rfl, rfl⟩ := Prod.mk.inj (Except.ok.inj h)
      exact .inr ⟨hpass, rfl, hnotes.trans (List.append_nil _)⟩

/-- What every pass keeps, a run of passes keeps. -/
theorem passes_induction {P : Expr α → Prop}
    (hpass : ∀ e p, P e → (pass s e).result = .ok p → P p.1) {n : Nat} {e e' : Expr α}
    {settled : Bool} (he : P e) (h : (passes s n e).result = .ok (e', settled)) : P e' := by
  induction n generalizing e with
  | zero =>
      obtain ⟨rfl, -⟩ := Prod.mk.inj (Except.ok.inj h)
      exact he
  | succ n ih =>
      rcases passes_succ h with ⟨e₁, h₁, h, -⟩ | ⟨h, -, -⟩
      · exact ih (hpass e _ he h₁) h
      · exact hpass e _ he h

/-- A run that settled ends in a pass that changes nothing; what that pass notes is noted. -/
theorem pass_of_settled {n : Nat} {e e' : Expr α}
    (h : (passes s n e).result = .ok (e', true)) :
    (pass s e').result = .ok (e', false) ∧ (pass s e').notes ⊆ (passes s n e).notes := by
  induction n generalizing e with
  | zero => cases h
  | succ n ih =>
      rcases passes_succ h with ⟨e₁, -, h, hnotes⟩ | ⟨h, -, hnotes⟩
      · obtain ⟨hlast, hsub⟩ := ih h
        rw [hnotes]
        exact ⟨hlast, fun d hd => List.mem_append_right _ (hsub hd)⟩
      · obtain rfl := eq_of_unchanged h
        exact ⟨h, hnotes ▸ List.Subset.refl _⟩

/-- A pass that changes nothing is the only one of a run. -/
theorem passes_of_unchanged {n : Nat} {e : Expr α} (h : (pass s e).result = .ok (e, false)) :
    (passes s (n + 1) e).result = .ok (e, true) := by
  rw [passes, untilSettled, Noted.bind_result_of_ok h]
  rfl

/-- A run of two passes, the second of which changes nothing. -/
theorem passes_of_changed {n : Nat} {e e' : Expr α} (hfirst : (pass s e).result = .ok (e', true))
    (hlast : (pass s e').result = .ok (e', false)) :
    (passes s (n + 2) e).result = .ok (e', true) := by
  rw [passes, untilSettled, Noted.bind_result_of_ok hfirst]
  exact passes_of_unchanged hlast

end Fluxion.Expr

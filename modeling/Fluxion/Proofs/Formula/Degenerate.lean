import Fluxion.Proofs.Expr.Pass
import Fluxion.Proofs.Formula.Strictness
import Fluxion.Proofs.Number.Lawful

/-!
# Fluxion.Proofs.Formula.Degenerate

No degenerate node slips through a simplification.

An operation on two literals that is still there has no finite result, and neither have a quotient,
a logarithm or a cotangent at a literal within the tolerance of zero.  The last pass of a run that
settled goes over all of the result and finds no rule for such a node, which is why it reports it.

* `Expr.Degenerate`, `Diagnostic.Concerns`: such nodes, and what is reported of them;
* `Expr.noted_of_degenerate`: what the last pass notes;
* `Formula.degenerate_reported`: what a simplification reports.
-/

namespace Fluxion

variable {α : Type} [Arith α]

namespace Expr

omit [Arith α] in
/-- An expression and all that stands in it. -/
def subterms : Expr α → List (Expr α)
  | num v => [num v]
  | var x => [var x]
  | bin op a b => bin op a b :: (a.subterms ++ b.subterms)
  | neg a => neg a :: a.subterms
  | app f a => app f a :: a.subterms

/-- A literal within the tolerance of zero, whatever its sign. -/
def IsZeroLiteral (e : Expr α) : Prop := ∃ w, Term.literal? e = some w ∧ Arith.near w Arith.zero = true

/-- A node that should have been computed, or cannot be. -/
inductive Degenerate : Expr α → Prop where
  | literals {op : BinOp} {a b : Expr α} {v w : α} (ha : Term.literal? a = some v)
      (hb : Term.literal? b = some w) : Degenerate (bin op a b)
  | divisor {a b : Expr α} (hb : b.IsZeroLiteral) : Degenerate (bin .div a b)
  | logarithm {a : Expr α} (ha : a.IsZeroLiteral) : Degenerate (app .ln a)
  | cotangent {a : Expr α} (ha : a.IsZeroLiteral) : Degenerate (app .cot a)

end Expr

open Fluxion.Expr (IsZeroLiteral Degenerate)

/-- A diagnostic reports a node, and what it says of the node is so. -/
inductive Diagnostic.Concerns : Diagnostic α (Expr α) → Expr α → Prop where
  | zeroPower {a b : Expr α} {v w : α} (ha : Term.literal? a = some v)
      (hb : Term.literal? b = some w) (hv : Arith.isZero v = true) (hw : Arith.negative w = true) :
      Concerns (.zeroPower (.bin .pow a b)) (.bin .pow a b)
  | zeroQuotient {op : BinOp} {a b : Expr α} {v w : α} (ha : Term.literal? a = some v)
      (hb : Term.literal? b = some w) (h : op.compute v w = .error .divisionByZero) :
      Concerns (.zeroQuotient v w) (.bin op a b)
  | noValue {op : BinOp} {a b : Expr α} {v w : α} {f : MathFault} (ha : Term.literal? a = some v)
      (hb : Term.literal? b = some w) (h : op.compute v w = .error f) :
      Concerns (.noValue op v w f) (.bin op a b)
  | notFinite {op : BinOp} {a b : Expr α} {v w r : α} (ha : Term.literal? a = some v)
      (hb : Term.literal? b = some w) (h : op.compute v w = .ok r) (hr : Arith.finite r = false) :
      Concerns (.notFinite op v w) (.bin op a b)
  | zeroDivisor {a b : Expr α} (hb : b.IsZeroLiteral) :
      Concerns (.zeroDivisor (.bin .div a b)) (.bin .div a b)
  | zeroLogarithm {a : Expr α} (ha : a.IsZeroLiteral) : Concerns .zeroLogarithm (.app .ln a)
  | zeroCotangent {a : Expr α} (ha : a.IsZeroLiteral) : Concerns .zeroCotangent (.app .cot a)

/-! ## nodes without a rule -/

namespace Term

variable {s : Strictness} {op : BinOp} {a b : Expr α} {v w : α}

omit [Arith α] in
/-- A report that goes on is a note. -/
theorem report_ok {d : Diagnostic α (Expr α)} {u : Unit} (h : (s.report d).result = .ok u) :
    (s.report d).notes = [d] := by
  cases s with
  | lenient => rfl
  | strict => cases h

omit [Arith α] in
/-- A diagnostic after which the node stays as it is has been noted. -/
theorem mem_notes_report_none {d : Diagnostic α (Expr α)} {o : Option (Expr α)}
    {x : Simplifying α (Expr α) (Option (Expr α))} (hx : x = do s.report d; return none)
    (h : x.result = .ok o) : d ∈ x.notes := by
  subst hx
  obtain ⟨u, hu, -, hnotes⟩ := Noted.bind_ok h
  rw [hnotes, report_ok hu]
  exact List.mem_cons_self

/-- An operation on two literals that stays is reported. -/
theorem noted_of_fold (ha : literal? a = some v) (hb : literal? b = some w)
    (h : (fold s op a b v w).result = .ok none) :
    ∃ d ∈ (fold s op a b v w).notes, d.Concerns (.bin op a b) := by
  unfold fold at h ⊢
  split at h
  · next hzero =>
    obtain ⟨rfl, hv, hw⟩ := hzero
    rw [if_pos ⟨rfl, hv, hw⟩]
    exact ⟨_, mem_notes_report_none rfl h, .zeroPower ha hb hv hw⟩
  · next hzero =>
    rw [if_neg hzero]
    split at h
    · next hc => exact ⟨_, mem_notes_report_none rfl h, .zeroQuotient ha hb hc⟩
    · next hc => exact ⟨_, mem_notes_report_none rfl h, .noValue ha hb hc⟩
    · next r hc =>
      split at h
      · cases h
      · next hr =>
        rw [if_neg hr]
        exact ⟨_, mem_notes_report_none rfl h,
          .notFinite ha hb hc (Bool.eq_false_iff.mpr hr)⟩

/-- A literal that is zero up to the tolerance is a number or a negated one. -/
theorem nearZero_or_neg (h : a.IsZeroLiteral) : nearZero a = true ∨ ∃ w, a = .neg (.num w) := by
  obtain ⟨w, hw, hnear⟩ := h
  cases a with
  | num v =>
      obtain rfl : v = w := Option.some.inj hw
      exact .inl hnear
  | neg c =>
      cases c with
      | num v => exact .inr ⟨v, rfl⟩
      | var _ | bin _ _ _ | neg _ | app _ _ => cases hw
  | var _ | bin _ _ _ | app _ _ => cases hw

/-- A quotient by a negation always has a rule, which moves the negation outwards. -/
theorem hoistNeg?_div_neg (a c : Expr α) : hoistNeg? .div a (.neg c) ≠ none := by
  cases a <;> exact nofun

/-- A degenerate binary node that has no rule is reported. -/
theorem noted_of_reduceBin (hd : Degenerate (.bin op a b))
    (h : (reduceBin s op a b).result = .ok none) :
    ∃ d ∈ (reduceBin s op a b).notes, d.Concerns (.bin op a b) := by
  by_cases hboth : ∃ v w, literal? a = some v ∧ literal? b = some w
  · obtain ⟨v, w, ha, hb⟩ := hboth
    have hfold : reduceBin s op a b = fold s op a b v w := by rw [reduceBin, ha, hb]
    rw [hfold] at h ⊢
    exact noted_of_fold ha hb h
  · cases hd with
    | literals ha hb => exact absurd ⟨_, _, ha, hb⟩ hboth
    | divisor hb =>
        unfold reduceBin at h ⊢
        split at h
        · next ha hb' => exact absurd ⟨_, _, ha, hb'⟩ hboth
        · split at h
          · cases h
          · next hhoist =>
            have hzero : nearZero b = true := by
              refine (nearZero_or_neg hb).resolve_right ?_
              rintro ⟨w, rfl⟩
              exact hoistNeg?_div_neg a _ hhoist
            have hidentity : identity s .div a b = (do s.report (.zeroDivisor (.bin .div a b))
                                                       return none) := by
              rw [identity, if_pos hzero]
              rfl
            obtain ⟨o, ho, -, hnotes⟩ := Noted.bind_ok h
            rw [hnotes]
            exact ⟨_, List.mem_append_left _ (mem_notes_report_none hidentity ho),
              .zeroDivisor hb⟩

/-- A degenerate function that has no rule is reported, at a number. -/
theorem noted_of_reduceApp {f : Fn} (hd : Degenerate (.app f a)) (hzero : nearZero a = true)
    (h : (reduceApp s f a).result = .ok none) :
    ∃ d ∈ (reduceApp s f a).notes, d.Concerns (.app f a) := by
  cases hd with
  | logarithm ha =>
      have hrule : reduceApp s .ln a = (do s.report .zeroLogarithm; return none) := if_pos hzero
      exact ⟨_, mem_notes_report_none hrule h, .zeroLogarithm ha⟩
  | cotangent ha =>
      have hrule : reduceApp s .cot a = (do s.report .zeroCotangent; return none) := if_pos hzero
      exact ⟨_, mem_notes_report_none hrule h, .zeroCotangent ha⟩

end Term

/-! ## the last pass -/

namespace Expr

variable [LawfulArith α] {s : Strictness} {e : Expr α}

/-- A negated number that is zero up to the tolerance does not outlast a pass. -/
theorem nearZero_of_unchanged (h : (pass s e).result = .ok (e, false)) (hzero : e.IsZeroLiteral) :
    Term.nearZero e = true := by
  refine (Term.nearZero_or_neg hzero).resolve_right ?_
  rintro ⟨w, rfl⟩
  obtain ⟨v, hv, hnear⟩ := hzero
  obtain rfl : Arith.neg w = v := Option.some.inj hv
  obtain ⟨a, -, hstays, ha, -⟩ := unchanged_neg h
  obtain rfl := neg.inj ha
  have hnear' : Term.nearZero (num w) = true := by rwa [LawfulArith.near_neg_zero] at hnear
  have hgone : Term.reduceNeg (num w) = some (num Arith.zero) := if_pos hnear'
  rw [hgone] at hstays
  cases hstays

/-- Whatever is degenerate in an expression that a pass leaves unchanged, the pass has noted. -/
theorem noted_of_degenerate (h : (pass s e).result = .ok (e, false)) {u : Expr α}
    (hu : u ∈ e.subterms) (hd : Degenerate u) : ∃ d ∈ (pass s e).notes, d.Concerns u := by
  induction e with
  | num v =>
      obtain rfl := List.mem_singleton.mp hu
      cases hd
  | var x =>
      obtain rfl := List.mem_singleton.mp hu
      cases hd
  | bin op a b iha ihb =>
      obtain ⟨a', b', ha, hb, hstays, he, hnotes⟩ := unchanged_bin h
      obtain ⟨-, rfl, rfl⟩ := bin.inj he
      rw [hnotes]
      simp only [subterms, List.mem_cons, List.mem_append] at hu
      rcases hu with rfl | hu | hu
      · obtain ⟨d, hmem, hc⟩ := Term.noted_of_reduceBin hd hstays
        exact ⟨d, List.mem_append_right _ (List.mem_append_right _ hmem), hc⟩
      · obtain ⟨d, hmem, hc⟩ := iha ha hu
        exact ⟨d, List.mem_append_left _ hmem, hc⟩
      · obtain ⟨d, hmem, hc⟩ := ihb hb hu
        exact ⟨d, List.mem_append_right _ (List.mem_append_left _ hmem), hc⟩
  | neg a ih =>
      obtain ⟨a', ha, -, he, hnotes⟩ := unchanged_neg h
      obtain rfl := neg.inj he
      rw [hnotes]
      rcases List.mem_cons.mp hu with rfl | hu
      · cases hd
      · exact ih ha hu
  | app f a ih =>
      obtain ⟨a', ha, hstays, he, hnotes⟩ := unchanged_app h
      obtain ⟨-, rfl⟩ := app.inj he
      rw [hnotes]
      rcases List.mem_cons.mp hu with rfl | hu
      · have hzero : a.IsZeroLiteral := by cases hd <;> assumption
        obtain ⟨d, hmem, hc⟩ := Term.noted_of_reduceApp hd (nearZero_of_unchanged ha hzero) hstays
        exact ⟨d, List.mem_append_right _ hmem, hc⟩
      · obtain ⟨d, hmem, hc⟩ := ih ha hu
        exact ⟨d, List.mem_append_left _ hmem, hc⟩

omit [LawfulArith α] in
/-- A strict run takes no notes: its first diagnostic ends it. -/
theorem notes_passes_strict (n : Nat) (e : Expr α) : (passes .strict n e).notes = [] := by
  rw [(stopsAt_passes n e).eq_stopAt]
  obtain ⟨ds, r⟩ := passes .lenient n e
  cases ds with
  | nil => rfl
  | cons d ds =>
      have hd : Diagnostic.asError d = some (.degenerate d) := rfl
      rw [Noted.stopAt_cons hd]

end Expr

/-- **No degenerate node slips through.**  Let a simplification of a formula over machine numbers
have a result on which its passes settled.  If it was strict, nothing in the result is degenerate.
If it was lenient, whatever is degenerate in the result was reported: one of the texts that this
simplification warned of is that of a diagnostic for that very node. -/
theorem Formula.degenerate_reported (f g : Formula Float) :
    ((f.simplify .strict).result = .ok g → .unsettled ∉ (f.simplify .strict).notes →
      ∀ u ∈ g.root.subterms, ¬u.Degenerate) ∧
    ((f.simplify .lenient).result = .ok g → .unsettled ∉ (f.simplify .lenient).notes →
      ∀ u ∈ g.root.subterms, u.Degenerate →
        ∃ d : Diagnostic Float (Expr Float), d.Concerns u ∧
          d.message Expr.display ∈ warnings (f.simplify .lenient)) := by
  have hnoted : ∀ s, (f.simplify s).result = .ok g → .unsettled ∉ (f.simplify s).notes →
      ∀ u ∈ g.root.subterms, u.Degenerate →
        ∃ d ∈ (Expr.passes s maxPasses f.root).notes, d.Concerns u := by
    intro s hg hsettled u hu hd
    obtain ⟨hlast, hnotes⟩ := Expr.pass_of_settled (passes_of_simplify hg hsettled)
    obtain ⟨d, hmem, hc⟩ := Expr.noted_of_degenerate hlast hu hd
    exact ⟨d, hnotes hmem, hc⟩
  constructor
  · intro hg hsettled u hu hd
    obtain ⟨d, hmem, -⟩ := hnoted .strict hg hsettled u hu hd
    rw [Expr.notes_passes_strict] at hmem
    cases hmem
  · intro hg hsettled u hu hd
    obtain ⟨d, hmem, hc⟩ := hnoted .lenient hg hsettled u hu hd
    exact ⟨d, hc, message_mem_warnings hmem⟩

/-- A logarithm whose operand turns out to be zero is reported, and a strict simplification that
only drops a zero leaves nothing degenerate. -/
theorem Formula.degenerate_reported_logarithm :
    let f : Formula Float := ⟨.app .ln (.bin .sub (.var "x") (.var "x")), ["x"]⟩
    let g : Formula Float := ⟨.app .ln (.num 0), ["x"]⟩
    let h : Formula Float := ⟨.bin .add (.var "x") (.num 0), ["x"]⟩
    ((f.simplify .lenient).result = .ok g ∧ .unsettled ∉ (f.simplify .lenient).notes ∧
      g.root ∈ g.root.subterms ∧ g.root.Degenerate ∧
      ∃ d : Diagnostic Float (Expr Float), d.Concerns g.root ∧
        d.message Expr.display ∈ warnings (f.simplify .lenient)) ∧
    ((h.simplify .strict).result = .ok ⟨.var "x", ["x"]⟩ ∧
      .unsettled ∉ (h.simplify .strict).notes ∧ ¬(Expr.var (α := Float) "x").Degenerate) := by
  intro f g h
  have hg : (f.simplify .lenient).result = .ok g := rfl
  have hsettled : .unsettled ∉ (f.simplify .lenient).notes := by
    have hnotes : (f.simplify .lenient).notes = [.diagnostic .zeroLogarithm] := rfl
    rw [hnotes]
    exact fun hmem => nomatch List.mem_singleton.mp hmem
  have hmem : g.root ∈ g.root.subterms := List.mem_cons_self
  have hd : g.root.Degenerate := .logarithm ⟨0, rfl, by decide +kernel⟩
  have hx : (h.simplify .strict).result = .ok ⟨.var "x", ["x"]⟩ := rfl
  have hxsettled : .unsettled ∉ (h.simplify .strict).notes := by
    have hnotes : (h.simplify .strict).notes = [] := rfl
    rw [hnotes]
    exact List.not_mem_nil
  exact ⟨⟨hg, hsettled, hmem, hd, (degenerate_reported f g).2 hg hsettled _ hmem hd⟩,
    hx, hxsettled, (degenerate_reported h _).1 hx hxsettled _ List.mem_cons_self⟩

end Fluxion

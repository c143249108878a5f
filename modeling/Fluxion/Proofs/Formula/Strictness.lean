import Fluxion.Failure
import Fluxion.Proofs.Formula.Warnings
import Fluxion.Proofs.Noted

/-!
# Fluxion.Proofs.Formula.Strictness

Strict and lenient simplification are one computation.

A strict run is the lenient run up to its first diagnostic, which then is the failure of the strict
run.  This holds of every rule, and a sequence of steps inherits it from the steps
(`Noted.StopsAt`), so it holds of passes, of runs of passes, and of all that is built from
simplifications: series, tangents and solutions.

* `Term.stopsAt_reduceBin`, `Term.stopsAt_reduceApp`: the rules;
* `Formula.stopsAt_simplify`, `Formula.stopsAt_series`, `Formula.stopsAt_tangent`,
  `Problem.stopsAt_solve`: the operations;
* `Formula.strict_iff_lenient`: what a user sees of it.
-/

namespace Fluxion

open Noted (StopsAt)

variable {α β ε : Type}

/-! ## rules -/

/-- The failure that a diagnostic stands for. -/
def Diagnostic.asError (d : Diagnostic α β) : Option (SimplifyError α β) := some (.degenerate d)

/-- A strict report fails where a lenient one takes a note. -/
theorem Strictness.stopsAt_report (d : Diagnostic α β) :
    StopsAt Diagnostic.asError (Strictness.strict.report d) (Strictness.lenient.report d) :=
  .note rfl

/-- A diagnostic after which the node stays as it is. -/
theorem Strictness.stopsAt_report_none (d : Diagnostic α β) :
    StopsAt Diagnostic.asError
      (do Strictness.strict.report d; return (none : Option β))
      (do Strictness.lenient.report d; return none) :=
  (stopsAt_report d).bind fun _ => .pure none

namespace Term

open Strictness

variable [Arith α] [Term α β]

/-- Folding stops at a degenerate operation. -/
theorem stopsAt_fold (op : BinOp) (left right : β) (a b : α) :
    StopsAt Diagnostic.asError (fold .strict op left right a b)
      (fold .lenient op left right a b) := by
  unfold fold
  split
  · exact stopsAt_report_none _
  · split
    · exact stopsAt_report_none _
    · exact stopsAt_report_none _
    · split
      · exact .pure _
      · exact stopsAt_report_none _

/-- Dropping operands stops at a zero divisor. -/
theorem stopsAt_identity (op : BinOp) (a b : β) :
    StopsAt Diagnostic.asError (identity .strict op a b) (identity .lenient op a b) := by
  cases op with
  | add | sub | mul | pow =>
      simp only [identity]
      repeat' split
      all_goals exact .pure _
  | div =>
      simp only [identity]
      split
      · exact stopsAt_report_none _
      · repeat' split
        all_goals exact .pure _

/-- The parity of an exponent is no matter of strictness. -/
theorem stopsAt_negBase (op : BinOp) (a b : β) :
    StopsAt Diagnostic.asError (negBase op a b) (negBase op a b) := by
  have hfault : ∀ f : MathFault, StopsAt Diagnostic.asError
      (.fail (.fault f) : Simplifying α β (Option β)) (.fail (.fault f)) := by
    intro f
    refine .of_silent Noted.silent_nil fun d e hd he => ?_
    obtain rfl : SimplifyError.degenerate d = e := Option.some.inj hd
    cases he
  unfold negBase
  split
  · split
    · exact .pure _
    · exact .pure _
    · exact .pure _
    · exact hfault _
  · exact .pure _

/-- The rules for operations stop at what is degenerate. -/
theorem stopsAt_reduceBin (op : BinOp) (a b : β) :
    StopsAt Diagnostic.asError (reduceBin .strict op a b) (reduceBin .lenient op a b) := by
  unfold reduceBin
  split
  · exact stopsAt_fold _ _ _ _ _
  · split
    · exact .pure _
    · refine (stopsAt_identity op a b).bind fun o => ?_
      split
      · exact .pure _
      · split
        · exact .pure _
        · exact stopsAt_negBase _ _ _

/-- The rules for functions stop at what is degenerate. -/
theorem stopsAt_reduceApp (f : Fn) (a : β) :
    StopsAt Diagnostic.asError (reduceApp .strict f a) (reduceApp .lenient f a) := by
  unfold reduceApp
  split
  · split
    · exact .pure _
    · split
      · exact .pure _
      · exact stopsAt_report_none _
      · exact stopsAt_report_none _
      · exact .pure _
  · split
    · split <;> exact .pure _
    · split
      · repeat' split
        all_goals exact .pure _
      · exact .pure _

end Term

/-! ## passes -/

/-- Passes stop where one of them does. -/
theorem stopsAt_untilSettled {ν : Type} {stop : ν → Option ε}
    {pass pass' : β → Noted ν ε (β × Bool)} (h : ∀ b, StopsAt stop (pass b) (pass' b)) (n : Nat)
    (b : β) : StopsAt stop (untilSettled pass n b) (untilSettled pass' n b) := by
  induction n generalizing b with
  | zero => exact .pure _
  | succ n ih =>
      rw [untilSettled, untilSettled]
      refine (h b).bind fun p => ?_
      dsimp only
      split
      · exact ih p.1
      · exact .pure _

namespace Expr

variable [Arith α]

/-- A pass stops at the first degenerate operation. -/
theorem stopsAt_pass (e : Expr α) :
    StopsAt Diagnostic.asError (pass .strict e) (pass .lenient e) := by
  induction e with
  | num v => exact .pure _
  | var x => exact .pure _
  | bin op a b iha ihb =>
      exact iha.bind fun _ => ihb.bind fun _ => (Term.stopsAt_reduceBin op _ _).bind fun _ => .pure _
  | neg a ih => exact ih.bind fun _ => .pure _
  | app f a ih => exact ih.bind fun _ => (Term.stopsAt_reduceApp f _).bind fun _ => .pure _

/-- Passes stop at the first degenerate operation. -/
theorem stopsAt_passes (n : Nat) (e : Expr α) :
    StopsAt Diagnostic.asError (passes .strict n e) (passes .lenient n e) :=
  stopsAt_untilSettled stopsAt_pass n e

end Expr

/-! ## operations on formulas -/

/-- The failure that a note stands for, in the words of an operation. -/
def Note.asError (w : SimplifyError α (Expr α) → ε) : Note α → Option ε
  | .diagnostic d => some (w (.degenerate d))
  | _ => none

theorem Note.map_asError {δ : Type} (w : SimplifyError α (Expr α) → ε) (g : ε → δ) :
    (fun n => (Note.asError w n).map g) = Note.asError (g ∘ w) := by
  funext n
  cases n <;> rfl

namespace Formula

variable [Numeral α]

/-- A cut at a diagnostic is one at the note that is taken of it. -/
theorem stopsAt_mapNotes {x x' : Simplifying α (Expr α) β} (h : StopsAt Diagnostic.asError x x') :
    StopsAt (Note.asError id) (x.mapNotes diagnosticNotes) (x'.mapNotes diagnosticNotes) where
  eq_stopAt := by
    rw [h.eq_stopAt]
    obtain ⟨ds, r⟩ := x'
    cases ds with
    | nil => rfl
    | cons d ds =>
        have hd : Diagnostic.asError d = some (.degenerate d) := rfl
        have hn : (Note.diagnostic d).asError id = some (.degenerate d) := rfl
        rw [Noted.stopAt_cons hd ds r]
        exact (Noted.stopAt_cons hn _ r).symm
  tolerant := by
    intro n e hn
    cases n with
    | diagnostic d => exact h.tolerant d e hn
    | _ => cases hn

omit [Numeral α] in
/-- A note that is no diagnostic is taken in both runs. -/
theorem stopsAt_note {w : SimplifyError α (Expr α) → ε} {n : Note α}
    (h : n.asError w = none) : StopsAt (Note.asError w) (.note n) (.note n) :=
  .of_silent (fun m hm => by rw [List.mem_singleton.mp hm, h]) fun _ _ _ => nofun

omit [Numeral α] in
/-- A step whose failures are not diagnostics. -/
theorem stopsAt_lift {w : SimplifyError α (Expr α) → ε} {r : Except ε β}
    (h : ∀ e, r ≠ .error (w e)) : StopsAt (Note.asError w) (.lift r) (.lift r) := by
  refine .of_silent Noted.silent_nil fun n e hn => ?_
  cases n with
  | diagnostic d =>
      obtain rfl : w (.degenerate d) = e := Option.some.inj hn
      exact h _
  | _ => cases hn

omit [Numeral α] in
/-- Failures of other kinds are the same in both runs. -/
theorem stopsAt_fail {w : SimplifyError α (Expr α) → ε} {e : ε} (h : ∀ e', e ≠ w e') :
    StopsAt (Note.asError w) (.fail e : Working α ε β) (.fail e) :=
  stopsAt_lift fun e' heq => h e' (Except.error.inj heq)

omit [Numeral α] in
/-- What fails for other reasons does so in both runs. -/
theorem stopsAt_lift_mapError {δ : Type} {w : SimplifyError α (Expr α) → ε} {g : δ → ε}
    (h : ∀ e e', g e ≠ w e') (r : Except δ β) :
    StopsAt (Note.asError w) (.lift (r.mapError g)) (.lift (r.mapError g)) := by
  refine stopsAt_lift fun e' => ?_
  cases r with
  | ok b => exact nofun
  | error e => exact fun heq => h e e' (Except.error.inj heq)

omit [Numeral α] in
/-- A term of a series that cannot be represented. -/
theorem stopsAt_seriesTerm (r : Except MathFault (Expr α)) :
    StopsAt (Note.asError (CalculusError.simplify (α := α))) (.lift (r.mapError .fault))
      (.lift (r.mapError .fault)) :=
  stopsAt_lift_mapError (g := CalculusError.fault) (by nofun) r

omit [Numeral α] in
/-- An unknown variable is refused in both runs. -/
theorem stopsAt_requireVar (f : Formula α) (x : String) :
    StopsAt (Note.asError CalculusError.simplify) (.lift (f.requireVar x))
      (.lift (f.requireVar x)) := by
  refine stopsAt_lift fun e => ?_
  unfold requireVar
  split <;> exact nofun

variable [Arith α]

/-- A simplification stops at its first diagnostic. -/
theorem stopsAt_simplify (f : Formula α) :
    StopsAt (Note.asError id) (f.simplify .strict) (f.simplify .lenient) := by
  refine (stopsAt_mapNotes (Expr.stopsAt_passes maxPasses f.root)).bind fun p => ?_
  dsimp only
  split
  · exact (stopsAt_note rfl).bind fun _ => .pure _
  · exact .pure _

/-- A simplification within another operation stops at its first diagnostic. -/
theorem stopsAt_simplified (f : Formula α) :
    StopsAt (Note.asError .simplify) (f.simplified .strict) (f.simplified .lenient) := by
  have h := (stopsAt_simplify f).mapError (g := CalculusError.simplify)
    fun _ _ h => CalculusError.simplify.inj h
  rwa [Note.map_asError] at h

/-- What follows the choice of the terms is reached in both runs with the same terms. -/
theorem stopsAt_seriesFrom (x : String) (center : α) (power more : Nat) (derivative : Formula α)
    (terms : Option (Expr α)) :
    StopsAt (Note.asError .simplify) (seriesFrom .strict x center power more derivative terms)
      (seriesFrom .lenient x center power more derivative terms) := by
  induction more generalizing power derivative terms with
  | zero =>
      unfold seriesFrom
      refine (stopsAt_simplified _).bind fun value => (stopsAt_note rfl).bind fun _ => ?_
      dsimp only
      split
      · exact (StopsAt.pure terms).bind fun _ => .pure _
      · exact (stopsAt_seriesTerm _).bind fun _ => (StopsAt.pure _).bind fun _ => .pure _
  | succ more ih =>
      unfold seriesFrom
      refine (stopsAt_simplified _).bind fun value => (stopsAt_note rfl).bind fun _ => ?_
      have hrest : ∀ terms, StopsAt (Note.asError .simplify)
          (do seriesFrom .strict x center (power + 1) more
                (← (derivative.withRoot (derivative.root.derivative x)).simplified .strict) terms)
          (do seriesFrom .lenient x center (power + 1) more
                (← (derivative.withRoot (derivative.root.derivative x)).simplified .lenient) terms) :=
        fun terms => (stopsAt_simplified _).bind fun next => ih (power + 1) next terms
      dsimp only
      split
      · exact (StopsAt.pure terms).bind hrest
      · exact (stopsAt_seriesTerm _).bind fun _ => (StopsAt.pure _).bind hrest

/-- A series stops at the first diagnostic of its simplifications. -/
theorem stopsAt_series (f : Formula α) (x : String) (center : α) (order : Int) :
    StopsAt (Note.asError .simplify) (f.series .strict x center order)
      (f.series .lenient x center order) := by
  refine (stopsAt_requireVar f x).bind fun _ => ?_
  cases order with
  | negSucc n => exact stopsAt_fail (e := CalculusError.negativeOrder (.negSucc n)) (by nofun)
  | ofNat n => exact (stopsAt_seriesFrom x center 0 n f none).bind fun _ => stopsAt_simplified _

/-- A tangent stops at the first diagnostic of its simplifications. -/
theorem stopsAt_tangent (f : Formula α) (x : String) (point : α) :
    StopsAt (Note.asError .simplify) (f.tangent .strict x point) (f.tangent .lenient x point) :=
  (stopsAt_requireVar f x).bind fun _ => (stopsAt_simplified _).bind fun _ =>
    (stopsAt_simplified _).bind fun _ => stopsAt_simplified _

end Formula

/-- Reading the function of a problem is no matter of strictness. -/
theorem Problem.stopsAt_formula [Arith α] (p : Problem α) :
    StopsAt (Note.asError (SolveError.calculus ∘ .simplify)) p.formula p.formula := by
  refine (Formula.stopsAt_lift_mapError (g := SolveError.read ∘ .lexical) (by nofun) _).bind
    fun tokens => (Formula.stopsAt_note rfl).bind fun _ =>
    (Formula.stopsAt_lift_mapError (g := SolveError.read) (by nofun) _).bind fun f => ?_
  dsimp only
  split
  · exact (Formula.stopsAt_fail (e := SolveError.foreignVariable p.var f.vars) (by nofun)).bind
      fun _ => Formula.stopsAt_lift_mapError (g := SolveError.names) (by nofun) _
  · exact Formula.stopsAt_lift_mapError (g := SolveError.names) (by nofun) _

/-- A solution stops at the first diagnostic of its simplifications. -/
theorem Problem.stopsAt_solve [Arith α] [Numeral α] (p : Problem α) :
    StopsAt (Note.asError (.calculus ∘ .simplify)) (p.solve .strict) (p.solve .lenient) := by
  have hcalculus : ∀ {γ : Type} {x x' : Working α (CalculusError α) γ},
      StopsAt (Note.asError .simplify) x x' →
        StopsAt (Note.asError (SolveError.calculus ∘ .simplify)) (x.mapError .calculus)
          (x'.mapError .calculus) := by
    intro γ x x' h
    have h' := h.mapError (g := SolveError.calculus) fun _ _ h => SolveError.calculus.inj h
    rwa [Note.map_asError] at h'
  refine StopsAt.bind ?_ fun f => (Formula.stopsAt_note rfl).bind fun _ =>
    StopsAt.bind ?_ fun derivative => (hcalculus (Formula.stopsAt_simplified _)).bind fun _ =>
    (hcalculus (Formula.stopsAt_series _ _ _ _)).bind fun _ =>
    (hcalculus (Formula.stopsAt_tangent _ _ _)).bind fun _ => .pure _
  · exact stopsAt_formula p
  · refine Formula.stopsAt_lift fun e => ?_
    unfold Formula.differentiate Formula.requireVar
    split <;> exact nofun

/-! ## what a user sees -/

section

variable [Numeral α]

/-- The two runs of an operation, as they are reported.  The strict run fails for a diagnostic
exactly if the lenient run warns of one, which is then the first that it warns of; apart from that
the runs are the same. -/
structure Alike (report : ε → Failure) (strict lenient : Working α ε β) : Prop where
  degenerate_iff : ∀ m, (∃ e, strict.result = .error e ∧ report e = ⟨.degenerate, m⟩) ↔
    (warnings lenient).head? = some m
  eq_of_silent : warnings lenient = [] → strict = lenient

/-- Notes that are no failures show no diagnostic. -/
theorem filterMap_diagnosticText? {w : SimplifyError α (Expr α) → ε} {ns : List (Note α)}
    (h : Noted.Silent (Note.asError w) ns) : ns.filterMap Note.diagnosticText? = [] := by
  rw [List.filterMap_eq_nil_iff]
  intro n hn
  have hsilent := h n hn
  cases n with
  | diagnostic d => cases hsilent
  | _ => rfl

/-- Where the only failures reported as degenerate are diagnostics, runs that stop at a diagnostic
are alike. -/
theorem Alike.of_stopsAt {w : SimplifyError α (Expr α) → ε} {report : ε → Failure}
    {strict lenient : Working α ε β} (h : StopsAt (Note.asError w) strict lenient)
    (hreport : ∀ e m, report e = ⟨.degenerate, m⟩ ↔
      ∃ d, w (.degenerate d) = e ∧ d.message Expr.display = m) : Alike report strict lenient := by
  have hstop := h.eq_stopAt
  rcases Noted.silent_or_first (Note.asError w) lenient.notes with
    hsilent | ⟨before, n, after, e, hnotes, hbefore, hn⟩
  · have hnil : warnings lenient = [] := filterMap_diagnosticText? hsilent
    rw [Noted.stopAt_of_silent hsilent] at hstop
    refine ⟨fun m => ?_, fun _ => hstop⟩
    rw [hnil, hstop]
    constructor
    · rintro ⟨e, he, hm⟩
      obtain ⟨d, rfl, -⟩ := (hreport e m).mp hm
      exact absurd he (h.tolerant (.diagnostic d) _ rfl)
    · exact nofun
  · cases n with
    | diagnostic d =>
        obtain rfl : w (.degenerate d) = e := Option.some.inj hn
        have hfirst : (warnings lenient).head? = some (d.message Expr.display) := by
          rw [warnings, hnotes, List.filterMap_append, filterMap_diagnosticText? hbefore]
          rfl
        rw [Noted.stopAt_of_first hnotes hbefore hn] at hstop
        refine ⟨fun m => ?_, fun hnil => ?_⟩
        · rw [hfirst, hstop]
          constructor
          · rintro ⟨e, he, hm⟩
            obtain rfl := Except.error.inj he
            have hd := (hreport _ _).mpr ⟨d, rfl, rfl⟩
            rw [hd] at hm
            exact congrArg (some ∘ Failure.message) hm
          · intro hm
            obtain rfl := Option.some.inj hm
            exact ⟨_, rfl, (hreport _ _).mpr ⟨d, rfl, rfl⟩⟩
        · rw [hnil] at hfirst
          cases hfirst
    | _ => cases hn

/-- A degenerate simplification is reported by its message. -/
theorem Failure.ofSimplify_eq_degenerate (e : SimplifyError α (Expr α)) (m : String) :
    Failure.ofSimplify Expr.display e = ⟨.degenerate, m⟩ ↔
      ∃ d, .degenerate d = e ∧ d.message Expr.display = m := by
  cases e with
  | degenerate d => simp [Failure.ofSimplify]
  | fault f => cases f <;> simp [Failure.ofSimplify, Failure.ofMath]

/-- A degenerate operation of calculus is reported by its message. -/
theorem Failure.ofCalculus_eq_degenerate (e : CalculusError α) (m : String) :
    Failure.ofCalculus e = ⟨.degenerate, m⟩ ↔
      ∃ d, .simplify (.degenerate d) = e ∧ d.message Expr.display = m := by
  cases e with
  | simplify e => simp [Failure.ofCalculus, ofSimplify_eq_degenerate]
  | fault f => cases f <;> simp [Failure.ofCalculus, Failure.ofMath]
  | unknownVariable _ _ | negativeOrder _ => simp [Failure.ofCalculus]

/-- A degenerate solution is reported by its message. -/
theorem Failure.ofSolve_eq_degenerate (e : SolveError α) (m : String) :
    Failure.ofSolve e = ⟨.degenerate, m⟩ ↔
      ∃ d, .calculus (.simplify (.degenerate d)) = e ∧ d.message Expr.display = m := by
  cases e with
  | calculus e => simp [Failure.ofSolve, ofCalculus_eq_degenerate]
  | read e =>
      have hne : (Failure.ofRead e).kind ≠ .degenerate := by
        cases e with
        | grammar g => cases g <;> nofun
        | lexical _ | namesFull _ _ _ => nofun
      refine ⟨fun h => absurd (congrArg Failure.kind h) hne, ?_⟩
      rintro ⟨d, hd, -⟩
      cases hd
  | foreignVariable _ _ | names _ => simp [Failure.ofSolve, Failure.ofNames]

/-- **Strict and lenient runs are one computation.**  For a simplification, a Taylor series, a
tangent and the solution of a problem: the strict run fails for a diagnostic exactly if the lenient
run warns of one, with the text that the lenient run warns of first; if the lenient run gives no
warning, both have the same notes and end in the same result or the same failure.  Within one
simplification no text is reported twice. -/
theorem Formula.strict_iff_lenient [Arith α] (f : Formula α) (x : String) (center : α)
    (order : Int) (p : Problem α) :
    Alike (Failure.ofSimplify Expr.display) (f.simplify .strict) (f.simplify .lenient) ∧
    Alike Failure.ofCalculus (f.series .strict x center order)
      (f.series .lenient x center order) ∧
    Alike Failure.ofCalculus (f.tangent .strict x center) (f.tangent .lenient x center) ∧
    Alike Failure.ofSolve (p.solve .strict) (p.solve .lenient) ∧
    ∀ s, (warnings (f.simplify s)).Nodup := by
  refine ⟨?_, ?_, ?_, ?_, fun s => nodup_warnings_simplify s f⟩
  · exact .of_stopsAt (stopsAt_simplify f) Failure.ofSimplify_eq_degenerate
  · exact .of_stopsAt (stopsAt_series f x center order) Failure.ofCalculus_eq_degenerate
  · exact .of_stopsAt (stopsAt_tangent f x center) Failure.ofCalculus_eq_degenerate
  · exact .of_stopsAt p.stopsAt_solve Failure.ofSolve_eq_degenerate

end

end Fluxion

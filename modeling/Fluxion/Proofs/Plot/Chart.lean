import Fluxion.Plot.Chart
import Fluxion.Proofs.Stateful
import Mathlib.Algebra.Order.Group.Nat
import Mathlib.Data.List.Basic
import Mathlib.Tactic.Push

/-!
# Fluxion.Proofs.Plot.Chart

Charts whose drawing fails at one call.

What a chart calls does not depend on the outcome of its calls, so a chart is a list of calls, up to
the first curve that cannot be tabulated.  A call that fails cuts the list of its chart, which then
only closes its figure, and leaves the lists of the other charts alone.  All this holds with any
plotting tool, whatever texts it refuses and whatever errors its curves have.

* `Canvas.body_eq`: a chart as a list of calls;
* `Canvas.exec_chart_of_failing`: what is called of a chart that fails;
* `Solution.draw_course`: what is called of all charts, and which of them are listed.
-/

namespace Fluxion

variable {α : Type}

namespace PlotCall

/-- The call neither opens a figure nor closes one. -/
def Inner : PlotCall α → Prop
  | .figure | .close => False
  | _ => True

/-- What is still called once this call has failed: the figure is closed, unless it has not been
opened, or its closing is what failed. -/
def afterFailure : PlotCall α → List (PlotCall α)
  | .figure | .close => []
  | _ => [.close]

theorem Inner.afterFailure_eq {p : PlotCall α} (h : p.Inner) : p.afterFailure = [.close] := by
  cases p with
  | figure | close => exact h.elim
  | line | xlim | ylim | xlabel | legend | save => rfl

end PlotCall

namespace Canvas

/-! ## calls one after the other -/

section Calls

variable {c : Canvas α} {p : PlotCall α} {ps : List (PlotCall α)}

/-- A canvas on which some more calls were made. -/
def record (c : Canvas α) (ps : List (PlotCall α)) : Canvas α :=
  { c with recorded := ps.reverse ++ c.recorded }

/-- None of these calls fails if they are made next. -/
def Spares (c : Canvas α) (ps : List (PlotCall α)) : Prop :=
  ∀ n, c.failing = some n → n ≤ c.recorded.length ∨ c.recorded.length + ps.length < n

@[simp] theorem record_record (c : Canvas α) (ps qs : List (PlotCall α)) :
    (c.record ps).record qs = c.record (ps ++ qs) := by
  simp [record]

@[simp] theorem failing_record : (c.record ps).failing = c.failing := rfl

@[simp] theorem length_recorded_record :
    (c.record ps).recorded.length = c.recorded.length + ps.length := by
  simp [record, Nat.add_comm]

@[simp] theorem calls_record : (c.record ps).calls = c.calls ++ ps := by
  simp [record, calls]

theorem spares_append {qs : List (PlotCall α)} :
    c.Spares (ps ++ qs) ↔ c.Spares ps ∧ (c.record ps).Spares qs := by
  simp only [Spares, failing_record, length_recorded_record, List.length_append]
  constructor
  · intro h
    exact ⟨fun n hn => by have := h n hn; omega, fun n hn => by have := h n hn; omega⟩
  · intro h n hn
    have hfirst := h.1 n hn
    have hsecond := h.2 n hn
    omega

theorem spares_cons : c.Spares (p :: ps) ↔ c.Spares [p] ∧ (c.record [p]).Spares ps := by
  rw [← List.singleton_append, spares_append]

/-- The calls before the one that fails do not fail. -/
theorem spares_of_lt {n : ℕ} (h : c.failing = some n) (hn : c.recorded.length + ps.length < n) :
    c.Spares ps := by
  intro m hm
  rw [h, Option.some.injEq] at hm
  omega

/-- No call fails after the one that did. -/
theorem spares_of_le {n : ℕ} (h : c.failing = some n) (hn : n ≤ c.recorded.length) :
    c.Spares ps := by
  intro m hm
  rw [h, Option.some.injEq] at hm
  omega

theorem exec_call (c : Canvas α) (p : PlotCall α) :
    exec (call p) c = if c.failing = some (c.recorded.length + 1)
      then (.error .refused, c.record [p]) else (.ok (), c.record [p]) := by
  change exec (if c.failing = some (c.recorded.length + 1) then throw ChartError.refused else pure ())
    (c.record [p]) = _
  split <;> rfl

theorem exec_call_of_spares (h : c.Spares [p]) : exec (call p) c = (.ok (), c.record [p]) := by
  have hne : c.failing ≠ some (c.recorded.length + 1) := by
    intro hfails
    have := h _ hfails
    rw [List.length_singleton] at this
    omega
  rw [exec_call, if_neg hne]

theorem exec_call_of_failing (h : c.failing = some (c.recorded.length + 1)) :
    exec (call p) c = (.error .refused, c.record [p]) := by
  rw [exec_call, if_pos h]

/-- Calls one after the other. -/
def perform (ps : List (PlotCall α)) : Drawing α Unit := forM ps call

@[simp] theorem perform_nil : perform ([] : List (PlotCall α)) = pure () := rfl

@[simp] theorem perform_cons : perform (p :: ps) = (do call p; perform ps) := rfl

theorem perform_append (ps qs : List (PlotCall α)) :
    perform (ps ++ qs) = (do perform ps; perform qs) := List.forM_append

/-- Calls of which none fails are all made. -/
theorem exec_perform_of_spares (h : c.Spares ps) :
    exec (perform ps) c = (.ok (), c.record ps) := by
  induction ps generalizing c with
  | nil => rfl
  | cons p ps ih =>
      rw [spares_cons] at h
      rw [perform_cons, exec_bind_of_ok (exec_call_of_spares h.1), ih h.2, record_record]
      rfl

/-- Calls are made up to the one that fails. -/
theorem exec_perform_of_failing {pre post : List (PlotCall α)}
    (h : c.failing = some (c.recorded.length + pre.length + 1)) :
    exec (perform (pre ++ p :: post)) c = (.error .refused, c.record (pre ++ [p])) := by
  have hspares : c.Spares pre := spares_of_lt h (by omega)
  have hfails : (c.record pre).failing = some ((c.record pre).recorded.length + 1) := by
    rw [failing_record, length_recorded_record, h]
  rw [perform_append, exec_bind_of_ok (exec_perform_of_spares hspares), perform_cons,
    exec_bind_of_error (exec_call_of_failing hfails), record_record]

end Calls

/-! ## drawings as lists of calls -/

section Scripts

variable {β γ : Type} {p : PlotCall α} {a a' : Bool}

/-- The drawing is a list of calls, none of which opens or closes a figure, with an outcome that
does not depend on them; it says whether the outcome is a success. -/
def Scripted (a : Bool) (d : Drawing α β) : Prop :=
  ∃ (ps : List (PlotCall α)) (r : Except ChartError β),
    d = (do perform ps; MonadExcept.ofExcept r) ∧ (∀ p ∈ ps, p.Inner) ∧ r.isOk = a

theorem scripted_pure (b : β) : Scripted true (pure b : Drawing α β) :=
  ⟨[], .ok b, rfl, by simp, rfl⟩

theorem scripted_throw (e : ChartError) : Scripted false (throw e : Drawing α β) :=
  ⟨[], .error e, rfl, by simp, rfl⟩

theorem scripted_call (h : p.Inner) : Scripted true (call p) :=
  ⟨[p], .ok (), by simp [MonadExcept.ofExcept], by simpa using h, rfl⟩

/-- A sequence of drawings is a list of calls if both are; the first that fails ends it. -/
theorem Scripted.bind {d : Drawing α β} {f : β → Drawing α γ} (hd : Scripted a d)
    (hf : ∀ b, Scripted a' (f b)) : Scripted (a && a') (d >>= f) := by
  obtain ⟨ps, r, rfl, hps, rfl⟩ := hd
  cases r with
  | error e => exact ⟨ps, .error e, by simp [MonadExcept.ofExcept], hps, rfl⟩
  | ok b =>
      obtain ⟨qs, r, hq, hqs, hr⟩ := hf b
      refine ⟨ps ++ qs, r, by simp [MonadExcept.ofExcept, perform_append, hq], ?_, hr⟩
      intro p hp
      exact (List.mem_append.mp hp).elim (hps p) (hqs p)

theorem scripted_forM {f : β → Drawing α Unit} (bs : List β) (h : ∀ b, Scripted true (f b)) :
    Scripted true (bs.forM f) := by
  induction bs with
  | nil => exact scripted_pure _
  | cons b bs ih => exact (h b).bind fun _ => ih

end Scripts

variable [Arith α] [Numeral α] (tool : PlottingTool α)

/-- The curve can be tabulated over the range of the chart. -/
def tabulated (chart : Chart α) (c : Curve α) : Bool :=
  (Samples.of tool c.formula chart.var chart.start chart.stop resolution).isOk

/-- The curves of the chart can all be tabulated. -/
def drawable (chart : Chart α) : Bool := chart.curves.all (tabulated tool chart)

/-- Curves are lines up to the first that cannot be tabulated. -/
theorem scripted_curves (chart : Chart α) (range : Option (α × α)) (cs : List (Curve α)) :
    Scripted (cs.all (tabulated tool chart)) (curves tool chart range cs) := by
  induction cs generalizing range with
  | nil => exact scripted_pure _
  | cons c cs ih =>
      rw [curves, List.all_cons, tabulated]
      cases Samples.of tool c.formula chart.var chart.start chart.stop resolution with
      | error e => exact scripted_throw _
      | ok s => exact (scripted_call (by trivial)).bind fun _ => ih _

theorem scripted_body (chart : Chart α) : Scripted (drawable tool chart) (body tool chart) := by
  have hlabels : Scripted (α := α) true (do
      call (.xlabel (plainName chart.var)); call .legend; call (.save chart.path)) :=
    (scripted_call (by trivial)).bind fun _ =>
      (scripted_call (by trivial)).bind fun _ => scripted_call (by trivial)
  rw [← Bool.and_true (drawable tool chart)]
  refine (scripted_curves tool chart none chart.curves).bind fun range => ?_
  refine (scripted_forM _ fun m => scripted_call (by trivial)).bind fun _ => ?_
  refine (scripted_call (by trivial)).bind fun _ => ?_
  cases range with
  | none => exact hlabels
  | some r => exact (scripted_call (by trivial)).bind fun _ => hlabels

/-! ## charts as lists of calls -/

/-- The calls of a chart between the opening and the closing of its figure, if none fails. -/
def inner (chart : Chart α) : List (PlotCall α) := (exec (body tool chart) ⟨none, []⟩).2.calls

/-- The outcome of a chart, if no call fails. -/
def outcome (chart : Chart α) : Except ChartError Unit := (exec (body tool chart) ⟨none, []⟩).1

/-- The calls of a chart, if none fails. -/
def script (chart : Chart α) : List (PlotCall α) :=
  .figure :: (inner tool chart ++ [.close])

omit [Arith α] [Numeral α] in
theorem exec_ofExcept {β : Type} (r : Except ChartError β) (c : Canvas α) :
    exec (MonadExcept.ofExcept r : Drawing α β) c = (r, c) := by
  cases r <;> rfl

/-- Between the opening and the closing of its figure a chart is a list of calls. -/
theorem body_eq (chart : Chart α) :
    body tool chart = (do perform (inner tool chart); MonadExcept.ofExcept (outcome tool chart)) ∧
      (∀ p ∈ inner tool chart, p.Inner) ∧ (outcome tool chart).isOk = drawable tool chart := by
  obtain ⟨ps, r, hbody, hps, hr⟩ := scripted_body tool chart
  have hspares : (⟨none, []⟩ : Canvas α).Spares ps := nofun
  have hrun : exec (body tool chart) ⟨none, []⟩ = (r, (⟨none, []⟩ : Canvas α).record ps) := by
    rw [hbody, exec_bind_of_ok (exec_perform_of_spares hspares), exec_ofExcept]
  have hinner : inner tool chart = ps := by
    rw [inner, hrun, calls_record]
    rfl
  have houtcome : outcome tool chart = r := by rw [outcome, hrun]
  rw [hinner, houtcome]
  exact ⟨hbody, hps, hr⟩

/-- Nothing is drawn of a chart whose first curve cannot be tabulated. -/
theorem script_of_error {tool : PlottingTool α} {chart : Chart α} {curve : Curve α}
    {rest : List (Curve α)} {e : SampleError} (hcurves : chart.curves = curve :: rest)
    (h : Samples.of tool curve.formula chart.var chart.start chart.stop resolution = .error e) :
    script tool chart = [.figure, .close] ∧ drawable tool chart = false := by
  constructor
  · rw [script, inner, body, hcurves, curves, h]
    rfl
  · rw [drawable, hcurves, List.all_cons, tabulated, h]
    rfl

section Charts

variable {tool} {chart : Chart α} {c c' : Canvas α} {r : Except ChartError Unit}

/-- The calls in between are all made if none of them fails. -/
theorem exec_body_of_spares (h : c.Spares (inner tool chart)) :
    exec (body tool chart) c = (outcome tool chart, c.record (inner tool chart)) := by
  rw [(body_eq tool chart).1, exec_bind_of_ok (exec_perform_of_spares h), exec_ofExcept]

/-- The calls in between are made up to the one that fails. -/
theorem exec_body_of_failing {ps qs : List (PlotCall α)} {p : PlotCall α}
    (hinner : inner tool chart = ps ++ p :: qs)
    (h : c.failing = some (c.recorded.length + ps.length + 1)) :
    exec (body tool chart) c = (.error .refused, c.record (ps ++ [p])) := by
  rw [(body_eq tool chart).1, hinner, exec_bind_of_error (exec_perform_of_failing h)]

/-- Once a figure is open, it is closed after the calls in between, whatever their outcome. -/
theorem exec_chart (hfigure : c.Spares [.figure])
    (hbody : exec (body tool chart) (c.record [.figure]) = (r, c')) :
    exec (Canvas.chart tool chart) c =
      exec (do call .close; MonadExcept.ofExcept r : Drawing α Unit) c' := by
  rw [Canvas.chart, exec_bind_of_ok (exec_call_of_spares hfigure),
    exec_bind_of_ok (exec_lift_run _ _), hbody]

/-- A chart none of whose calls fails is completed, unless a curve of it cannot be tabulated. -/
theorem exec_chart_of_spares (h : c.Spares (script tool chart)) :
    exec (Canvas.chart tool chart) c = (outcome tool chart, c.record (script tool chart)) := by
  rw [script, spares_cons, spares_append] at h
  obtain ⟨hfigure, hinner, hclose⟩ := h
  rw [exec_chart hfigure (exec_body_of_spares hinner),
    exec_bind_of_ok (exec_call_of_spares hclose), exec_ofExcept]
  simp [script]

/-- A call of a chart opens its figure, closes it, or comes in between. -/
theorem script_split {pre post : List (PlotCall α)} {p : PlotCall α}
    (h : script tool chart = pre ++ p :: post) :
    (pre = [] ∧ p = .figure) ∨ (pre = .figure :: inner tool chart ∧ p = .close) ∨
      ∃ ps qs, pre = .figure :: ps ∧ inner tool chart = ps ++ p :: qs := by
  rw [script, List.cons_eq_append_iff] at h
  obtain ⟨rfl, hp⟩ | ⟨ps, rfl, h⟩ := h
  · exact .inl ⟨rfl, (List.cons.inj hp).1⟩
  · obtain rfl | ⟨qs, q, rfl⟩ := List.eq_nil_or_concat' post
    · obtain ⟨hps, hp⟩ := List.append_inj' h rfl
      exact .inr (.inl ⟨by rw [hps], (List.singleton_inj.mp hp).symm⟩)
    · have hsplit : inner tool chart ++ [.close] = (ps ++ p :: qs) ++ [q] := by simpa using h
      exact .inr (.inr ⟨ps, qs, rfl, (List.append_inj' hsplit rfl).1⟩)

/-- A chart with a call that fails makes its calls up to this one, and its figure is closed. -/
theorem exec_chart_of_failing {pre post : List (PlotCall α)} {p : PlotCall α}
    (hscript : script tool chart = pre ++ p :: post)
    (h : c.failing = some (c.recorded.length + pre.length + 1)) :
    exec (Canvas.chart tool chart) c = (.error .refused, c.record (pre ++ p :: p.afterFailure)) := by
  have hfails (ps : List (PlotCall α)) (hps : pre = .figure :: ps) :
      (c.record [.figure]).failing =
        some ((c.record [.figure]).recorded.length + ps.length + 1) := by
    rw [failing_record, length_recorded_record, h, hps, List.length_cons, List.length_singleton]
    congr 1
    omega
  have hspares : c.Spares pre := spares_of_lt h (by omega)
  obtain ⟨rfl, rfl⟩ | ⟨rfl, rfl⟩ | ⟨ps, qs, rfl, hinner⟩ := script_split hscript
  · rw [Canvas.chart, exec_bind_of_error (exec_call_of_failing h)]
    rfl
  · obtain ⟨hfigure, hps⟩ := spares_cons.mp hspares
    have hclose : ((c.record [.figure]).record (inner tool chart)).failing =
        some (((c.record [.figure]).record (inner tool chart)).recorded.length + 1) := by
      rw [failing_record, length_recorded_record, hfails _ rfl]
    rw [exec_chart hfigure (exec_body_of_spares hps),
      exec_bind_of_error (exec_call_of_failing hclose)]
    simp [PlotCall.afterFailure]
  · obtain ⟨hfigure, -⟩ := spares_cons.mp hspares
    have hp : p.Inner := (body_eq tool chart).2.1 p (by simp [hinner])
    have hclose : ((c.record [.figure]).record (ps ++ [p])).Spares [.close] :=
      spares_of_le h (by simp [Nat.add_assoc])
    rw [exec_chart hfigure (exec_body_of_failing hinner (hfails ps rfl)),
      exec_bind_of_ok (exec_call_of_spares hclose), hp.afterFailure_eq]
    simp [MonadExcept.ofExcept]

end Charts

end Canvas

namespace Solution

open Canvas

variable [Arith α] [Numeral α] {tool : PlottingTool α} {c : Canvas α}
  {charts before after : List (String × Chart α)}

/-! ## all charts -/

/-- Draw charts that can be drawn, and list them with their files. -/
def drawAll (tool : PlottingTool α) (charts : List (String × Chart α)) :
    StateM (Canvas α) (List (String × String)) :=
  charts.filterMapM fun (name, chart) => do
    return if ← attempt tool chart then some (name, chartFile name) else none

/-- The charts that can be drawn, with their files. -/
def listed (tool : PlottingTool α) (charts : List (String × Chart α)) : List (String × String) :=
  (charts.filter fun p => drawable tool p.2).map fun p => (p.1, chartFile p.1)

/-- The calls of charts, if none fails. -/
def scripts (tool : PlottingTool α) (charts : List (String × Chart α)) : List (PlotCall α) :=
  charts.flatMap fun p => script tool p.2

@[simp] theorem scripts_cons (p : String × Chart α) (charts : List (String × Chart α)) :
    scripts tool (p :: charts) = script tool p.2 ++ scripts tool charts := rfl

theorem length_scripts_cons (p : String × Chart α) (charts : List (String × Chart α)) :
    (scripts tool (p :: charts)).length =
      (script tool p.2).length + (scripts tool charts).length := by
  rw [scripts_cons, List.length_append]

theorem listed_cons (p : String × Chart α) (charts : List (String × Chart α)) :
    listed tool (p :: charts) =
      (if drawable tool p.2 then [(p.1, chartFile p.1)] else []) ++ listed tool charts := by
  rw [listed, List.filter_cons]
  split <;> rfl

/-- Whether a chart is drawn, and the canvas after it. -/
theorem run_attempt {chart : Chart α} {r : Except ChartError Unit} {c' : Canvas α}
    (h : exec (Canvas.chart tool chart) c = (r, c')) : (attempt tool chart).run c = (r.isOk, c') := by
  have hrun : (Canvas.chart tool chart).run.run c = (r, c') := h
  rw [attempt, StateT.run_bind, hrun]
  cases r <;> rfl

/-- The first chart is listed if it is drawn, and the others are drawn after it. -/
theorem run_drawAll_cons {name : String} {chart : Chart α} {r : Except ChartError Unit}
    {c' : Canvas α} (h : exec (Canvas.chart tool chart) c = (r, c')) :
    (drawAll tool ((name, chart) :: charts)).run c =
      ((if r.isOk then [(name, chartFile name)] else []) ++ ((drawAll tool charts).run c').1,
        ((drawAll tool charts).run c').2) := by
  rw [drawAll, List.filterMapM_cons]
  simp only [StateT.run_bind, run_attempt h]
  cases r <;> rfl

/-- Charts none of whose calls fails are completed, if their curves can be tabulated. -/
theorem run_drawAll_of_spares (h : c.Spares (scripts tool charts)) :
    (drawAll tool charts).run c = (listed tool charts, c.record (scripts tool charts)) := by
  induction charts generalizing c with
  | nil => rfl
  | cons p charts ih =>
      rw [scripts_cons, spares_append] at h
      rw [run_drawAll_cons (exec_chart_of_spares h.1), ih h.2, record_record,
        (body_eq tool p.2).2.2, listed_cons, scripts_cons]

/-- A chart with a call that fails is left out, and the others are completed. -/
theorem run_drawAll_of_failing {name : String} {chart : Chart α}
    {pre post : List (PlotCall α)} {p : PlotCall α}
    (hscript : script tool chart = pre ++ p :: post)
    (h : c.failing = some (c.recorded.length + (scripts tool before).length + pre.length + 1)) :
    (drawAll tool (before ++ (name, chart) :: after)).run c = (listed tool (before ++ after),
      c.record (scripts tool before ++ (pre ++ p :: p.afterFailure) ++ scripts tool after)) := by
  induction before generalizing c with
  | nil =>
      have hchart := exec_chart_of_failing hscript h
      have hspares : (c.record (pre ++ p :: p.afterFailure)).Spares (scripts tool after) :=
        spares_of_le h (by simp [scripts, Nat.add_assoc])
      rw [List.nil_append, run_drawAll_cons hchart, run_drawAll_of_spares hspares, record_record]
      rfl
  | cons q before ih =>
      rw [length_scripts_cons] at h
      have hspares : c.Spares (script tool q.2) := spares_of_lt h (by omega)
      have hfails : (c.record (script tool q.2)).failing =
          some ((c.record (script tool q.2)).recorded.length + (scripts tool before).length
            + pre.length + 1) := by
        rw [failing_record, length_recorded_record, h, ← Nat.add_assoc]
      rw [List.cons_append, run_drawAll_cons (exec_chart_of_spares hspares), ih hfails,
        record_record, ← List.append_assoc, ← List.append_assoc, (body_eq tool q.2).2.2,
        List.cons_append, listed_cons, scripts_cons]

/-- Each call belongs to one of the charts. -/
theorem exists_split {k : ℕ} (h : k < (scripts tool charts).length) :
    ∃ before name chart after pre p post, charts = before ++ (name, chart) :: after ∧
      script tool chart = pre ++ p :: post ∧ k = (scripts tool before).length + pre.length := by
  induction charts generalizing k with
  | nil => simp [scripts] at h
  | cons q charts ih =>
      rw [length_scripts_cons] at h
      by_cases hk : k < (script tool q.2).length
      · refine ⟨[], q.1, q.2, charts, (script tool q.2).take k, (script tool q.2)[k],
          (script tool q.2).drop (k + 1), rfl, ?_, ?_⟩
        · rw [← List.drop_eq_getElem_cons, List.take_append_drop]
        · simp [scripts, hk.le]
      · have hrest : k - (script tool q.2).length < (scripts tool charts).length := by omega
        obtain ⟨before, name, chart, after, pre, p, post, rfl, hscript, hpos⟩ := ih hrest
        refine ⟨q :: before, name, chart, after, pre, p, post, rfl, hscript, ?_⟩
        rw [length_scripts_cons]
        omega

/-! ## figures -/

/-- After so many calls, each figure that is opened by the next ones is closed once, before another
is opened.  The call that fails, if one does, is given by its number. -/
inductive Tidy (failing : Option ℕ) : ℕ → List (PlotCall α) → Prop
  | nil {m : ℕ} : Tidy failing m []
  | refused {m : ℕ} {rest : List (PlotCall α)} : failing = some (m + 1) →
      Tidy failing (m + 1) rest → Tidy failing m (.figure :: rest)
  | closed {m : ℕ} {ps rest : List (PlotCall α)} : failing ≠ some (m + 1) →
      (∀ p ∈ ps, p.Inner) → Tidy failing (m + ps.length + 2) rest →
      Tidy failing m (.figure :: (ps ++ .close :: rest))

section Tidying

variable {failing : Option ℕ} {m : ℕ} {rest : List (PlotCall α)}

/-- The calls of a chart are tidy if none of them fails, and if what follows is. -/
theorem tidy_script_append {chart : Chart α}
    (h : ∀ n, failing = some n → n ≤ m ∨ m + (script tool chart).length < n)
    (hrest : Tidy failing (m + (script tool chart).length) rest) :
    Tidy failing m (script tool chart ++ rest) := by
  have hlength : (script tool chart).length = (inner tool chart).length + 2 := by simp [script]
  have hopened : failing ≠ some (m + 1) := by
    intro hfails
    have := h _ hfails
    omega
  rw [hlength] at hrest
  simpa [script] using Tidy.closed hopened (body_eq tool chart).2.1 hrest

/-- The calls of charts are tidy if none of them fails, and if what follows is. -/
theorem tidy_scripts_append
    (h : ∀ n, failing = some n → n ≤ m ∨ m + (scripts tool charts).length < n)
    (hrest : Tidy failing (m + (scripts tool charts).length) rest) :
    Tidy failing m (scripts tool charts ++ rest) := by
  induction charts generalizing m with
  | nil => exact hrest
  | cons q charts ih =>
      rw [length_scripts_cons] at h
      rw [length_scripts_cons, ← Nat.add_assoc] at hrest
      rw [scripts_cons, List.append_assoc]
      refine tidy_script_append (fun n hn => ?_) (ih (fun n hn => ?_) hrest)
      · have := h n hn
        omega
      · have := h n hn
        omega

/-- The calls of a chart of which one fails are tidy, if what follows is. -/
theorem tidy_broken_append {chart : Chart α} {pre post : List (PlotCall α)}
    {p : PlotCall α} (hscript : script tool chart = pre ++ p :: post)
    (h : failing = some (m + pre.length + 1))
    (hrest : Tidy failing (m + (pre ++ p :: p.afterFailure).length) rest) :
    Tidy failing m (pre ++ p :: p.afterFailure ++ rest) := by
  obtain ⟨rfl, rfl⟩ | ⟨rfl, rfl⟩ | ⟨ps, qs, rfl, hinner⟩ := script_split hscript
  · exact .refused h hrest
  · have hopened : failing ≠ some (m + 1) := by simp [h]
    simpa [PlotCall.afterFailure] using Tidy.closed hopened (body_eq tool chart).2.1
      (by simpa [PlotCall.afterFailure, Nat.add_assoc] using hrest)
  · have hopened : failing ≠ some (m + 1) := by simp [h]
    have hall : ∀ q ∈ ps ++ [p], q.Inner := fun q hq => (body_eq tool chart).2.1 q (by
      rw [hinner]
      simp only [List.mem_append, List.mem_cons, List.not_mem_nil, or_false] at hq ⊢
      exact hq.imp_right .inl)
    have hp : p.afterFailure = [.close] := (hall p (by simp)).afterFailure_eq
    rw [hp] at hrest ⊢
    simpa using Tidy.closed hopened hall (by simpa [Nat.add_assoc] using hrest)

end Tidying

/-- How charts are drawn: all calls of all charts are made, and all charts are listed whose curves
can be tabulated; or else one of the calls fails, and its chart makes no more calls after it but for
the closing of its figure, and is not listed. -/
inductive Course (tool : PlottingTool α) (charts : List (String × Chart α)) :
    Option ℕ → List (String × String) → List (PlotCall α) → Prop
  | whole {failing : Option ℕ} :
      (∀ n, failing = some n → n = 0 ∨ (scripts tool charts).length < n) →
      Course tool charts failing (listed tool charts) (scripts tool charts)
  | broken {before after : List (String × Chart α)} {name : String} {chart : Chart α}
      {pre post : List (PlotCall α)} {p : PlotCall α} :
      charts = before ++ (name, chart) :: after → script tool chart = pre ++ p :: post →
      Course tool charts (some ((scripts tool before).length + pre.length + 1))
        (listed tool (before ++ after))
        (scripts tool before ++ (pre ++ p :: p.afterFailure) ++ scripts tool after)

/-- Charts take their course, whichever call fails. -/
theorem course_drawAll (tool : PlottingTool α) (charts : List (String × Chart α))
    (failing : Option ℕ) :
    Course tool charts failing ((drawAll tool charts).run ⟨failing, []⟩).1
      ((drawAll tool charts).run ⟨failing, []⟩).2.calls := by
  by_cases h : ∀ n, failing = some n → n = 0 ∨ (scripts tool charts).length < n
  · have hspares : (⟨failing, []⟩ : Canvas α).Spares (scripts tool charts) := by
      intro n hn
      have := h n hn
      simp
      omega
    rw [run_drawAll_of_spares hspares, calls_record]
    exact .whole h
  · push Not at h
    obtain ⟨n, rfl, hpos, hle⟩ := h
    have hlt : n - 1 < (scripts tool charts).length := by omega
    obtain ⟨before, name, chart, after, pre, p, post, hcharts, hscript, hn⟩ := exists_split hlt
    obtain rfl : n = (scripts tool before).length + pre.length + 1 := by omega
    rw [hcharts, run_drawAll_of_failing hscript (by simp), calls_record, ← hcharts]
    exact .broken hcharts hscript

/-- Each figure that is opened in the course of the charts is closed once. -/
theorem Course.tidy {failing : Option ℕ} {plots : List (String × String)}
    {calls : List (PlotCall α)} (h : Course tool charts failing plots calls) :
    Tidy failing 0 calls := by
  cases h with
  | whole h =>
      rw [← List.append_nil (scripts tool charts)]
      refine tidy_scripts_append (fun n hn => ?_) .nil
      have := h n hn
      omega
  | @broken before after _ _ pre _ p _ hscript =>
      rw [List.append_assoc, ← List.append_nil (scripts tool after)]
      refine tidy_scripts_append (fun n hn => ?_) (tidy_broken_append hscript (by simp)
        (tidy_scripts_append (fun n hn => ?_) .nil))
      · cases hn
        omega
      · cases hn
        simp only [Nat.zero_add, List.length_append, List.length_cons]
        omega

/-- **A chart that fails does no harm to the others.**  If the call of some number fails, and no
other does, then its chart makes no more calls but for the closing of its figure, and all other
charts are drawn as if nothing had happened; the charts that are listed are those of the others
whose curves can be tabulated.  Each figure that is opened is closed once.  If there is no call of
that number, no call fails. -/
theorem draw_course (tool : PlottingTool α) (s : Solution α) (dir : String) (failing : Option ℕ) :
    let r := (s.draw tool dir).run ⟨failing, []⟩
    Course tool (s.charts dir) failing r.1 r.2.calls ∧ Tidy failing 0 r.2.calls := by
  have hdraw : s.draw tool dir = drawAll tool (s.charts dir) := rfl
  have hcourse := course_drawAll tool (s.charts dir) failing
  rw [hdraw]
  exact ⟨hcourse, hcourse.tidy⟩

/-- Without a table of the function itself nothing is drawn, but three figures are opened and
closed. -/
theorem draw_of_error {s : Solution α} {e : SampleError} (dir : String)
    (h : Samples.of tool s.formula s.problem.var s.problem.rangeStart s.problem.rangeEnd resolution =
      .error e) :
    let r := (s.draw tool dir).run ⟨none, []⟩
    r.1 = [] ∧ r.2.calls = [.figure, .close, .figure, .close, .figure, .close] := by
  intro r
  have hspares : (⟨none, []⟩ : Canvas α).Spares (scripts tool (s.charts dir)) := nofun
  have hr : r = (listed tool (s.charts dir), (⟨none, []⟩ : Canvas α).record _) :=
    run_drawAll_of_spares hspares
  rw [hr, calls_record]
  have hchart (name : String) (curves : List (Curve α)) (marks : List (Mark α)) :
      let chart := (s.chartOf dir name (s.curve :: curves) marks).2
      script tool chart = [.figure, .close] ∧ drawable tool chart = false :=
    script_of_error rfl h
  simp only [charts, listed_cons, scripts_cons, hchart]
  exact ⟨rfl, rfl⟩

end Solution

end Fluxion

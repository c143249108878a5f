import Fluxion.Command.Run
import Fluxion.Proofs.Command.Disk
import Fluxion.Proofs.Solution

/-!
# Fluxion.Proofs.Command.Run

How a run of the program ends.

A run answers an exit status, unless it comes to a failure that is not reported in good order.
Everything that a run does apart from solving the problem fails in kinds that are reported
(`Command.Fails`), and so do most failures of solving; what is left are the two failures that are no
mistake of the problem (`SolveError.Unreported`).

* `Command.outcome_solve`: solving a problem, apart from the notes that are logged;
* `Command.fails_produce`: the kinds of failures that a run comes to;
* `Command.run_status`: when a run answers an exit status;
* `Command.run_infinitePower`: a run that does not.
-/

namespace Fluxion

/-- The kinds of failures that are reported in good order. -/
def reportedKinds : List FailureKind :=
  [.lexical, .grouping, .trailingInput, .unexpectedToken, .tooManyVariables, .structural,
    .unknownVariable, .foreignVariable, .degenerate, .rendering, .problem, .article, .value,
    .notFound, .alreadyThere, .notDirectory, .isDirectory, .system, .sameFile]

/-! ## kinds of failures -/

/-- Failures of the disk are reported. -/
theorem Failure.kind_ofDisk (e : DiskError) : (ofDisk e).kind ∈ reportedKinds := by
  cases e <;> simp [ofDisk, reportedKinds]

/-- Failures to load a problem are reported. -/
theorem Failure.kind_ofProblem (file : Option String) (e : ProblemError) :
    (ofProblem file e).kind ∈ reportedKinds := by
  cases e <;> simp [ofProblem, ofInteger, reportedKinds]

/-- Failures of an article are reported. -/
theorem Failure.kind_ofArticle (e : ArticleError) : (ofArticle e).kind ∈ reportedKinds := by
  cases e <;> simp [ofArticle, ofLabels, reportedKinds]

/-- Failures to read a formula are reported. -/
theorem Failure.kind_ofRead (e : ReadError) : (ofRead e).kind ∈ reportedKinds := by
  cases e with
  | grammar g => cases g <;> simp [ofRead, reportedKinds]
  | lexical _ | namesFull _ _ _ => simp [ofRead, reportedKinds]

/-- No failure of a kind that is reported is fatal. -/
theorem Failure.isFatal_eq_false {f : Failure} (h : f.kind ∈ reportedKinds) : f.isFatal = false := by
  have hkinds : ∀ k ∈ reportedKinds, k.isFatal = false := by decide
  exact hkinds f.kind h

/-- The failures to solve a problem that are not reported: a number has no parity because it is
infinite, or the factorial for a Taylor series is too large. -/
inductive SolveError.Unreported : SolveError Float → Prop where
  | parity : Unreported (.calculus (.simplify (.fault .infiniteInteger)))
  | factorial : Unreported (.calculus (.fault .integerTooLarge))

/-- A solution that fails without a report ends the program. -/
theorem SolveError.Unreported.isFatal {e : SolveError Float} (h : e.Unreported) :
    (Failure.ofSolve e).isFatal = true := by
  cases h <;> rfl

/-- It does so for a number that is too large. -/
theorem SolveError.Unreported.kind {e : SolveError Float} (h : e.Unreported) :
    (Failure.ofSolve e).kind = .overflow := by
  cases h <;> rfl

/-- Whatever else solving a problem fails for is reported. -/
theorem SolveError.Explained.reported {finite : Prop} {order : Nat} {e : SolveError Float}
    (h : e.Explained finite order) :
    e.Unreported ∨ (Failure.ofSolve e).kind ∈ reportedKinds := by
  cases e with
  | read e => exact .inr (Failure.kind_ofRead e)
  | foreignVariable _ _ | names _ => exact .inr (by simp [Failure.ofSolve, Failure.ofNames, reportedKinds])
  | calculus e =>
      cases e with
      | unknownVariable _ _ | negativeOrder _ =>
          exact .inr (by simp [Failure.ofSolve, Failure.ofCalculus, reportedKinds])
      | fault f =>
          obtain ⟨rfl, -⟩ := h
          exact .inl .factorial
      | simplify e =>
          cases e with
          | degenerate d =>
              exact .inr (by
                simp [Failure.ofSolve, Failure.ofCalculus, Failure.ofSimplify, reportedKinds])
          | fault f =>
              obtain ⟨rfl | rfl, -⟩ := h
              · exact .inl .parity
              · exact .inr (by
                  simp [Failure.ofSolve, Failure.ofCalculus, Failure.ofSimplify, Failure.ofMath,
                    reportedKinds])

namespace Command

/-! ## steps -/

section

variable {β γ ε : Type}

/-- The result of a piece of work and the session after it. -/
def outcome (w : Running β) (s : Session) : Except Failure β × Session := (ExceptT.run w).run s

/-- A sequence whose first step succeeds goes on from there. -/
theorem outcome_bind_of_ok {w : Running β} {s : Session} {b : β} (h : (outcome w s).1 = .ok b)
    (f : β → Running γ) : outcome (w >>= f) s = outcome (f b) (outcome w s).2 := by
  change ExceptT.bindCont f (outcome w s).1 (outcome w s).2 = _
  rw [h]
  rfl

/-- A sequence fails where its first step does. -/
theorem outcome_bind_of_error {w : Running β} {s : Session} {e : Failure}
    (h : (outcome w s).1 = .error e) (f : β → Running γ) :
    outcome (w >>= f) s = (.error e, (outcome w s).2) := by
  change ExceptT.bindCont f (outcome w s).1 (outcome w s).2 = _
  rw [h]
  rfl

/-- A computation leaves the session as it is. -/
theorem outcome_orFail (failure : ε → Failure) (r : Except ε β) (s : Session) :
    outcome (orFail failure r) s = (r.mapError failure, s) := by
  cases r <;> rfl

/-- A question to the disk leaves the session as it is. -/
theorem outcome_fromDisk (f : Disk → Except DiskError β) (s : Session) :
    outcome (fromDisk f) s = ((f s.disk).mapError .ofDisk, s) := outcome_orFail _ _ s

/-- Notes only go to the log. -/
theorem outcome_logged (debug : Bool) (failure : ε → Failure) (w : Working Float ε β)
    (s : Session) : (outcome (logged debug failure w) s).1 = w.result.mapError failure :=
  congrArg Prod.fst (outcome_orFail failure w.result _)

/-- Work fails in certain kinds only, in whatever session. -/
def Fails (K : List FailureKind) (w : Running β) : Prop :=
  ∀ s f, (outcome w s).1 = .error f → f.kind ∈ K

variable {K : List FailureKind}

theorem fails_pure (b : β) : Fails K (pure b) := nofun

theorem fails_lift (m : StateM Session β) : Fails K (ExceptT.lift m) := nofun

/-- A sequence fails as its steps do. -/
theorem Fails.bind {w : Running β} {f : β → Running γ} (hw : Fails K w) (hf : ∀ b, Fails K (f b)) :
    Fails K (w >>= f) := by
  intro s e he
  cases hr : (outcome w s).1 with
  | ok b =>
      rw [outcome_bind_of_ok hr] at he
      exact hf b _ e he
  | error e' =>
      rw [outcome_bind_of_error hr] at he
      obtain rfl := Except.error.inj he
      exact hw s e' hr

/-- A computation fails as its failures are reported. -/
theorem fails_orFail {failure : ε → Failure} (h : ∀ e, (failure e).kind ∈ K) (r : Except ε β) :
    Fails K (orFail failure r) := by
  intro s f hf
  rw [outcome_orFail] at hf
  cases r with
  | ok b => cases hf
  | error e => exact Except.error.inj hf ▸ h e

theorem fails_get : Fails K (get : Running Session) := nofun

theorem fails_modify (f : Session → Session) : Fails K (modify f : Running Unit) := nofun

/-- A question to the disk fails in ways that are reported. -/
theorem fails_fromDisk (f : Disk → Except DiskError β) : Fails reportedKinds (fromDisk f) :=
  fails_get.bind fun _ => fails_orFail Failure.kind_ofDisk _

/-- A change of the disk fails in ways that are reported. -/
theorem fails_changeDisk (f : Disk → Except DiskError Disk) : Fails reportedKinds (changeDisk f) :=
  (fails_fromDisk f).bind fun _ => fails_modify _

/-- Making directories fails in ways that are reported. -/
theorem fails_makePath (path : String) : Fails reportedKinds (makePath path) := by
  refine fails_get.bind fun s => ?_
  obtain ⟨disk, error⟩ := s.disk.makePath path
  refine (fails_modify _).bind fun _ => ?_
  cases error with
  | none => exact fails_pure ()
  | some e => exact fails_orFail Failure.kind_ofDisk (.error e : Except DiskError Unit)

end

/-! ## from the input file to the article -/

variable {s : Settings} {input : String} {chooser : Chooser}

/-- Solving the problem in a file: the file is read, the problem is loaded and solved. -/
theorem outcome_solve (s : Settings) (input : String) (σ : Session) :
    (outcome (solve s input) σ).1 = (do
      let text ← (σ.disk.read input).mapError .ofDisk
      let problem ← (Problem.load text).mapError (.ofProblem (some input))
      (problem.solve (if s.strict then .strict else .lenient)).result.mapError .ofSolve) := by
  have hread : (outcome (fromDisk (·.read input)) σ).1 = (σ.disk.read input).mapError .ofDisk :=
    congrArg Prod.fst (outcome_fromDisk _ σ)
  cases htext : σ.disk.read input with
  | error e =>
      rw [htext] at hread
      exact congrArg Prod.fst (outcome_bind_of_error hread _)
  | ok text =>
      rw [htext] at hread
      rw [solve, outcome_bind_of_ok hread]
      have hload := fun τ => congrArg Prod.fst (outcome_orFail (.ofProblem (some input))
        (Problem.load text : Except ProblemError (Problem Float)) τ)
      cases hproblem : (Problem.load text : Except ProblemError (Problem Float)) with
      | error e =>
          rw [hproblem] at hload
          rw [outcome_bind_of_error (hload _)]
          simp [Except.mapError, bind, Except.bind, hproblem]
      | ok p =>
          rw [hproblem] at hload
          rw [outcome_bind_of_ok (hload _), outcome_logged]
          simp [Except.mapError, bind, Except.bind, hproblem]

/-- Reading phrases fails in ways that are reported. -/
theorem fails_phrases (file : Option String) : Fails reportedKinds (phrases file) := by
  cases file with
  | none => exact fails_pure []
  | some path => exact (fails_fromDisk _).bind fun _ => fails_pure _

/-- The seed fails in ways that are reported. -/
theorem fails_checkSeed (s : Settings) : Fails reportedKinds (checkSeed s) := by
  have hinteger : ∀ e, (Failure.ofInteger e).kind ∈ reportedKinds := by
    simp [Failure.ofInteger, reportedKinds]
  unfold checkSeed
  split
  · exact (fails_orFail hinteger _).bind fun _ => fails_pure _
  · exact fails_pure _

theorem fails_allPhrases (s : Settings) : Fails reportedKinds (allPhrases s) :=
  (fails_phrases _).bind fun _ => (fails_phrases _).bind fun _ => (fails_phrases _).bind
    fun _ => fails_pure _

/-- A new article fails in ways that are reported. -/
theorem fails_newArticle (s : Settings) (chooser : Chooser) :
    Fails reportedKinds (newArticle s chooser) :=
  (fails_checkSeed s).bind fun _ => (fails_allPhrases s).bind fun _ => fails_pure _

/-- Copying a preamble fails in ways that are reported. -/
theorem fails_copyPreamble (s : Settings) : Fails reportedKinds (copyPreamble s) := by
  unfold copyPreamble
  split
  · exact fails_changeDisk _
  · exact fails_pure _

/-- Writing the article fails in ways that are reported. -/
theorem fails_writeArticle (s : Settings) (text : String) :
    Fails reportedKinds (writeArticle s text) :=
  (fails_makePath s.outdir).bind fun _ => (fails_copyPreamble s).bind fun _ =>
    (fails_changeDisk _).bind fun _ => fails_pure _

/-- Going on without plots does not fail. -/
theorem fails_skipPlots (s : Settings) : Fails reportedKinds (skipPlots s) := by
  unfold skipPlots
  split
  · exact fails_pure _
  · exact fails_lift _

/-- What follows the solution of the problem. -/
theorem fails_publish (s : Settings) (solution : Solution Float) (chooser : Chooser) :
    Fails reportedKinds (publish s solution chooser) :=
  (fails_makePath s.outdir).bind fun _ => (fails_skipPlots s).bind fun _ =>
    (fails_newArticle s chooser).bind fun _ => (fails_orFail Failure.kind_ofArticle _).bind
      fun _ => (fails_writeArticle s _).bind fun _ => (fails_lift _).bind fun _ => fails_pure _

/-- A failure of a run is of a kind that is reported, or it is one to solve the problem. -/
theorem fails_produce {σ : Session} {f : Failure}
    (h : (outcome (produce s input chooser) σ).1 = .error f) :
    f.kind ∈ reportedKinds ∨ ∃ text p e, σ.disk.read input = .ok text ∧ Problem.load text = .ok p ∧
      (p.solve (if s.strict then .strict else .lenient)).result = .error e ∧ e.Unreported ∧
      f = .ofSolve e := by
  cases hr : (outcome (solve s input) σ).1 with
  | ok solution =>
      rw [produce, outcome_bind_of_ok hr] at h
      exact .inl (fails_publish s solution chooser _ f h)
  | error e =>
      rw [produce, outcome_bind_of_error hr] at h
      obtain rfl : e = f := Except.error.inj h
      rw [outcome_solve, bind_eq_error] at hr
      rcases hr with hr | ⟨text, htext, hr⟩
      · obtain ⟨e', -, rfl⟩ := mapError_eq_error.mp hr
        exact .inl (Failure.kind_ofDisk e')
      · rcases bind_eq_error.mp hr with hr | ⟨p, hp, hr⟩
        · obtain ⟨e', -, rfl⟩ := mapError_eq_error.mp hr
          exact .inl (Failure.kind_ofProblem _ e')
        · obtain ⟨e', he', rfl⟩ := mapError_eq_error.mp hr
          have hexplained := (p.ends_solve (if s.strict then .strict else .lenient)).error e' he'
          rcases hexplained.reported with hunreported | hkind
          · exact .inr ⟨text, p, e', mapError_eq_ok.mp htext, mapError_eq_ok.mp hp, he',
              hunreported, rfl⟩
          · exact .inl hkind

/-! ## exit statuses -/

/-- The arguments ask for a run on one file. -/
def Asks (arguments : List String) (s : Settings) (input : String) : Prop :=
  Settings.parse arguments = .ok s ∧ s.help = false ∧ s.version = false ∧ s.inputs = [input]

/-- The arguments ask for a run on one file, and the file describes a problem. -/
def Poses (arguments : List String) (disk : Disk) (p : Problem Float) (s : Strictness) : Prop :=
  ∃ settings input text, Settings.parse arguments = .ok settings ∧ settings.help = false ∧
    settings.version = false ∧ settings.inputs = [input] ∧ disk.read input = .ok text ∧
    Problem.load text = .ok p ∧ s = if settings.strict then .strict else .lenient

/-- What is answered when the article is written, or has failed to be. -/
def answer (s : Settings) : Except Failure String → StateM Session (Except Failure Nat)
  | .error f => do
    if f.isFatal then return .error f
    complain f.line
    return .ok 1
  | .ok path => do
    say path
    if s.noPdf then return .ok 0
    log s.debug [.noTypesetter typesetter]
    return .ok 1

/-- Notes go to the messages. -/
theorem run_log (debug : Bool) (notes : List (Note Float)) (σ : Session) :
    ∃ err, (log debug notes).run σ = ((), { σ with err }) := by
  induction notes generalizing σ with
  | nil => exact ⟨σ.err, rfl⟩
  | cons n notes ih =>
      have hcons : log debug (n :: notes) =
          (if debug || n.level.isUrgent then complain n.line else pure ()) >>= fun _ =>
            log debug notes := rfl
      rw [hcons, StateT.run_bind]
      split
      · exact ih _
      · exact ih _

/-- A failure is answered by a message at most. -/
theorem answer_error (s : Settings) (f : Failure) (σ : Session) :
    (answer s (.error f)).run σ =
      if f.isFatal then (.error f, σ)
      else (.ok 1, { σ with err := σ.err ++ f.line ++ "\n" }) := by
  cases h : f.isFatal <;> simp only [answer, h] <;> rfl

/-- The path of an article is answered by a line of results. -/
theorem answer_ok (s : Settings) (path : String) (σ : Session) :
    ∃ err, (answer s (.ok path)).run σ =
      (.ok (if s.noPdf then 0 else 1), { σ with out := σ.out ++ path ++ "\n", err }) := by
  cases h : s.noPdf with
  | true =>
      refine ⟨σ.err, ?_⟩
      simp only [answer, h]
      rfl
  | false =>
      obtain ⟨err, hlog⟩ := run_log s.debug [.noTypesetter typesetter]
        { σ with out := σ.out ++ path ++ "\n" }
      have hanswer : (answer s (.ok path)).run σ = (do
          log s.debug [.noTypesetter typesetter]
          return .ok 1 : StateM Session (Except Failure Nat)).run
            { σ with out := σ.out ++ path ++ "\n" } := by
        simp only [answer, h]
        rfl
      rw [hanswer, StateT.run_bind, hlog]
      exact ⟨err, rfl⟩

/-- The work ends with an answer to what was produced. -/
theorem work_eq (s : Settings) (input : String) (chooser : Chooser) (σ : Session) :
    (work s input chooser).run σ =
      (answer s (outcome (produce s input chooser) σ).1).run
        (outcome (produce s input chooser) σ).2 := rfl

/-- Work on a file ends in an exit status, unless it fails in a way that is not reported. -/
theorem status_work (s : Settings) (input : String) (chooser : Chooser) (σ : Session)
    (f : Failure) :
    ((work s input chooser).run σ).1 = .error f ↔
      (outcome (produce s input chooser) σ).1 = .error f ∧ f.isFatal = true := by
  rw [work_eq]
  cases (outcome (produce s input chooser) σ).1 with
  | ok path =>
      obtain ⟨err, hanswer⟩ := answer_ok s path (outcome (produce s input chooser) σ).2
      rw [hanswer]
      exact ⟨nofun, fun h => nomatch h.1⟩
  | error e =>
      rw [answer_error]
      cases he : e.isFatal with
      | true =>
          rw [if_pos rfl]
          constructor
          · intro h
            obtain rfl := Except.error.inj h
            exact ⟨rfl, he⟩
          · exact fun h => congrArg Except.error (Except.error.inj h.1)
      | false =>
          refine ⟨nofun, fun h => ?_⟩
          rw [Except.error.inj h.1, h.2] at he
          cases he

/-- Work on a file ends in status 0 or 1, if in any. -/
theorem le_of_work {σ : Session} {n : Nat} (h : ((work s input chooser).run σ).1 = .ok n) :
    n ≤ 1 := by
  rw [work_eq] at h
  cases hr : (outcome (produce s input chooser) σ).1 with
  | ok path =>
      obtain ⟨err, hanswer⟩ := answer_ok s path (outcome (produce s input chooser) σ).2
      rw [hr, hanswer] at h
      obtain rfl := Except.ok.inj h
      split <;> decide
  | error e =>
      rw [hr, answer_error] at h
      split at h
      · cases h
      · exact (Except.ok.inj h).symm.le

section

variable {arguments : List String} {disk : Disk} {settings : Settings}

/-- A run on one file is the work on that file. -/
theorem run_of_asks (h : Asks arguments settings input) :
    run arguments disk chooser = (work settings input chooser).run ⟨disk, "", ""⟩ := by
  obtain ⟨hparse, hhelp, hversion, hinputs⟩ := h
  rw [run, dispatch, hparse]
  dsimp only
  rw [hhelp, hversion, hinputs]
  rfl

/-- A run that is not one on a file ends in status 0 or 2, and leaves the disk as it is. -/
def Declines (r : Except Failure Nat × Session) (disk : Disk) : Prop :=
  (r.1 = .ok 0 ∨ r.1 = .ok 2) ∧ r.2.disk = disk

/-- Either a run declines to work, or it is one on a file. -/
theorem run_cases (arguments : List String) (disk : Disk) (chooser : Chooser) :
    Declines (run arguments disk chooser) disk ∨ ∃ settings input, Asks arguments settings input := by
  rw [run, dispatch]
  cases hparse : Settings.parse arguments with
  | error e => exact .inl ⟨.inr rfl, rfl⟩
  | ok s =>
      dsimp only
      cases hhelp : s.help with
      | true => exact .inl ⟨.inl rfl, rfl⟩
      | false =>
          cases hversion : s.version with
          | true => exact .inl ⟨.inl rfl, rfl⟩
          | false =>
              match hinputs : s.inputs with
              | [input] => exact .inr ⟨s, input, hparse, hhelp, hversion, hinputs⟩
              | [] | _ :: _ :: _ => exact .inl ⟨.inr rfl, rfl⟩

end

/-- **How a run ends.**  Whatever phrases are chosen, a run answers exit status 0, 1 or 2, except
that its arguments may ask for a problem whose solution fails in one of two ways: a number has no
parity because it is infinite, or the factorial for a Taylor series is too large.  The first takes a
number in the problem that is not finite, the second an order of the series above `maxFactorial`.
All other failures, wherever they come from, are of kinds that are reported. -/
theorem run_status (arguments : List String) (disk : Disk) (chooser : Chooser) :
    (∀ n, (run arguments disk chooser).1 = .ok n → n ≤ 2) ∧
    (∀ f, (run arguments disk chooser).1 = .error f ↔ ∃ p s e, Poses arguments disk p s ∧
      (p.solve s).result = .error e ∧ e.Unreported ∧ f = .ofSolve e) ∧
    (∀ (p : Problem Float) s,
      ((p.solve s).result = .error (.calculus (.simplify (.fault .infiniteInteger))) →
        ¬p.Finite) ∧
      ((p.solve s).result = .error (.calculus (.fault .integerTooLarge)) →
        maxFactorial < p.seriesOrder)) ∧
    (∀ s input σ f, (outcome (produce s input chooser) σ).1 = .error f →
      f.kind ∈ reportedKinds ∨ f.kind = .overflow) := by
  refine ⟨fun n hn => ?_, fun f => ?_, fun p s => ⟨fun h => ?_, fun h => ?_⟩, fun s input σ f h => ?_⟩
  · rcases run_cases arguments disk chooser with ⟨hr | hr, -⟩ | ⟨s, input, h⟩
    · obtain rfl := Except.ok.inj (hn.symm.trans hr)
      decide
    · obtain rfl := Except.ok.inj (hn.symm.trans hr)
      decide
    · rw [run_of_asks h] at hn
      exact (le_of_work hn).trans (by decide)
  · constructor
    · intro hf
      rcases run_cases arguments disk chooser with ⟨hr | hr, -⟩ | ⟨s, input, h⟩
      · exact nomatch hf.symm.trans hr
      · exact nomatch hf.symm.trans hr
      · rw [run_of_asks h, status_work] at hf
        obtain ⟨hparse, hhelp, hversion, hinputs⟩ := h
        obtain ⟨hf, hfatal⟩ := hf
        rcases fails_produce hf with hkind | ⟨text, p, e, htext, hp, he, hunreported, rfl⟩
        · rw [Failure.isFatal_eq_false hkind] at hfatal
          cases hfatal
        · exact ⟨p, _, e, ⟨s, input, text, hparse, hhelp, hversion, hinputs, htext, hp, rfl⟩, he,
            hunreported, rfl⟩
    · rintro ⟨p, _, e, ⟨s, input, text, hparse, hhelp, hversion, hinputs, htext, hp, rfl⟩, he,
        hunreported, rfl⟩
      rw [run_of_asks ⟨hparse, hhelp, hversion, hinputs⟩, status_work]
      have hsolve : (outcome (solve s input) ⟨disk, "", ""⟩).1 = .error (.ofSolve e) := by
        rw [outcome_solve, bind_eq_error]
        refine .inr ⟨text, mapError_eq_ok.mpr htext, bind_eq_error.mpr (.inr ⟨p, ?_⟩)⟩
        exact ⟨mapError_eq_ok.mpr hp, mapError_eq_error.mpr ⟨e, he, rfl⟩⟩
      refine ⟨?_, hunreported.isFatal⟩
      rw [produce, outcome_bind_of_error hsolve]
  · exact ((p.ends_solve s).error _ h).2
  · exact ((p.ends_solve s).error _ h).2
  · rcases fails_produce h with hkind | ⟨_, _, e, _, _, _, hunreported, rfl⟩
    · exact .inl hkind
    · exact .inr hunreported.kind

/-! ## a run that does not end in good order -/

/-- A problem whose function is the logarithm of a power with an infinite exponent. -/
def infinitePowerText : String :=
  "$f(x) = \\ln (-x)^\x7b1e400\x7d$\nTaylor series at 1 to $x^2$\nTangent at $x=1$\n" ++
    "Plot in range [-2, 2]\n"

/-- Its file. -/
def infinitePowerDisk : Disk := ⟨["home"], [(["home", "p"], .file infinitePowerText)]⟩

/-- The function of that problem. -/
def infinitePower : Expr Float :=
  .app .ln (.bin .pow (.neg (.var "x")) (.num (Arith.ofDecimal 1 400)))

/-- The symbols of a power with an infinite exponent. -/
theorem lexes_infinitePowerText :
    Lexer.Lexes "\\ln (-x)^\x7b1e400\x7d".toList infinitePower.spelling := by
  have hpower := Formula.lexes_infinitePower.afterBlank ⟨'(', _, rfl, by decide⟩
  exact Lexer.lexes_function .ln (.inl rfl) hpower

/-- The simplification of its derivative fails. -/
theorem solve_infinitePower {p : Problem Float} (hvar : p.var = "x")
    (hfunction : p.function = "\\ln (-x)^\x7b1e400\x7d") :
    (p.solve .lenient).result =
      .error (.calculus (.simplify (.fault .infiniteInteger))) := by
  obtain ⟨f, hf, hroot, hvars⟩ := Formula.read_of_spelling lexes_infinitePowerText (by decide)
  have hx : "x" ∈ f.vars := by
    rw [← List.mem_toFinset, hvars]
    decide
  rw [← hfunction] at hf
  rw [← hvar] at hx
  have hderivative : f.differentiate p.var = .ok (f.withRoot (f.root.derivative p.var)) := by
    rw [Formula.differentiate, Formula.requireVar, if_pos (List.contains_iff_mem.mpr hx)]
    rfl
  have hfault : ((f.withRoot (f.root.derivative p.var)).simplified .lenient).result =
      .error (.simplify (.fault .infiniteInteger)) := by
    refine mapError_eq_error.mpr ⟨_, Formula.simplify_eq_error.mpr ?_, rfl⟩
    rw [hroot, hvar]
    rfl
  have hlift : (.lift ((f.differentiate p.var).mapError .calculus) :
      Working Float (SolveError Float) (Formula Float)).result = .ok _ :=
    mapError_eq_ok.mpr hderivative
  rw [Problem.solve, Noted.bind_result_of_ok (p.formula_of_read hf hx), Noted.bind_result_of_ok rfl,
    Noted.bind_result_of_ok hlift]
  exact Noted.bind_result_of_error (mapError_eq_error.mpr ⟨_, hfault, rfl⟩) _

/-- The input file is there. -/
theorem read_infinitePowerDisk : infinitePowerDisk.read "p" = .ok infinitePowerText :=
  Disk.read_of_file (l := ["home", "p"]) (by cbv) (by decide +kernel) (by decide +kernel)

/-- The text is that of a problem. -/
theorem load_infinitePowerText : ∃ p : Problem Float, Problem.load infinitePowerText = .ok p ∧
    p.var = "x" ∧ p.function = "\\ln (-x)^\x7b1e400\x7d" := by
  have h : (Problem.load infinitePowerText : Except ProblemError (Problem Float)).toOption.any
      (fun p => p.var == "x" && p.function == "\\ln (-x)^\x7b1e400\x7d") = true := by
    decide +kernel
  obtain ⟨p, hp, htest⟩ := exists_ok_of_any h
  rw [Bool.and_eq_true, beq_iff_eq, beq_iff_eq] at htest
  exact ⟨p, hp, htest⟩

/-- A run on that file ends in a failure that is not reported. -/
theorem run_infinitePower :
    (run ["--noplot", "--nopdf", "p"] infinitePowerDisk).1 =
      .error ⟨.overflow, "cannot convert float infinity to integer"⟩ := by
  have hparse : (Settings.parse ["--noplot", "--nopdf", "p"]).toOption.any (fun s =>
      !s.help && !s.version && !s.strict && s.inputs == ["p"]) = true := by decide +kernel
  obtain ⟨s, hs, htest⟩ := exists_ok_of_any hparse
  simp only [Bool.and_eq_true, Bool.not_eq_true', beq_iff_eq] at htest
  obtain ⟨⟨⟨hhelp, hversion⟩, hstrict⟩, hinputs⟩ := htest
  obtain ⟨p, hp, hvar, hfunction⟩ := load_infinitePowerText
  rw [run_of_asks ⟨hs, hhelp, hversion, hinputs⟩, status_work]
  refine ⟨?_, rfl⟩
  rw [produce, outcome_bind_of_error]
  rw [outcome_solve, hstrict, bind_eq_error]
  refine .inr ⟨_, mapError_eq_ok.mpr read_infinitePowerDisk, bind_eq_error.mpr (.inr ⟨p, ?_⟩)⟩
  exact ⟨mapError_eq_ok.mpr hp,
    mapError_eq_error.mpr ⟨_, solve_infinitePower hvar hfunction, rfl⟩⟩

end Command

end Fluxion

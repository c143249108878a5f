import Fluxion.Proofs.Article.Calls

/-!
# Fluxion.Proofs.Article.Refusal

What a failed call on an article leaves behind.

A call fails at another stage than its own, or for an expression that needs more labels than there
are.  The stage is looked at before anything is written, and an expression is rendered before its
formula is, so such failures leave the article as it was.  Only the phrase that leads to a narrated
formula is written before the formula turns out not to be rendered.

* `Article.Refused`: how calls fail, and what is left of the article;
* `Article.refused_iff`: calls fail in no other way.
-/

namespace Fluxion.Article

variable {a a' : Article} {c : Call} {err : ArticleError}

/-- The stages at which a call may be made. -/
def Call.stages : Call → List Stage
  | title _ _ => [.new]
  | start => [.new, .titled]
  | finish | abstract _ | heading _ | paragraph _ | starter | transition | placeholder
  | formula _ _ | narratedFormula _ _ | image _ _ => [.started]

/-- The phrase that a starter writes next. -/
def nextStarter (a : Article) : String :=
  if a.phrases.starters.isEmpty then defaultStarter else a.chooser a.chosen a.phrases.starters

/-- An article with a starter at its end. -/
def withStarter (a : Article) : Article :=
  { a with
    chosen := if a.phrases.starters.isEmpty then a.chosen else a.chosen + 1
    text := a.text ++ ("\n" ++ a.nextStarter ++ "\n") }

/-- How a call fails: the call, the error, and the article that is left. -/
inductive Refused (a : Article) : Call → ArticleError → Article → Prop
  | stage {c : Call} : a.stage ∉ c.stages → Refused a c (.wrongStage a.stage) a
  | formula {e : Expr Float} {lhs : String} {err : LabelsExhausted} : a.stage = .started →
      e.outline = .error err → Refused a (.formula e lhs) (.labels err) a
  | narratedFormula {e : Expr Float} {lhs : String} {err : LabelsExhausted} : a.stage = .started →
      e.outline = .error err → Refused a (.narratedFormula e lhs) (.labels err) a.withStarter

/-! ## stages -/

/-- At another stage than its own a call does nothing. -/
theorem exec_writing_of_notMem (h : a.stage ∉ c.stages) :
    exec c.writing a = (.error (.wrongStage a.stage), a) := by
  cases c with
  | narratedFormula e lhs =>
      have hstarter : exec starter a = (.error (.wrongStage a.stage), a) :=
        exec_require_bind_of_notMem h _
      rw [Call.writing, Article.narratedFormula, exec_bind_of_error hstarter]
  | title | start | finish | abstract | heading | paragraph | starter | transition | placeholder
  | formula | image => exact exec_require_bind_of_notMem h _

theorem Writes.ok {call : Writing Unit} {P : String → Prop} (h : Writes call a P) :
    (exec call a).1 = .ok ⟨⟩ := by
  obtain ⟨s, a', hexec, -⟩ := h
  rw [hexec]

/-- At its stage a step of the frame is taken. -/
theorem exec_frame {stages : List Stage} (h : a.stage ∈ stages) (s : String) (next : Stage) :
    (exec (do require stages; append s; enter next) a).1 = .ok ⟨⟩ := by
  rw [exec_require_bind h]
  rfl

/-! ## formulas -/

theorem exec_starter (h : a.stage = .started) : exec starter a = (.ok ⟨⟩, a.withStarter) := by
  rw [starter, exec_require_bind (by simp [h]), exec_bind_of_ok exec_get, choose, withStarter,
    nextStarter]
  split <;> rfl

section Formulas

variable {e : Expr Float} (lhs : String)

/-- An expression that cannot be rendered is not written. -/
theorem exec_formula_of_error {l : LabelsExhausted} (h : a.stage = .started)
    (he : e.outline = .error l) : exec (formula e lhs) a = (.error (.labels l), a) := by
  rw [formula, exec_require_bind (by simp [h]), he]
  rfl

theorem exec_formula_of_ok {o : Outline Float} (h : a.stage = .started) (he : e.outline = .ok o) :
    Writes (formula e lhs) a (· = equation lhs o.root.tex ++ whereList o.definitions) := by
  rw [formula, he]
  exact writes_append h _

/-- A narrated expression that cannot be rendered has its starter all the same. -/
theorem exec_narratedFormula_of_error {l : LabelsExhausted} (h : a.stage = .started)
    (he : e.outline = .error l) :
    exec (narratedFormula e lhs) a = (.error (.labels l), a.withStarter) := by
  have hstarted : a.withStarter.stage = .started := h
  rw [narratedFormula, exec_bind_of_ok (exec_starter h),
    exec_bind_of_error (exec_formula_of_error lhs hstarted he)]

theorem exec_narratedFormula_of_ok {o : Outline Float} (h : a.stage = .started)
    (he : e.outline = .ok o) : (exec (narratedFormula e lhs) a).1 = .ok ⟨⟩ := by
  have h₁ : a.withStarter.stage = .started := h
  obtain ⟨s₂, a₂, hformula, hadds₂, -⟩ := exec_formula_of_ok lhs h₁ he
  have h₂ : a₂.stage = .started := hadds₂.stage_eq.trans h₁
  obtain ⟨s₃, a₃, htransition, hadds₃, -⟩ := writes_transition h₂
  have h₃ : a₃.stage = .started := hadds₃.stage_eq.trans h₂
  rw [narratedFormula, exec_bind_of_ok (exec_starter h), exec_bind_of_ok hformula,
    exec_bind_of_ok htransition]
  exact (writes_placeholder h₃).ok

end Formulas

/-! ## failures -/

/-- At its own stage only a formula can fail. -/
theorem refused_of_mem (h : a.stage ∈ c.stages) (hexec : exec c.writing a = (.error err, a')) :
    Refused a c err a' := by
  have hok (hok : (exec c.writing a).1 = .ok ⟨⟩) : Refused a c err a' := by
    rw [hexec] at hok
    cases hok
  cases c with
  | title | start | finish => exact hok (exec_frame h _ _)
  | abstract | heading | paragraph | image =>
      exact hok (writes_append (List.mem_singleton.mp h) _).ok
  | starter => exact hok (writes_starter (List.mem_singleton.mp h)).ok
  | transition => exact hok (writes_transition (List.mem_singleton.mp h)).ok
  | placeholder => exact hok (writes_placeholder (List.mem_singleton.mp h)).ok
  | formula e lhs =>
      have hstarted := List.mem_singleton.mp h
      cases he : e.outline with
      | ok o => exact hok (exec_formula_of_ok lhs hstarted he).ok
      | error l =>
          rw [Call.writing, exec_formula_of_error lhs hstarted he] at hexec
          cases hexec
          exact .formula hstarted he
  | narratedFormula e lhs =>
      have hstarted := List.mem_singleton.mp h
      cases he : e.outline with
      | ok o => exact hok (exec_narratedFormula_of_ok lhs hstarted he)
      | error l =>
          rw [Call.writing, exec_narratedFormula_of_error lhs hstarted he] at hexec
          cases hexec
          exact .narratedFormula hstarted he

/-- **What a failed call leaves behind.**  A call on an article fails exactly if it is made at
another stage than its own, or asks for a formula of an expression that needs more labels than there
are.  The article is then as it was, except that a narrated formula leaves its starter. -/
theorem refused_iff (a : Article) (c : Call) (err : ArticleError) (a' : Article) :
    exec c.writing a = (.error err, a') ↔ Refused a c err a' := by
  constructor
  · intro hexec
    by_cases h : a.stage ∈ c.stages
    · exact refused_of_mem h hexec
    · rw [exec_writing_of_notMem h] at hexec
      cases hexec
      exact .stage h
  · intro hrefused
    cases hrefused with
    | stage h => exact exec_writing_of_notMem h
    | formula h he => exact exec_formula_of_error _ h he
    | narratedFormula h he => exact exec_narratedFormula_of_error _ h he

/-- A sum of that many terms. -/
def longSum : ℕ → Expr Float
  | 0 => .var "x"
  | n + 1 => .bin .add (longSum n) (.var "x")

/-- A narrated formula that fails leaves a line in the article. -/
theorem starter_left :
    let a := (empty ⟨[], [], []⟩ .first false).after [.start]
    let c := Call.narratedFormula (longSum 325) ""
    (exec c.writing a).1 = .error (.labels ⟨⟩) ∧
      (a.perform c).text = a.text ++ "\nNow look at this:\n" := by
  have houtline : (longSum 325).outline.toOption.isNone = true := by decide +kernel
  intro a c
  have hstarted : a.stage = .started := by decide
  cases he : (longSum 325).outline with
  | ok o =>
      rw [he] at houtline
      cases houtline
  | error l =>
      rw [perform, Call.writing, exec_narratedFormula_of_error _ hstarted he]
      exact ⟨rfl, rfl⟩

end Fluxion.Article

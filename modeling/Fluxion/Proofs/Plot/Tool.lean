import Fluxion.Plot.Tool
import Fluxion.Proofs.Except
import Fluxion.Proofs.Formula.Labels
import Fluxion.Proofs.Infix.Transcript
import Fluxion.Proofs.Number.Literal

/-!
# Fluxion.Proofs.Plot.Tool

What plotting tools make of infix text.

A tool is literal if it evaluates what it reads as it stands.  Values with names left in them agree
with those of expressions: where such a value is a number, the expression has it, and elsewhere the
expression has none.  What is read of an expression's infix text has the same values as the
expression, errors included, where its numbers are written in full and its names keep apart.

* `Expr.toOption_evaluate`: values by values with names left in them;
* `Expr.of_evaluateOpen_other`: where there are errors that are not of arithmetic;
* `Infix.evaluateOpen_transcript`: an expression and what is read of it.
-/

namespace Fluxion

open Binary64 Numeral

/-! ## literal tools -/

namespace PlottingTool

variable {α : Type} [Arith α]

/-- The tool evaluates what it reads as it stands, if it knows the names in a text and takes none of
them for something else. -/
def IsLiteral (tool : PlottingTool α) : Prop :=
  ∀ (names : List String) (text x : String) (e : Infix), Infix.read text = some e →
    e.names ⊆ names → x ∈ names → (∀ y ∈ names, y ∉ Infix.reserved ∧ y ∉ tool.keywords) →
    tool.curve names text x = .ok fun v => e.toExpr.evaluateOpen (.single x v)

theorem isLiteral_literal : (literal : PlottingTool α).IsLiteral := by
  intro names text x e hread hknown _ hfree
  have hwords : ¬e.names.any reservedWords.contains = true := by
    rw [List.any_eq_true]
    rintro ⟨y, hy, hword⟩
    exact (hfree y (hknown hy)).2 (List.contains_iff_mem.mp hword)
  simp only [literal, hread, if_neg hwords]

end PlottingTool

/-! ## values -/

theorem toOption_bind {ε α β : Type} (r : Except ε α) (f : α → Except ε β) :
    (r >>= f).toOption = r.toOption.bind fun a => (f a).toOption := by
  cases r <;> rfl

theorem toOption_mapError {ε δ α : Type} (r : Except ε α) (f : ε → δ) :
    (r.mapError f).toOption = r.toOption := by
  cases r <;> rfl

section

variable {α : Type} [Arith α]

/-- An operation on numbers, and on what is none. -/
theorem BinOp.join_toOption_computeOpen (op : BinOp) (v w : Option α) :
    (op.computeOpen v w).toOption.join =
      v.bind fun v => w.bind fun w => (op.compute v w).toOption := by
  cases v <;> cases w
  case some.some v w =>
      rw [computeOpen, toOption_mapError, Option.bind_some, Option.bind_some]
      cases op.compute v w <;> rfl
  all_goals rfl

theorem Fn.join_toOption_computeOpen (f : Fn) (v : Option α) :
    (f.computeOpen v).toOption.join = v.bind fun v => (Arith.apply f v).toOption := by
  cases v with
  | none => rfl
  | some v =>
      rw [computeOpen, toOption_mapError, Option.bind_some]
      cases Arith.apply f v <;> rfl

/-- An operation has no errors but those of arithmetic. -/
theorem BinOp.computeOpen_ne_other (op : BinOp) (v w : Option α) (k : ToolError) :
    op.computeOpen v w ≠ .error (.other k) := by
  intro h
  cases v <;> cases w
  case some.some v w =>
      obtain ⟨f, -, hf⟩ := mapError_eq_error.mp h
      exact nomatch hf
  all_goals exact nomatch h

/-- A function has one error that is not of arithmetic. -/
theorem Fn.eq_notANumber_of_computeOpen (f : Fn) {v : Option α} {k : ToolError}
    (h : f.computeOpen v = .error (.other k)) : k = .notANumber := by
  cases v with
  | none =>
      cases h
      rfl
  | some v =>
      obtain ⟨fault, -, hfault⟩ := mapError_eq_error.mp h
      exact nomatch hfault

omit [Arith α] in
/-- The number that comes of two steps, if each gives a number. -/
theorem join_toOption_bind {r : Except CurveError (Option α)}
    {f : Option α → Except CurveError (Option α)} (h : (f none).toOption.join = none) :
    (r >>= f).toOption.join = r.toOption.join.bind fun v => (f (some v)).toOption.join := by
  cases r with
  | error e => rfl
  | ok v =>
      cases v with
      | none => exact h
      | some v => rfl

namespace Expr

variable (env : Assignment α)

/-- An expression has a value where its open value is a number, and has that number. -/
theorem toOption_evaluate (e : Expr α) :
    (e.evaluate env).toOption = (e.evaluateOpen env).toOption.join := by
  induction e with
  | num v => rfl
  | var x =>
      rw [evaluate, evaluateOpen]
      cases env x <;> rfl
  | bin op a b iha ihb =>
      have hnone :
          ((b.evaluateOpen env) >>= fun w => op.computeOpen none w).toOption.join = none := by
        cases b.evaluateOpen env <;> rfl
      rw [evaluateOpen, join_toOption_bind hnone, ← iha, evaluate, toOption_bind]
      congr 1
      funext v
      rw [join_toOption_bind rfl, ← ihb, toOption_bind]
      congr 1
      funext w
      rw [op.join_toOption_computeOpen, toOption_mapError, Option.bind_some, Option.bind_some]
  | neg a ih =>
      rw [evaluateOpen, join_toOption_bind rfl, ← ih, evaluate, toOption_bind]
      rfl
  | app f a ih =>
      rw [evaluateOpen, join_toOption_bind rfl, ← ih, evaluate, toOption_bind]
      congr 1
      funext v
      rw [f.join_toOption_computeOpen, toOption_mapError, Option.bind_some]

/-! ## errors that are not of arithmetic -/

/-- Under functions there is no name but this one. -/
def FunctionsOf (x : String) : Expr α → Prop
  | num _ | var _ => True
  | bin _ a b => a.FunctionsOf x ∧ b.FunctionsOf x
  | neg a => a.FunctionsOf x
  | app _ a => ∀ y ∈ a.names, y = x

/-- The value is a number, or there is an error of arithmetic. -/
def Closed : Except CurveError (Option α) → Prop
  | .ok v => v.isSome = true
  | .error e => ∃ f, e = .fault f

variable {env} {r : Except CurveError (Option α)} {e : Expr α} {x : String}

omit [Arith α] in
theorem Closed.bind {f : Option α → Except CurveError (Option α)} (hr : Closed r)
    (hf : ∀ v, Closed (f (some v))) : Closed (r >>= f) := by
  cases r with
  | error e => exact hr
  | ok v =>
      obtain ⟨v, rfl⟩ := Option.isSome_iff_exists.mp hr
      exact hf v

omit [Arith α] in
theorem closed_mapError (r : Except MathFault α) :
    Closed ((r.map some).mapError CurveError.fault) := by
  cases r with
  | ok v => rfl
  | error f => exact ⟨f, rfl⟩

/-- No name is left in the value of an expression whose names have values. -/
theorem closed_evaluateOpen (h : ∀ y ∈ e.names, (env y).isSome = true) :
    Closed (e.evaluateOpen env) := by
  induction e with
  | num v => rfl
  | var y => exact h y (List.mem_singleton_self y)
  | bin op a b iha ihb =>
      exact (iha fun y hy => h y (List.mem_append_left _ hy)).bind fun v =>
        (ihb fun y hy => h y (List.mem_append_right _ hy)).bind fun w => closed_mapError _
  | neg a ih => exact (ih h).bind fun v => rfl
  | app f a ih => exact (ih h).bind fun v => closed_mapError _

/-- An error that is not of arithmetic is that of a function of what is no number, and there is such
a function only where other names than the variable's stand under one. -/
theorem of_evaluateOpen_other {u : α} {k : ToolError}
    (h : e.evaluateOpen (.single x u) = .error (.other k)) :
    k = .notANumber ∧ ¬e.FunctionsOf x := by
  induction e with
  | num v => exact nomatch h
  | var y => exact nomatch h
  | bin op a b iha ihb =>
      obtain ha | ⟨v, -, h⟩ := bind_eq_error.mp h
      · obtain ⟨hk, hnot⟩ := iha ha
        exact ⟨hk, fun hboth => hnot hboth.1⟩
      · obtain hb | ⟨w, -, h⟩ := bind_eq_error.mp h
        · obtain ⟨hk, hnot⟩ := ihb hb
          exact ⟨hk, fun hboth => hnot hboth.2⟩
        · exact absurd h (op.computeOpen_ne_other v w k)
  | neg a ih =>
      obtain ha | ⟨v, -, h⟩ := bind_eq_error.mp h
      · exact ih ha
      · exact nomatch h
  | app f a ih =>
      constructor
      · obtain ha | ⟨v, -, h⟩ := bind_eq_error.mp h
        · exact (ih ha).1
        · exact f.eq_notANumber_of_computeOpen h
      · intro hnames
        have hclosed : Closed ((app f a).evaluateOpen (.single x u)) :=
          closed_evaluateOpen fun y hy => by
            rw [Assignment.single, if_pos (hnames y hy)]
            rfl
        rw [h] at hclosed
        obtain ⟨f, hf⟩ := hclosed
        exact nomatch hf

end Expr

end

/-! ## numbers that are written in full -/

namespace Numeral

variable {v : Float}

/-- Infinity is not written as a numeral. -/
theorem finite_of_reread_eq (hs : SignClear v) (h : reread v = v) : Arith.finite v = true := by
  by_contra hv
  have hfinite : v.isFinite = false := Bool.eq_false_iff.mpr hv
  have hnan : v.isNaN = false := by
    have hparts := parts_ofDecimal_ne_notANumber (Text.readNumber (plain v).toList).1
      (Text.readNumber (plain v).toList).2
    change parts (reread v) ≠ _ at hparts
    rw [h] at hparts
    change (parts v).isNaN = false
    cases hv' : parts v with
    | notANumber => exact absurd hv' hparts
    | zero | finite | infinity => rfl
  have htwelve : twelve v = "inf" := by
    change Layout.write _ v = _
    rw [Layout.write, hnan, if_neg Bool.false_ne_true, Magnitude.ofFloat?, hfinite,
      if_neg Bool.false_ne_true, isSigned_eq_false hs]
    rfl
  have hplain : plain v = "inf" := by
    rw [plain, htwelve]
    rfl
  have hzero : reread v = 0 := by
    rw [reread, hplain]
    decide +kernel
  rw [← h, hzero] at hv
  exact hv finite_zero

/-- A number that is written in full is the number nearest to its decimal. -/
theorem ofDecimal_decimal (hs : SignClear v) (hv : Arith.finite v = true) (h : reread v = v) :
    Arith.ofDecimal (decimal v).1 (decimal v).2 = v := by
  obtain ⟨w, -, htext, hdecimal, -⟩ := exists_decimal hv
  rw [signText, if_pos ((nonneg_iff hv).mpr (value_nonneg hv hs)), List.nil_append] at htext
  rw [hdecimal, ← htext]
  exact h

end Numeral

/-! ## functions that plotting tools lack -/

namespace Expr

/-- An expression with inverse cosines as complements of inverse sines to a right angle. -/
def withoutArccos : Expr Float → Expr Float
  | num v => num v
  | var x => var x
  | bin op a b => bin op a.withoutArccos b.withoutArccos
  | neg a => neg a.withoutArccos
  | app .arccos a => bin .sub (num (Binary64.pi / 2)) (app .arcsin a.withoutArccos)
  | app f a => app f a.withoutArccos

theorem withoutArccos_app {f : Fn} (hf : f ≠ .arccos) (a : Expr Float) :
    (app f a).withoutArccos = app f a.withoutArccos := by
  cases f with
  | arccos => exact absurd rfl hf
  | sin | cos | tan | cot | arcsin | arctan | arccot | sqrt | ln => rfl

/-- The names stay. -/
theorem names_withoutArccos (e : Expr Float) : e.withoutArccos.names = e.names := by
  induction e with
  | num v => rfl
  | var x => rfl
  | bin op a b iha ihb => rw [withoutArccos, names, iha, ihb, names]
  | neg a ih => exact ih
  | app f a ih =>
      by_cases hf : f = .arccos
      · subst hf
        exact ih
      · rw [withoutArccos_app hf]
        exact ih

/-- The names under functions stay. -/
theorem functionsOf_withoutArccos {x : String} {e : Expr Float} (h : e.FunctionsOf x) :
    e.withoutArccos.FunctionsOf x := by
  induction e with
  | num v => trivial
  | var y => trivial
  | bin op a b iha ihb => exact ⟨iha h.1, ihb h.2⟩
  | neg a ih => exact ih h
  | app f a ih =>
      by_cases hf : f = .arccos
      · subst hf
        refine ⟨trivial, fun y hy => h y ?_⟩
        rwa [names_withoutArccos] at hy
      · rw [withoutArccos_app hf]
        intro y hy
        rw [names_withoutArccos] at hy
        exact h y hy

end Expr

namespace Infix

variable {e : Expr Float} {env : Assignment Float}

theorem ofDecimal_one : (Arith.ofDecimal 1 0 : Float) = 1 := by decide +kernel

theorem ofDecimal_two : (Arith.ofDecimal 2 0 : Float) = 2 := by decide +kernel

theorem piValue_eq : (piValue : Float) = Binary64.pi := by decide +kernel

/-- The quotient that stands for a right angle. -/
theorem evaluateOpen_rightAngle :
    ((bin .div pi (number 2 0)).toExpr : Expr Float).evaluateOpen env =
      .ok (some (Binary64.pi / 2)) := by
  have htwo : ¬((2 : Float) == 0) = true := by decide +kernel
  rw [toExpr, toExpr, toExpr, piValue_eq, ofDecimal_two]
  change ((Binary64.div Binary64.pi 2).map some).mapError CurveError.fault = _
  rw [Binary64.div, if_neg htwo]
  rfl

/-- What the value of a function leaves of an angle. -/
theorem evaluateOpen_complement {angle : Expr Float} {c : Float}
    (hangle : angle.evaluateOpen env = .ok (some c)) (f : Fn) (a : Expr Float) :
    (Expr.bin .sub angle (.app f a)).evaluateOpen env =
      a.evaluateOpen env >>= fun v => f.computeOpen v >>= BinOp.sub.computeOpen (some c) := by
  rw [Expr.evaluateOpen, hangle, Expr.evaluateOpen]
  cases a.evaluateOpen env <;> rfl

/-- Functions that plotting tools lack have the same values by others. -/
theorem evaluateOpen_ofFn {f : Fn} (hf : f ≠ .arccos) (a : Infix) :
    ((ofFn f a).toExpr : Expr Float).evaluateOpen env =
      a.toExpr.evaluateOpen env >>= f.computeOpen := by
  cases f with
  | arccos => exact absurd rfl hf
  | cot =>
      rw [ofFn, toExpr, toExpr, toExpr, ofDecimal_one, Expr.evaluateOpen, Expr.evaluateOpen,
        Expr.evaluateOpen]
      cases a.toExpr.evaluateOpen env with
      | error e => rfl
      | ok v =>
          cases v with
          | none => rfl
          | some v =>
              change (Fn.computeOpen .tan (some v) >>= BinOp.div.computeOpen (some 1)) =
                (((Arith.apply .tan v >>= Binary64.div 1).map some).mapError CurveError.fault)
              rw [Fn.computeOpen]
              cases Arith.apply .tan v <;> rfl
  | arccot =>
      refine (evaluateOpen_complement evaluateOpen_rightAngle .arctan _).trans ?_
      congr 1
      funext v
      cases v <;> rfl
  | sin | cos | tan | arcsin | arctan | sqrt | ln => rfl

/-! ## expressions -/

/-- A name has the value of its plain name, if no other name has that plain name. -/
theorem single_plainName {x y : String} (h : plainName y = plainName x → y = x) (v : Float) :
    Assignment.single (plainName x) v (plainName y) = Assignment.single x v y := by
  by_cases hy : y = x
  · rw [hy, Assignment.single, Assignment.single, if_pos rfl, if_pos rfl]
  · rw [Assignment.single, Assignment.single, if_neg fun hsame => hy (h hsame), if_neg hy]

/-- What is read of an expression has the values of the expression, and its errors, where its
numbers are written in full and no other name has the plain name of the variable. -/
theorem evaluateOpen_transcript {x : String}
    (hv : ∀ v ∈ e.numbers, SignClear v ∧ reread v = v)
    (hx : ∀ y ∈ e.names, plainName y = plainName x → y = x) (u : Float) :
    (e.transcript.mapNames plainName).toExpr.evaluateOpen (.single (plainName x) u) =
      e.withoutArccos.evaluateOpen (.single x u) := by
  induction e with
  | num v =>
      obtain ⟨hsign, hsame⟩ := hv v (List.mem_singleton_self v)
      have hfinite := finite_of_reread_eq hsign hsame
      rw [mapNames_transcript_num, Expr.transcript,
        if_pos ((nonneg_iff hfinite).mpr (value_nonneg hfinite hsign)), toExpr,
        ofDecimal_decimal hsign hfinite hsame]
      rfl
  | var y =>
      rw [Expr.transcript, mapNames, toExpr, Expr.withoutArccos, Expr.evaluateOpen,
        Expr.evaluateOpen, single_plainName (hx y (List.mem_singleton_self y))]
  | bin op a b iha ihb =>
      have ha := iha (fun v h => hv v (List.mem_append_left _ h))
        (fun y h => hx y (List.mem_append_left _ h))
      have hb := ihb (fun v h => hv v (List.mem_append_right _ h))
        (fun y h => hx y (List.mem_append_right _ h))
      rw [Expr.transcript, mapNames, toExpr, Expr.withoutArccos, Expr.evaluateOpen,
        Expr.evaluateOpen, ha, hb]
  | neg a ih =>
      rw [Expr.transcript, mapNames, toExpr, Expr.withoutArccos, Expr.evaluateOpen,
        Expr.evaluateOpen, ih hv hx]
  | app f a ih =>
      rw [Expr.transcript, mapNames_ofFn]
      by_cases hf : f = .arccos
      · subst hf
        have hangle : (Expr.num (Binary64.pi / 2)).evaluateOpen (.single x u) =
            .ok (some (Binary64.pi / 2)) := rfl
        refine (evaluateOpen_complement evaluateOpen_rightAngle .arcsin _).trans ?_
        rw [ih hv hx, Expr.withoutArccos, evaluateOpen_complement hangle]
      · rw [evaluateOpen_ofFn hf, ih hv hx, Expr.withoutArccos_app hf, Expr.evaluateOpen]

end Infix

end Fluxion

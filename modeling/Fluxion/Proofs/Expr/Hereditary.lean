import Fluxion.Expr.Derivative
import Fluxion.Proofs.Expr.Pass

/-!
# Fluxion.Proofs.Expr.Hereditary

What expressions keep.

The rules of simplification and of differentiation only put parts of an expression together again,
with some numbers of their own.  So whatever an expression has exactly if its parts have it, and
those numbers have too, is kept (`Expr.Hereditary`).

* `Expr.Hereditary.pass`, `Expr.Hereditary.passes`: simplification;
* `Expr.Hereditary.derivative`: differentiation;
* `Expr.Hereditary.subst`: values put for variables.
-/

namespace Fluxion.Expr

/-- A property that an expression has exactly if its operands have it. -/
structure Partwise {α : Type} (P : Expr α → Prop) : Prop where
  bin {op : BinOp} {a b : Expr α} : P (bin op a b) ↔ P a ∧ P b
  neg {a : Expr α} : P (neg a) ↔ P a
  app {f : Fn} {a : Expr α} : P (app f a) ↔ P a

variable {α : Type} [Arith α]

/-- A property that an expression has exactly if its parts have it, and that the numbers have which
the rules bring in: zero, one, two, the results of operations on numbers, and the number that stands
in a negation for one below zero. -/
structure Hereditary (P : Expr α → Prop) : Prop where
  bin {op : BinOp} {a b : Expr α} : P (bin op a b) ↔ P a ∧ P b
  neg {a : Expr α} : P (neg a) ↔ P a
  app {f : Fn} {a : Expr α} : P (app f a) ↔ P a
  zero : P (num Arith.zero)
  one : P (num Arith.one)
  two : P (num Arith.two)
  literal {v : α} : Arith.finite v = true → P (Term.literal (Arith.add v Arith.zero))
  signed {v : α} : P (num v) → Arith.negative v = true → P (Term.literal (Arith.add v Arith.zero))

namespace Hereditary

variable {P : Expr α → Prop} {s : Strictness} {op : BinOp} {a b t : Expr α}

/-! ## rules of simplification -/

/-- What is folded is a number or its negation. -/
theorem fold (hP : Hereditary P) {v w : α}
    (h : (Term.fold s op a b v w).result = .ok (some t)) : P t := by
  unfold Term.fold at h
  split at h
  · cases s <;> cases h
  · split at h
    · cases s <;> cases h
    · cases s <;> cases h
    · split at h
      · next hfinite =>
        obtain rfl := Option.some.inj (Except.ok.inj h)
        exact hP.literal hfinite
      · cases s <;> cases h

/-- The sign is taken out of operands and put in front. -/
theorem hoistNeg (hP : Hereditary P) (ha : P a) (hb : P b) (h : Term.hoistNeg? op a b = some t) :
    P t := by
  have hneg : ∀ {c x : Expr α}, P c → Term.view c = .negation x → P x := by
    intro c x hc hx
    rw [eq_neg_of_view hx] at hc
    exact hP.neg.mp hc
  unfold Term.hoistNeg? at h
  split at h
  case h_13 => cases h
  case h_1 | h_2 =>
    obtain rfl := Option.some.inj h
    exact hP.neg.mpr (hP.bin.mpr ⟨hneg ha ‹_›, hneg hb ‹_›⟩)
  case h_7 | h_8 =>
    obtain rfl := Option.some.inj h
    exact hP.bin.mpr ⟨hneg ha ‹_›, hneg hb ‹_›⟩
  case h_3 | h_4 =>
    obtain rfl := Option.some.inj h
    exact hP.bin.mpr ⟨ha, hneg hb ‹_›⟩
  case h_11 | h_12 =>
    obtain rfl := Option.some.inj h
    exact hP.neg.mpr (hP.bin.mpr ⟨ha, hneg hb ‹_›⟩)
  case h_5 =>
    obtain rfl := Option.some.inj h
    exact hP.bin.mpr ⟨hb, hneg ha ‹_›⟩
  case h_6 | h_9 | h_10 =>
    obtain rfl := Option.some.inj h
    exact hP.neg.mpr (hP.bin.mpr ⟨hneg ha ‹_›, hb⟩)

/-- A neutral operand leaves the other one, or a number. -/
theorem identity (hP : Hereditary P) (ha : P a) (hb : P b)
    (h : (Term.identity s op a b).result = .ok (some t)) : P t := by
  have hzero := hP.zero
  have hone := hP.one
  have hneg := hP.neg.mpr hb
  cases op with
  | div =>
      simp only [Term.identity] at h
      split at h
      · cases s <;> cases h
      · repeat' split at h
        all_goals cases h
        all_goals assumption
  | add | sub | mul | pow =>
      simp only [Term.identity] at h
      repeat' split at h
      all_goals cases h
      all_goals assumption

/-- Equal operands leave a number, or twice or the square of one of them. -/
theorem collapse (hP : Hereditary P) (ha : P a) (h : Term.collapse? op a b = some t) : P t := by
  unfold Term.collapse? at h
  split at h
  · cases op with
    | add =>
        obtain rfl := Option.some.inj h
        exact hP.bin.mpr ⟨hP.two, ha⟩
    | mul =>
        obtain rfl := Option.some.inj h
        exact hP.bin.mpr ⟨ha, hP.two⟩
    | sub =>
        obtain rfl := Option.some.inj h
        exact hP.zero
    | div =>
        obtain rfl := Option.some.inj h
        exact hP.one
    | pow => cases h
  · cases h

/-- The power of a negation is that of its operand, perhaps negated. -/
theorem negBase (hP : Hereditary P) (ha : P a) (hb : P b)
    (h : (Term.negBase op a b).result = .ok (some t)) : P t := by
  unfold Term.negBase at h
  split at h
  · next x n hx hn =>
    rw [eq_neg_of_view hx] at ha
    have hpower : P (Expr.bin .pow x b) := hP.bin.mpr ⟨hP.neg.mp ha, hb⟩
    split at h
    · cases h
    · obtain rfl := Option.some.inj (Except.ok.inj h)
      exact hpower
    · obtain rfl := Option.some.inj (Except.ok.inj h)
      exact hP.neg.mpr hpower
    · cases h
  · cases h

/-- The rules for operations on two operands. -/
theorem reduceBin (hP : Hereditary P) (ha : P a) (hb : P b)
    (h : (Term.reduceBin s op a b).result = .ok (some t)) : P t := by
  unfold Term.reduceBin at h
  split at h
  · exact hP.fold h
  · split at h
    · next hhoist =>
      obtain rfl := Option.some.inj (Except.ok.inj h)
      exact hP.hoistNeg ha hb hhoist
    · obtain ⟨o, ho, h, -⟩ := Noted.bind_ok h
      split at h
      · obtain rfl := Option.some.inj (Except.ok.inj h)
        exact hP.identity ha hb ho
      · split at h
        · next hcollapse =>
          obtain rfl := Option.some.inj (Except.ok.inj h)
          exact hP.collapse ha hcollapse
        · exact hP.negBase ha hb h

/-- The rule for numbers. -/
theorem reduceNum (hP : Hereditary P) {v : α} (hv : P (num v)) (h : Term.reduceNum v = some t) :
    P t := by
  unfold Term.reduceNum at h
  split at h
  · next hnegative =>
    obtain rfl := Option.some.inj h
    exact hP.signed hv hnegative
  · cases h

/-- The rules for negations. -/
theorem reduceNeg (hP : Hereditary P) (ha : P a) (h : Term.reduceNeg a = some t) : P t := by
  unfold Term.reduceNeg at h
  split at h
  · next x hx =>
    obtain rfl := Option.some.inj h
    rw [eq_neg_of_view hx] at ha
    exact hP.neg.mp ha
  · split at h
    · obtain rfl := Option.some.inj h
      exact hP.zero
    · cases h

/-- The rules for functions. -/
theorem reduceApp (hP : Hereditary P) {f : Fn} (ha : P a)
    (h : (Term.reduceApp s f a).result = .ok (some t)) : P t := by
  have hzero := hP.zero
  have hone := hP.one
  unfold Term.reduceApp at h
  split at h
  · split at h
    · cases h
      exact hzero
    · split at h
      · cases h
        exact hone
      · cases s <;> cases h
      · cases s <;> cases h
      · cases h
  · split at h
    · split at h
      · cases h
        exact hzero
      · cases h
        exact hone
      · cases h
    · split at h
      · next x hx =>
        rw [eq_neg_of_view hx] at ha
        have hfn : P (Expr.app f x) := hP.app.mpr (hP.neg.mp ha)
        split at h
        · cases h
          exact hfn
        · split at h
          · cases h
            exact hP.neg.mpr hfn
          · cases h
      · cases h

/-! ## passes -/

omit [Arith α] in
/-- A rule that applies gives a new expression; otherwise the old one stays. -/
theorem settled (ha : P a) {below : Bool} {o : Option (Expr α)} (ho : ∀ t, o = some t → P t) :
    P (settled below a o).1 := by
  cases o with
  | none => exact ha
  | some t => exact ho t rfl

/-- What is hereditary is kept by a pass. -/
theorem pass (hP : Hereditary P) {e : Expr α} {p : Expr α × Bool} (he : P e)
    (h : (Expr.pass s e).result = .ok p) : P p.1 := by
  induction e generalizing p with
  | num v =>
      obtain rfl := Except.ok.inj h
      exact settled he fun t ht => hP.reduceNum he ht
  | var x =>
      obtain rfl := Except.ok.inj h
      exact he
  | bin op a b iha ihb =>
      obtain ⟨a', b', o, ha, hb, ho, rfl, -⟩ := pass_bin_ok h
      have ha' := iha (hP.bin.mp he).1 ha
      have hb' := ihb (hP.bin.mp he).2 hb
      refine settled (hP.bin.mpr ⟨ha', hb'⟩) ?_
      rintro t rfl
      exact hP.reduceBin ha' hb' ho
  | neg a ih =>
      obtain ⟨a', ha, rfl, -⟩ := pass_neg_ok h
      have ha' := ih (hP.neg.mp he) ha
      exact settled (hP.neg.mpr ha') fun t ht => hP.reduceNeg ha' ht
  | app f a ih =>
      obtain ⟨a', o, ha, ho, rfl, -⟩ := pass_app_ok h
      have ha' := ih (hP.app.mp he) ha
      refine settled (hP.app.mpr ha') ?_
      rintro t rfl
      exact hP.reduceApp ha' ho

/-- What every pass keeps is kept by all of them. -/
theorem passes (hP : Hereditary P) {n : Nat} {e e' : Expr α} {c : Bool} (he : P e)
    (h : (Expr.passes s n e).result = .ok (e', c)) : P e' :=
  passes_induction (fun _ _ he h => hP.pass he h) he h

/-! ## derivatives -/

/-- The derivatives of functions are built from the operand. -/
theorem outerDerivative (hP : Hereditary P) (f : Fn) (ha : P a) :
    P (Term.outerDerivative f a) := by
  have hunit : P (Term.unit : Expr α) := hP.one
  have hsquare : ∀ {u : Expr α}, P u → P (Term.square u) := fun hu => hP.bin.mpr ⟨hu, hP.two⟩
  have hinverse : ∀ {u : Expr α}, P u → P (Term.inverse u) := fun hu => hP.bin.mpr ⟨hunit, hu⟩
  cases f with
  | sin => exact hP.app.mpr ha
  | cos => exact hP.neg.mpr (hP.app.mpr ha)
  | tan => exact hinverse (hsquare (hP.app.mpr ha))
  | cot => exact hP.neg.mpr (hinverse (hsquare (hP.app.mpr ha)))
  | arcsin => exact hinverse (hP.app.mpr (hP.bin.mpr ⟨hunit, hsquare ha⟩))
  | arccos => exact hP.neg.mpr (hinverse (hP.app.mpr (hP.bin.mpr ⟨hunit, hsquare ha⟩)))
  | arctan => exact hinverse (hP.bin.mpr ⟨hunit, hsquare ha⟩)
  | arccot => exact hP.neg.mpr (hinverse (hP.bin.mpr ⟨hunit, hsquare ha⟩))
  | sqrt => exact hinverse (hP.bin.mpr ⟨hP.two, hP.app.mpr ha⟩)
  | ln => exact hinverse ha

/-- The derivatives of operations are built from the operands and their derivatives. -/
theorem binDerivative (hP : Hereditary P) (x : String) {da db : Expr α} (ha : P a) (hb : P b)
    (hda : P da) (hdb : P db) : P (binDerivative x op a b da db) := by
  have hbin : ∀ (op : BinOp) {a b : Expr α}, P a → P b → P (Expr.bin op a b) :=
    fun op _ _ ha hb => hP.bin.mpr ⟨ha, hb⟩
  cases op with
  | add | sub => exact hbin _ hda hdb
  | mul => exact hbin _ (hbin _ hda hb) (hbin _ ha hdb)
  | div => exact hbin _ (hbin _ (hbin _ hda hb) (hbin _ ha hdb)) (hbin _ hb hP.two)
  | pow =>
      unfold Expr.binDerivative powerDerivative
      dsimp only
      split
      · exact hbin _ (hbin _ (hP.app.mpr ha) (hbin _ ha hb)) hdb
      · split
        · exact hbin _ (hbin _ hb (hbin _ ha (hbin _ hb hP.one))) hda
        · exact hbin _ (hbin _ ha hb)
            (hbin _ (hbin _ hdb (hP.app.mpr ha)) (hbin _ (hbin _ hb hda) ha))

/-- What is hereditary is kept by differentiation. -/
theorem derivative (hP : Hereditary P) (x : String) {e : Expr α} (he : P e) :
    P (e.derivative x) := by
  induction e with
  | num v => exact hP.zero
  | var y =>
      unfold Expr.derivative
      split
      · exact hP.one
      · exact hP.zero
  | bin op a b iha ihb =>
      obtain ⟨ha, hb⟩ := hP.bin.mp he
      unfold Expr.derivative
      split
      · exact hP.zero
      · exact hP.binDerivative x ha hb (iha ha) (ihb hb)
  | neg a ih =>
      have ha := hP.neg.mp he
      unfold Expr.derivative
      split
      · exact hP.zero
      · exact hP.neg.mpr (ih ha)
  | app f a ih =>
      have ha := hP.app.mp he
      unfold Expr.derivative
      split
      · exact hP.zero
      · exact hP.bin.mpr ⟨hP.outerDerivative f ha, ih ha⟩

/-- What is hereditary is kept if what is put for a variable has it too. -/
theorem subst (hP : Hereditary P) (x : String) {value e : Expr α} (hvalue : P value) (he : P e) :
    P (Expr.subst x value e) := by
  induction e with
  | num v => exact he
  | var y =>
      unfold Expr.subst
      split
      · exact hvalue
      · exact he
  | bin op a b iha ihb => exact hP.bin.mpr ⟨iha (hP.bin.mp he).1, ihb (hP.bin.mp he).2⟩
  | neg a ih => exact hP.neg.mpr (ih (hP.neg.mp he))
  | app f a ih => exact hP.app.mpr (ih (hP.app.mp he))

end Hereditary

end Fluxion.Expr

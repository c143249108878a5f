import Fluxion.Proofs.Formula.Lenient
import Fluxion.Proofs.Formula.Series
import Fluxion.Proofs.Store.Plant

/-!
# Fluxion.Proofs.Formula.WellBuilt

What all formulas have in common that come from a text.

A formula is read, differentiated, simplified, has numbers put for its variables, is developed into
a series or a tangent, and may take up more variables.  On the way every node has the operands that
its operation takes, numbers below zero are written as negations, and every name that occurs is in
the table (`Sketch.WellBuilt`).  The table itself is without repetitions and not too long, and only
taking up a variable changes it.

* `Expr.hereditary_fits`: what the rules of simplification and differentiation keep;
* `Formula.Rewrites.keeps`: what one operation keeps;
* `Formula.wellBuilt_of_steps`: what all formulas have that come from a text.
-/

namespace Fluxion

open Noted (Ends)

/-! ## nodes -/

/-- Every operation has the operands that it takes and no others, numbers are not below zero, and
names are in the table. -/
def Sketch.WellBuilt {α : Type} [Arith α] (vars : Names) : Sketch α → Prop
  | missing => False
  | node op value l r =>
    (op = Cell.numberOp ∧ (∃ v, value = some (.number v) ∧ Arith.negative v = false) ∧
        l = missing ∧ r = missing) ∨
      (op = Cell.nameOp ∧ (∃ x ∈ vars, value = some (.name x)) ∧ l = missing ∧ r = missing) ∨
      (Storing.isBinary op = true ∧ value = none ∧ l.WellBuilt vars ∧ r.WellBuilt vars) ∨
      (Storing.isUnary op = true ∧ value = none ∧ l = missing ∧ r.WellBuilt vars)

namespace Expr

/-! ## numbers and names of expressions -/

section

variable {α : Type} [Arith α]

/-- The numbers of an expression are not below zero, and its names are in a table. -/
def Fits (vars : Names) : Expr α → Prop
  | num v => Arith.negative v = false
  | var x => x ∈ vars
  | bin _ a b => a.Fits vars ∧ b.Fits vars
  | neg a | app _ a => a.Fits vars

/-- What fits a table fits a larger one. -/
theorem Fits.mono {vars vars' : Names} (hvars : vars ⊆ vars') {e : Expr α} (h : e.Fits vars) :
    e.Fits vars' := by
  induction e with
  | num v => exact h
  | var x => exact hvars h
  | bin op a b iha ihb => exact ⟨iha h.1, ihb h.2⟩
  | neg a ih => exact ih h
  | app f a ih => exact ih h

/-- The nodes of an expression are built of its operations. -/
theorem wellBuilt_ofExpr {vars : Names} {e : Expr α} (h : e.Fits vars) :
    (Sketch.ofExpr e).WellBuilt vars := by
  induction e with
  | num v => exact .inl ⟨rfl, ⟨v, rfl, h⟩, rfl, rfl⟩
  | var x => exact .inr (.inl ⟨rfl, ⟨x, h, rfl⟩, rfl, rfl⟩)
  | bin op a b iha ihb =>
      exact .inr (.inr (.inl ⟨Storing.isBinary_symbol op, rfl, iha h.1, ihb h.2⟩))
  | neg a ih => exact .inr (.inr (.inr ⟨rfl, rfl, rfl, ih h⟩))
  | app f a ih => exact .inr (.inr (.inr ⟨Storing.isUnary_name f, rfl, rfl, ih h⟩))

end

variable {vars : Names}

/-- The number that stands in the negation for a number below zero, or for one that is none, is not
below zero. -/
theorem not_negative_neg {v : Float} (h : Arith.nonneg v = false) :
    Arith.negative (Arith.neg v) = false := by
  rw [Binary64.nonneg_eq] at h
  have hneg : Binary64.parts (Arith.neg v) = (Binary64.parts v).neg := Binary64.parts_neg v
  rw [Binary64.negative_eq, hneg]
  cases hv : Binary64.parts v with
  | notANumber => rfl
  | zero s => cases s <;> rfl
  | infinity s | finite s =>
      rw [hv] at h
      cases s with
      | positive => cases h
      | negative => rfl

/-- A literal fits every table. -/
theorem fits_literal (v : Float) : (Term.literal v : Expr Float).Fits vars := by
  unfold Term.literal
  split
  · next h => exact (LawfulArith.proper_of_nonneg h).not_negative
  · next h => exact not_negative_neg (Bool.eq_false_iff.mpr h)

/-- The rules bring in numbers that are not below zero, and no names. -/
theorem hereditary_fits : Hereditary (Fits (α := Float) vars) where
  bin := Iff.rfl
  neg := Iff.rfl
  app := Iff.rfl
  zero := LawfulArith.proper_zero.not_negative
  one := LawfulArith.proper_one.not_negative
  two := LawfulArith.proper_two.not_negative
  literal _ := fits_literal _
  signed _ _ := fits_literal _

end Expr

namespace Formula

/-! ## operations -/

section

variable {vars : Names} {f g : Formula Float} {s : Strictness} {x : String}

/-- Simplification keeps what fits, and the table. -/
theorem fits_simplify (hf : f.root.Fits vars) (h : (f.simplify s).result = .ok g) :
    g.root.Fits vars ∧ g.vars = f.vars := by
  rw [result_simplify] at h
  obtain ⟨⟨e, settled⟩, hpasses, rfl⟩ := map_eq_ok.mp h
  exact ⟨Expr.hereditary_fits.passes hf hpasses, rfl⟩

/-- Simplification within another operation keeps what fits, and the table. -/
theorem ends_simplified_fits (hf : f.root.Fits vars) :
    Ends (fun g => g.root.Fits vars ∧ g.vars = f.vars) (fun _ => True) (f.simplified s) :=
  Ends.mapError ⟨fun _ => fits_simplify hf, fun _ _ => trivial⟩

/-- What fits does so when a number is put for a variable. -/
theorem fits_atPoint (v : Float) (hf : f.root.Fits vars) : (f.atPoint x v).root.Fits vars :=
  Expr.hereditary_fits.subst x (Expr.fits_literal v) hf

/-- The distance from a point fits if the variable is in the table. -/
theorem fits_distance (hx : x ∈ vars) (center : Float) : (distance x center).Fits vars := by
  unfold distance
  split
  · exact hx
  · exact ⟨hx, Expr.fits_literal center⟩

/-- Natural numbers are not below zero. -/
theorem not_negative_ofNat {n : Nat} {v : Float} (h : Arith.ofNat n = .ok v) :
    Arith.negative v = false := by
  change Binary64.ofNat n = .ok v at h
  unfold Binary64.ofNat at h
  dsimp only at h
  split at h
  · cases h
    exact Binary64.not_negative_ofDecimal n 0
  · exact nomatch h

/-- A term of a series fits if its coefficient does. -/
theorem fits_seriesTerm {center : Float} (hx : x ∈ vars) {power : Nat} {c t : Expr Float}
    (hc : c.Fits vars) (ht : seriesTerm x center power c = .ok t) : t.Fits vars := by
  unfold seriesTerm at ht
  split at ht
  · cases ht
    exact hc
  · obtain ⟨n, hn, ht⟩ := bind_eq_ok.mp ht
    obtain ⟨d, hd, ht⟩ := bind_eq_ok.mp ht
    cases ht
    exact ⟨⟨hc, fits_distance hx center, not_negative_ofNat hn⟩, not_negative_ofNat hd⟩

/-- What the loop of a series keeps: the derivatives, coefficients and sums fit. -/
theorem seriesInvariant_fits {center : Float} (hx : x ∈ vars) :
    SeriesInvariant s x center (fun _ _ f => f.root.Fits vars) (fun _ c => c.Fits vars)
      (fun _ terms => ∀ e, terms = some e → e.Fits vars) (fun _ => True) where
  value hf := (ends_simplified_fits (fits_atPoint center hf)).mono fun _ h => h.1
  next hf := (ends_simplified_fits (Expr.hereditary_fits.derivative x hf)).mono fun _ h => h.1
  skip _ _ hterms := hterms
  term {power c terms} hc _ hterms := by
    refine Noted.ends_lift (fun t ht e he => ?_) fun _ _ => trivial
    have ht' := fits_seriesTerm hx hc (mapError_eq_ok.mp ht)
    obtain rfl := Option.some.inj he
    cases terms with
    | none => exact ht'
    | some sum => exact ⟨hterms sum rfl, ht'⟩

/-- A variable of the table, where one is required. -/
theorem mem_of_requireVar {u : Unit} (h : f.requireVar x = .ok u) : x ∈ f.vars := by
  unfold requireVar at h
  split at h
  · next hx => exact List.contains_iff_mem.mp hx
  · exact nomatch h

theorem ends_requireVar_mem :
    Ends (fun _ => x ∈ f.vars) (fun _ => True)
      (.lift (f.requireVar x) : Working Float (CalculusError Float) Unit) :=
  Noted.ends_lift (fun _ h => mem_of_requireVar h) fun _ _ => trivial

/-- The series of what fits does so, under the same table. -/
theorem ends_series_fits {center : Float} {order : Int} (hf : f.root.Fits f.vars) :
    Ends (fun g => g.root.Fits f.vars ∧ g.vars = f.vars) (fun _ => True)
      (f.series s x center order) := by
  refine ends_requireVar_mem.bind fun _ hx => ?_
  cases order with
  | negSucc n => exact Noted.ends_fail trivial
  | ofNat n =>
      have hnone : ∀ e : Expr Float, none = some e → e.Fits f.vars := nofun
      refine ((seriesInvariant_fits hx).ends hf hnone).bind fun terms hterms => ?_
      have hroot : (f.withRoot (terms.getD (.num Arith.zero))).root.Fits f.vars := by
        cases terms with
        | none => exact LawfulArith.proper_zero.not_negative
        | some e => exact hterms e rfl
      exact ends_simplified_fits hroot

/-- The tangent of what fits does so, under the same table. -/
theorem ends_tangent_fits {point : Float} (hf : f.root.Fits f.vars) :
    Ends (fun g => g.root.Fits f.vars ∧ g.vars = f.vars) (fun _ => True)
      (f.tangent s x point) := by
  refine ends_requireVar_mem.bind fun _ hx => ?_
  refine (ends_simplified_fits (fits_atPoint point hf)).bind fun value hvalue => ?_
  have hslope : ((f.withRoot (f.root.derivative x)).atPoint x point).root.Fits f.vars :=
    fits_atPoint point (Expr.hereditary_fits.derivative x hf)
  refine (ends_simplified_fits hslope).bind fun slope hslope => ?_
  have hroot : (f.withRoot (.bin .add value.root (.bin .mul slope.root
      (distance x point)))).root.Fits f.vars := ⟨hvalue.1, hslope.1, fits_distance hx point⟩
  exact ends_simplified_fits hroot

end

/-! ## steps -/

/-- A formula is rewritten as another one by an operation of calculus or a simplification. -/
inductive Rewrites (f : Formula Float) : Formula Float → Prop where
  | differentiate {g : Formula Float} (x : String) (h : f.differentiate x = .ok g) : Rewrites f g
  | substitute {g : Formula Float} (x : String) (v : Float) (h : f.substitute x v = .ok g) :
      Rewrites f g
  | simplify {g : Formula Float} (s : Strictness) (h : (f.simplify s).result = .ok g) :
      Rewrites f g
  | series {g : Formula Float} (s : Strictness) (x : String) (center : Float) (order : Int)
      (h : (f.series s x center order).result = .ok g) : Rewrites f g
  | tangent {g : Formula Float} (s : Strictness) (x : String) (point : Float)
      (h : (f.tangent s x point).result = .ok g) : Rewrites f g

/-- A step from one formula to the next: it is rewritten, or takes up a variable. -/
inductive Step (f : Formula Float) : Formula Float → Prop where
  | rewrite {g : Formula Float} (h : Rewrites f g) : Step f g
  | addVar {g : Formula Float} (x : String) (h : f.addVar x = .ok g) : Step f g

/-- Rewriting keeps what fits, and the table. -/
theorem Rewrites.keeps {f g : Formula Float} (h : Rewrites f g) (hf : f.root.Fits f.vars) :
    g.root.Fits f.vars ∧ g.vars = f.vars := by
  cases h with
  | differentiate x h =>
      obtain ⟨u, -, h⟩ := bind_eq_ok.mp h
      cases h
      exact ⟨Expr.hereditary_fits.derivative x hf, rfl⟩
  | substitute x v h =>
      obtain ⟨u, -, h⟩ := bind_eq_ok.mp h
      cases h
      exact ⟨fits_atPoint v hf, rfl⟩
  | simplify s h => exact fits_simplify hf h
  | series s x center order h => exact (ends_series_fits hf).ok g h
  | tangent s x point h => exact (ends_tangent_fits hf).ok g h

/-- What all formulas have that come from a text. -/
structure WellBuilt (f : Formula Float) : Prop where
  nodes : (Sketch.ofExpr f.root).WellBuilt f.vars
  nodup : f.vars.Nodup
  length_le : f.vars.length ≤ maxNames

/-- The expression fits the table, and the table is one. -/
structure Fits (f : Formula Float) : Prop where
  root : f.root.Fits f.vars
  nodup : f.vars.Nodup
  length_le : f.vars.length ≤ maxNames

/-- What fits is well-built. -/
theorem Fits.wellBuilt {f : Formula Float} (h : f.Fits) : f.WellBuilt :=
  ⟨Expr.wellBuilt_ofExpr h.root, h.nodup, h.length_le⟩

/-- A formula that is read fits its table. -/
theorem fits_read {text : String} {f : Formula Float} (h : read text = .ok f) : f.Fits := by
  obtain ⟨ts, -, -, hnodup, hlen, -⟩ := tokens_of_read h
  refine ⟨?_, hnodup, hlen⟩
  exact holds_read ⟨Iff.rfl, Iff.rfl, Iff.rfl⟩ h Binary64.not_negative_ofDecimal fun x hx _ => hx

/-- A step leads from what fits to what fits. -/
theorem Step.fits {f g : Formula Float} (h : Step f g) (hf : f.Fits) : g.Fits := by
  cases h with
  | rewrite h =>
      obtain ⟨hroot, hvars⟩ := h.keeps hf.root
      rw [← hvars] at hroot
      exact ⟨hroot, hvars ▸ hf.nodup, hvars ▸ hf.length_le⟩
  | addVar x h =>
      obtain ⟨names, hnames, h⟩ := bind_eq_ok.mp h
      cases h
      have hadd := add_spec x hf.nodup hf.length_le
      rw [hnames] at hadd
      obtain ⟨hnodup, hlen, hset⟩ := hadd
      have hsub : f.vars ⊆ names := by
        intro y hy
        rw [← List.mem_toFinset, hset]
        exact Finset.mem_insert_of_mem (List.mem_toFinset.mpr hy)
      exact ⟨hf.root.mono hsub, hnodup, hlen⟩

/-- **Formulas stay well-built.**  Whatever comes from a text by operations of calculus,
simplifications and more variables, in any number and order: its nodes have the operands that their
operations take, its numbers are not below zero, its names are in its table, and the table is
without repetitions and not too long.  An operation that takes up no variable leaves the table as it
is. -/
theorem wellBuilt_of_steps {text : String} {f g : Formula Float} (hf : read text = .ok f)
    (hg : Relation.ReflTransGen Step f g) :
    g.WellBuilt ∧ ∀ h, Rewrites g h → h.vars = g.vars := by
  have hfits : g.Fits := by
    induction hg with
    | refl => exact fits_read hf
    | tail _ hstep ih => exact hstep.fits ih
  exact ⟨hfits.wellBuilt, fun h hh => (hh.keeps hfits.root).2⟩

/-- The variable of `-x` is gone from its derivative, but not from the table. -/
theorem wellBuilt_negatedSlope :
    ∃ f g h : Formula Float, read "-x" = .ok f ∧ f.differentiate "x" = .ok g ∧
      g.addVar "y" = .ok h ∧ h.root.isConst "x" = true ∧ h.vars = ["x", "y"] ∧ h.WellBuilt := by
  have hread : read (α := Float) "-x" = .ok ⟨.neg (.var "x"), ["x"]⟩ := by cbv
  have hsteps : Relation.ReflTransGen Step (⟨.neg (.var "x"), ["x"]⟩ : Formula Float)
      ⟨.neg Term.unit, ["x", "y"]⟩ :=
    (Relation.ReflTransGen.single (.rewrite (.differentiate "x" rfl))).tail (.addVar "y" rfl)
  exact ⟨_, _, _, hread, rfl, rfl, rfl, rfl, (wellBuilt_of_steps hread hsteps).1⟩

end Formula

end Fluxion

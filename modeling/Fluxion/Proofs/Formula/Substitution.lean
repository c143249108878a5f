import Fluxion.Formula.Calculus
import Fluxion.Proofs.Expr.Tex
import Fluxion.Proofs.Number.Bits

/-!
# Fluxion.Proofs.Formula.Substitution

Values put for variables, against values assigned to them.

A value is put for a variable as a term without variables, so evaluating what comes of it asks for
the same values in the same order and fails at the same place.  A negative value is put as a
negation, which evaluates to it since a sign turned twice is no change, not even in the last bit.

* `Expr.evaluate_subst`, `Expr.names_subst`, `Expr.subst_comm`: for any term put for a variable;
* `Formula.evaluate_substitute`: for the values that can be put for a variable of a formula.
-/

namespace Fluxion

namespace Expr

variable {α : Type} {x y : String} {u w : Expr α}

/-- A term whose value is `v` is put where `v` would be looked up. -/
theorem evaluate_subst [Arith α] {env : Assignment α} {v : α} (hu : u.evaluate env = .ok v)
    (e : Expr α) : (subst x u e).evaluate env = e.evaluate (env.update x v) := by
  induction e with
  | num _ => simp [subst, evaluate]
  | var y => by_cases hy : y = x <;> simp [subst, evaluate, Assignment.update, hy, hu]
  | bin op a b iha ihb => simp [subst, evaluate, iha, ihb]
  | neg a ih | app f a ih => simp [subst, evaluate, ih]

/-- Of the names, the one that is put for goes, if it is put for by a term without names. -/
theorem names_subst (hu : u.names = []) (e : Expr α) :
    (subst x u e).names = e.names.filter (· ≠ x) := by
  induction e with
  | num _ => simp [subst, names]
  | var y => by_cases hy : y = x <;> simp [subst, names, hy, hu]
  | bin op a b iha ihb => simp [subst, names, iha, ihb]
  | neg a ih | app f a ih => simpa [subst, names] using ih

/-- Where a variable does not occur, nothing is put for it. -/
theorem subst_eq_self {e : Expr α} (hx : x ∉ e.names) : subst x u e = e := by
  induction e with
  | num _ => simp [subst]
  | var y => simp_all [subst, names, eq_comm]
  | bin op a b iha ihb => simp_all [subst, names]
  | neg a ih | app f a ih => simp_all [subst, names]

/-- Terms without names are put for different variables in either order. -/
theorem subst_comm (hxy : y ≠ x) (hu : u.names = []) (hw : w.names = []) (e : Expr α) :
    subst y w (subst x u e) = subst x u (subst y w e) := by
  induction e with
  | num _ => simp [subst]
  | var z =>
      by_cases hzx : z = x
      · subst hzx
        simp [subst, hxy.symm, subst_eq_self, hu]
      · by_cases hzy : z = y
        · subst hzy
          simp [subst, hxy, subst_eq_self, hw]
        · simp [subst, hzx, hzy]
  | bin op a b iha ihb => simp [subst, iha, ihb]
  | neg a ih | app f a ih => simp [subst, ih]

theorem names_literal_eq [Arith α] (v : α) : (Term.literal v : Expr α).names = [] := by
  unfold Term.literal
  split <;> simp [Term.num, Term.neg, names]

/-- The term of a number has that value, bit for bit. -/
theorem evaluate_literal (v : Float) (env : Assignment Float) :
    (Term.literal v : Expr Float).evaluate env = .ok v := by
  unfold Term.literal
  split
  · simp [Term.num, evaluate]
  · have hneg : Arith.neg (Arith.neg v) = v := Binary64.neg_neg_eq v
    exact congrArg Except.ok hneg

end Expr

namespace Formula

theorem substitute_of_mem {α : Type} [Arith α] {f : Formula α} {x : String} (hx : x ∈ f.vars)
    (v : α) : f.substitute x v = .ok (f.atPoint x v) := by
  have hrequire : f.requireVar x = .ok () := by simp [requireVar, hx]
  rw [substitute, hrequire]
  rfl

/-- **Putting a value for a variable is assigning it.**  A number can be put for every variable of
the table.  What comes of it has the value, or the failure, of the formula with the number assigned
to the variable, whatever is assigned to the others; the variable does not occur in it; and a value
is put for a further variable before or after with the same result. -/
theorem evaluate_substitute {f : Formula Float} {x : String} (hx : x ∈ f.vars) (v : Float) :
    ∃ g, f.substitute x v = .ok g ∧
      (∀ env : Assignment Float, g.evaluate env = f.evaluate (env.update x v)) ∧
      x ∉ g.root.names ∧
      ∀ y ∈ f.vars, y ≠ x → ∀ w, ∃ h k, f.substitute y w = .ok h ∧
        g.substitute y w = .ok k ∧ h.substitute x v = .ok k := by
  refine ⟨f.atPoint x v, substitute_of_mem hx v, fun env => ?_, ?_, fun y hy hne w => ?_⟩
  · exact Expr.evaluate_subst (Expr.evaluate_literal v env) f.root
  · simp [atPoint, withRoot, Expr.names_subst (Expr.names_literal_eq v)]
  · have hcomm := Expr.subst_comm hne (Expr.names_literal_eq v) (Expr.names_literal_eq w) f.root
    have hboth : (f.atPoint x v).atPoint y w = (f.atPoint y w).atPoint x v := by
      simp only [atPoint, withRoot, hcomm]
    refine ⟨f.atPoint y w, (f.atPoint x v).atPoint y w, substitute_of_mem hy w,
      substitute_of_mem (f := f.atPoint x v) hy w, ?_⟩
    rw [hboth]
    exact substitute_of_mem (f := f.atPoint y w) hx v

/-- A negative number in `x ^ 2 / y`, without a value for `y` and with zero for it. -/
theorem evaluate_substitute_quotient :
    let f : Formula Float := ⟨.bin .div (.bin .pow (.var "x") (.num 2)) (.var "y"), ["x", "y"]⟩
    "x" ∈ f.vars ∧ ∃ g, f.substitute "x" (-2) = .ok g ∧
      g.evaluate (fun _ => none) = f.evaluate (Assignment.single "x" (-2)) ∧
      g.evaluate (Assignment.single "y" 0) =
        f.evaluate ((Assignment.single "y" 0).update "x" (-2)) ∧
      "x" ∉ g.root.names ∧
      ∃ h k, f.substitute "y" 3 = .ok h ∧ g.substitute "y" 3 = .ok k ∧
        h.substitute "x" (-2) = .ok k := by
  intro f
  have hx : "x" ∈ f.vars := by decide
  obtain ⟨g, hg, hvalue, hnames, hother⟩ := evaluate_substitute hx (-2)
  exact ⟨hx, g, hg, hvalue _, hvalue _, hnames, hother "y" (by decide) (by decide) 3⟩

end Formula

end Fluxion

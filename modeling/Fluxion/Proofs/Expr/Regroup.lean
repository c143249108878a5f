import Mathlib.Logic.Relation
import Fluxion.Expr.Tex

/-!
# Fluxion.Proofs.Expr.Regroup

Sums and products grouped to the left.

A sum on the right of a plus sign and a product on the right of a multiplication sign are written
without brackets, so they read back as the sums and products of the same operands that are grouped
to the left.  `Regroups` is one step of regrouping, anywhere in an expression; `Expr.regroup` does
all of them.

* `Expr.regroupsTo_iff`: whatever the order of the steps, they end at `Expr.regroup`.
-/

namespace Fluxion.Expr

open Relation

variable {α : Type}

/-- One step of regrouping a sum or a product to the left. -/
inductive Regroups : Expr α → Expr α → Prop where
  | add (a b c : Expr α) :
      Regroups (bin .add a (bin .add b c)) (bin .add (bin .add a b) c)
  | sub (a b c : Expr α) :
      Regroups (bin .add a (bin .sub b c)) (bin .sub (bin .add a b) c)
  | mul (a b c : Expr α) :
      Regroups (bin .mul a (bin .mul b c)) (bin .mul (bin .mul a b) c)
  | left (op : BinOp) {a a' : Expr α} (b : Expr α) (h : Regroups a a') :
      Regroups (bin op a b) (bin op a' b)
  | right (op : BinOp) (a : Expr α) {b b' : Expr α} (h : Regroups b b') :
      Regroups (bin op a b) (bin op a b')
  | neg {a a' : Expr α} (h : Regroups a a') : Regroups (neg a) (neg a')
  | app (f : Fn) {a a' : Expr α} (h : Regroups a a') : Regroups (app f a) (app f a')

/-- Steps of regrouping lead from one expression to another, and no step leads on. -/
structure RegroupsTo (e r : Expr α) : Prop where
  steps : ReflTransGen Regroups e r
  done : ∀ r', ¬Regroups r r'

/-! ## all steps at once -/

/-- An expression added to a regrouped one, from the left. -/
def addLeft (left : Expr α) : Expr α → Expr α
  | bin .add b c => bin .add (addLeft left b) c
  | bin .sub b c => bin .sub (addLeft left b) c
  | e => bin .add left e

/-- A regrouped expression multiplied with another, from the left. -/
def mulLeft (left : Expr α) : Expr α → Expr α
  | bin .mul b c => bin .mul (mulLeft left b) c
  | e => bin .mul left e

/-- An expression with its sums and products grouped to the left. -/
def regroup : Expr α → Expr α
  | num v => num v
  | var x => var x
  | bin .add a b => addLeft a.regroup b.regroup
  | bin .mul a b => mulLeft a.regroup b.regroup
  | bin op a b => bin op a.regroup b.regroup
  | neg a => neg a.regroup
  | app f a => app f a.regroup

/-! ## operands that are not taken apart -/

/-- A product. -/
def isProduct : Expr α → Bool
  | bin .mul _ _ => true
  | _ => false

/-- What is not a sum or a difference is added as a whole. -/
theorem addLeft_of_not {e : Expr α} (h : e.isAdditive = false) (left : Expr α) :
    addLeft left e = bin .add left e := by
  cases e with
  | bin op a b =>
      cases op with
      | add | sub => exact nomatch h
      | mul | div | pow => rfl
  | num | var | neg | app => rfl

/-- What is not a product is multiplied as a whole. -/
theorem mulLeft_of_not {e : Expr α} (h : e.isProduct = false) (left : Expr α) :
    mulLeft left e = bin .mul left e := by
  cases e with
  | bin op a b =>
      cases op with
      | mul => exact nomatch h
      | add | sub | div | pow => rfl
  | num | var | neg | app => rfl

@[simp] theorem isAdditive_addLeft (left e : Expr α) : (addLeft left e).isAdditive = true := by
  unfold addLeft
  split <;> rfl

@[simp] theorem isAdditive_mulLeft (left e : Expr α) : (mulLeft left e).isAdditive = false := by
  unfold mulLeft
  split <;> rfl

/-- Regrouping turns sums into sums and all else into what is no sum. -/
theorem isAdditive_regroup (e : Expr α) : e.regroup.isAdditive = e.isAdditive := by
  cases e with
  | bin op a b =>
      cases op with
      | add => exact isAdditive_addLeft _ _
      | mul => exact isAdditive_mulLeft _ _
      | sub | div | pow => rfl
  | num | var | neg | app => rfl

/-- Regrouping turns operations into operations. -/
theorem regroup_bin (op : BinOp) (a b : Expr α) :
    ∃ op' a' b', (bin op a b).regroup = bin op' a' b' ∧ op'.isLoose = op.isLoose := by
  cases op with
  | add =>
      rw [regroup]
      unfold addLeft
      split <;> exact ⟨_, _, _, rfl, rfl⟩
  | mul =>
      rw [regroup]
      unfold mulLeft
      split <;> exact ⟨_, _, _, rfl, rfl⟩
  | sub | div | pow => exact ⟨_, _, _, rfl, rfl⟩

/-- Sums and products stay sums and products. -/
theorem isLoose_regroup (e : Expr α) : e.regroup.isLoose = e.isLoose := by
  cases e with
  | bin op a b =>
      obtain ⟨op', a', b', h, hloose⟩ := regroup_bin op a b
      rw [h, isLoose, hloose, isLoose]
  | num | var | neg | app => rfl

/-- Atomic expressions stay atomic, and no others become so. -/
theorem isAtomic_regroup [Arith α] (e : Expr α) : e.regroup.isAtomic = e.isAtomic := by
  cases e with
  | bin op a b =>
      obtain ⟨op', a', b', h, -⟩ := regroup_bin op a b
      rw [h]
      rfl
  | num | var | neg | app => rfl

/-- Variables stay variables, and nothing else becomes one. -/
theorem isVar_regroup (e : Expr α) : e.regroup.isVar = e.isVar := by
  cases e with
  | bin op a b =>
      obtain ⟨op', a', b', h, -⟩ := regroup_bin op a b
      rw [h]
      rfl
  | num | var | neg | app => rfl

/-- Regrouped sums have as many nodes as before. -/
theorem size_addLeft (left e : Expr α) : (addLeft left e).size = 1 + left.size + e.size := by
  induction e with
  | bin op b c ihb ihc =>
      cases op with
      | add | sub =>
          rw [addLeft, size, ihb, size]
          omega
      | mul | div | pow => rfl
  | num | var | neg | app => rfl

/-- Regrouped products have as many nodes as before. -/
theorem size_mulLeft (left e : Expr α) : (mulLeft left e).size = 1 + left.size + e.size := by
  induction e with
  | bin op b c ihb ihc =>
      cases op with
      | mul =>
          rw [mulLeft, size, ihb, size]
          omega
      | add | sub | div | pow => rfl
  | num | var | neg | app => rfl

/-- Regrouping keeps the number of nodes. -/
theorem size_regroup (e : Expr α) : e.regroup.size = e.size := by
  induction e with
  | num v => rfl
  | var x => rfl
  | bin op a b iha ihb =>
      cases op with
      | add => rw [regroup, size_addLeft, iha, ihb, size]
      | mul => rw [regroup, size_mulLeft, iha, ihb, size]
      | sub | div | pow => simp only [regroup, size, iha, ihb]
  | neg a ih => rw [regroup, size, ih, size]
  | app f a ih => rw [regroup, size, ih, size]

/-! ## the steps lead there -/

theorem Regroups.steps_left (op : BinOp) {a a' : Expr α} (b : Expr α)
    (h : ReflTransGen Regroups a a') : ReflTransGen Regroups (bin op a b) (bin op a' b) :=
  h.lift (bin op · b) fun _ _ hs => .left op b hs

theorem Regroups.steps_right (op : BinOp) (a : Expr α) {b b' : Expr α}
    (h : ReflTransGen Regroups b b') : ReflTransGen Regroups (bin op a b) (bin op a b') :=
  h.lift (bin op a) fun _ _ hs => .right op a hs

/-- Steps in both operands are steps of the operation. -/
theorem Regroups.steps_bin (op : BinOp) {a a' b b' : Expr α} (ha : ReflTransGen Regroups a a')
    (hb : ReflTransGen Regroups b b') : ReflTransGen Regroups (bin op a b) (bin op a' b') :=
  (Regroups.steps_left op b ha).trans (Regroups.steps_right op a' hb)

/-- A sum is regrouped step by step. -/
theorem steps_addLeft (left e : Expr α) :
    ReflTransGen Regroups (bin .add left e) (addLeft left e) := by
  induction e with
  | bin op b c ihb ihc =>
      cases op with
      | add => exact .head (.add left b c) (Regroups.steps_left .add c ihb)
      | sub => exact .head (.sub left b c) (Regroups.steps_left .sub c ihb)
      | mul | div | pow => exact .refl
  | num | var | neg | app => exact .refl

/-- A product is regrouped step by step. -/
theorem steps_mulLeft (left e : Expr α) :
    ReflTransGen Regroups (bin .mul left e) (mulLeft left e) := by
  induction e with
  | bin op b c ihb ihc =>
      cases op with
      | mul => exact .head (.mul left b c) (Regroups.steps_left .mul c ihb)
      | add | sub | div | pow => exact .refl
  | num | var | neg | app => exact .refl

/-- Steps lead from an expression to the regrouped one. -/
theorem steps_regroup (e : Expr α) : ReflTransGen Regroups e e.regroup := by
  induction e with
  | num v => exact .refl
  | var x => exact .refl
  | bin op a b iha ihb =>
      have hab := Regroups.steps_bin op iha ihb
      cases op with
      | add => exact hab.trans (steps_addLeft _ _)
      | mul => exact hab.trans (steps_mulLeft _ _)
      | sub | div | pow => exact hab
  | neg a ih => exact ih.lift neg fun _ _ hs => .neg hs
  | app f a ih => exact ih.lift (app f) fun _ _ hs => .app f hs

/-! ## no step changes where they lead -/

/-- Terms may be added to the left in any order of grouping. -/
theorem addLeft_assoc (a b c : Expr α) :
    addLeft a (addLeft b c) = addLeft (addLeft a b) c := by
  induction c with
  | bin op c d ihc ihd =>
      cases op with
      | add => simp only [addLeft, ihc]
      | sub => simp only [addLeft, ihc]
      | mul | div | pow => rfl
  | num | var | neg | app => rfl

/-- Factors may be multiplied to the left in any order of grouping. -/
theorem mulLeft_assoc (a b c : Expr α) :
    mulLeft a (mulLeft b c) = mulLeft (mulLeft a b) c := by
  induction c with
  | bin op c d ihc ihd =>
      cases op with
      | mul => simp only [mulLeft, ihc]
      | add | sub | div | pow => rfl
  | num | var | neg | app => rfl

/-- A step does not change what the expression is regrouped to. -/
theorem Regroups.regroup_eq {e e' : Expr α} (h : Regroups e e') : e.regroup = e'.regroup := by
  induction h with
  | add a b c => exact addLeft_assoc _ _ _
  | sub a b c => rfl
  | mul a b c => exact mulLeft_assoc _ _ _
  | left op b h ih => cases op <;> simp only [regroup, ih]
  | right op a h ih => cases op <;> simp only [regroup, ih]
  | neg h ih => rw [regroup, regroup, ih]
  | app f h ih => rw [regroup, regroup, ih]

/-- No number of steps changes what the expression is regrouped to. -/
theorem regroup_eq_of_steps {e e' : Expr α} (h : ReflTransGen Regroups e e') :
    e.regroup = e'.regroup := by
  induction h with
  | refl => rfl
  | tail _ hs ih => rw [ih, hs.regroup_eq]

/-! ## where no step leads on -/

/-- What is added on the right is no sum if no step leads on. -/
theorem not_isAdditive_of_done {a b : Expr α} (h : ∀ e', ¬Regroups (bin .add a b) e') :
    b.isAdditive = false := by
  cases b with
  | bin op c d =>
      cases op with
      | add => exact absurd (.add a c d) (h _)
      | sub => exact absurd (.sub a c d) (h _)
      | mul | div | pow => rfl
  | num | var | neg | app => rfl

/-- Where no step leads on, no right factor is a product. -/
theorem not_isProduct_of_done {a b : Expr α} (h : ∀ e', ¬Regroups (bin .mul a b) e') :
    b.isProduct = false := by
  cases b with
  | bin op c d =>
      cases op with
      | mul => exact absurd (.mul a c d) (h _)
      | add | sub | div | pow => rfl
  | num | var | neg | app => rfl

/-- An expression from which no step leads on is regrouped already. -/
theorem regroup_eq_self {e : Expr α} (h : ∀ e', ¬Regroups e e') : e.regroup = e := by
  induction e with
  | num v => rfl
  | var x => rfl
  | bin op a b iha ihb =>
      have ha := iha fun a' hs => h _ (.left op b hs)
      have hb := ihb fun b' hs => h _ (.right op a hs)
      cases op with
      | add => rw [regroup, ha, hb, addLeft_of_not (not_isAdditive_of_done h)]
      | mul => rw [regroup, ha, hb, mulLeft_of_not (not_isProduct_of_done h)]
      | sub | div | pow => simp only [regroup, ha, hb]
  | neg a ih => rw [regroup, ih fun a' hs => h _ (.neg hs)]
  | app f a ih => rw [regroup, ih fun a' hs => h _ (.app f hs)]

/-- No step leads on if none does in the operands and neither is to be taken apart. -/
theorem done_bin {op : BinOp} {a b : Expr α} (ha : ∀ e', ¬Regroups a e')
    (hb : ∀ e', ¬Regroups b e') (hadd : op = .add → b.isAdditive = false)
    (hmul : op = .mul → b.isProduct = false) : ∀ e', ¬Regroups (bin op a b) e' := by
  intro e' hs
  cases hs with
  | add a b c => exact absurd (hadd rfl) (by simp [isAdditive, BinOp.isAdditive])
  | sub a b c => exact absurd (hadd rfl) (by simp [isAdditive, BinOp.isAdditive])
  | mul a b c => exact absurd (hmul rfl) (by simp [isProduct])
  | left op b h => exact ha _ h
  | right op a h => exact hb _ h

/-- No step leads on from a regrouped sum. -/
theorem done_addLeft {a b : Expr α} (ha : ∀ e', ¬Regroups a e') (hb : ∀ e', ¬Regroups b e') :
    ∀ e', ¬Regroups (addLeft a b) e' := by
  induction b with
  | bin op c d ihc ihd =>
      have hc : ∀ e', ¬Regroups c e' := fun c' hs => hb _ (.left op d hs)
      have hd : ∀ e', ¬Regroups d e' := fun d' hs => hb _ (.right op c hs)
      cases op with
      | add => exact done_bin (ihc hc) hd (fun _ => not_isAdditive_of_done hb) fun h => nomatch h
      | sub => exact done_bin (ihc hc) hd (fun h => nomatch h) fun h => nomatch h
      | mul | div | pow => exact done_bin ha hb (fun _ => rfl) fun h => nomatch h
  | num | var | neg | app => exact done_bin ha hb (fun _ => rfl) fun h => nomatch h

/-- No step leads on from a regrouped product. -/
theorem done_mulLeft {a b : Expr α} (ha : ∀ e', ¬Regroups a e') (hb : ∀ e', ¬Regroups b e') :
    ∀ e', ¬Regroups (mulLeft a b) e' := by
  induction b with
  | bin op c d ihc ihd =>
      have hc : ∀ e', ¬Regroups c e' := fun c' hs => hb _ (.left op d hs)
      have hd : ∀ e', ¬Regroups d e' := fun d' hs => hb _ (.right op c hs)
      cases op with
      | mul => exact done_bin (ihc hc) hd (fun h => nomatch h) fun _ => not_isProduct_of_done hb
      | add | sub | div | pow => exact done_bin ha hb (fun h => nomatch h) fun _ => rfl
  | num | var | neg | app => exact done_bin ha hb (fun h => nomatch h) fun _ => rfl

/-- No step leads on from a regrouped expression. -/
theorem done_regroup (e : Expr α) : ∀ e', ¬Regroups e.regroup e' := by
  induction e with
  | num v => exact fun e' hs => nomatch hs
  | var x => exact fun e' hs => nomatch hs
  | bin op a b iha ihb =>
      cases op with
      | add => exact done_addLeft iha ihb
      | mul => exact done_mulLeft iha ihb
      | sub | div | pow => exact done_bin iha ihb (fun h => nomatch h) fun h => nomatch h
  | neg a ih =>
      intro e' hs
      cases hs with
      | neg hs => exact ih _ hs
  | app f a ih =>
      intro e' hs
      cases hs with
      | app f hs => exact ih _ hs

/-- Steps of regrouping, in whatever order, end at the same expression. -/
theorem regroupsTo_iff {e r : Expr α} : RegroupsTo e r ↔ e.regroup = r := by
  constructor
  · intro h
    rw [regroup_eq_of_steps h.steps, regroup_eq_self h.done]
  · intro h
    rw [← h]
    exact ⟨steps_regroup e, done_regroup e⟩

end Fluxion.Expr

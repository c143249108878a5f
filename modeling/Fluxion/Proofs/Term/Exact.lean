import Fluxion.Proofs.Noted
import Fluxion.Proofs.Expr.Reading
import Fluxion.Proofs.Term.Tests

/-!
# Fluxion.Proofs.Term.Exact

The rules of simplification over double precision numbers and over the reals.

A rule does the same over both, as long as no literal that it compares is merely near the number
that it is compared with, and what it folds is exact.  Only the direction from the reals matters: a
rule that does not fail over the reals does not fail over double precision numbers, and puts in the
node's place what is read as the other's result (`Term.Carries`).

* `Term.Fold.Exact`, `Term.binFolds`: the operations that are carried out on literals;
* `Term.carries_reduceBin`, `Term.reduceNum_rel`, `Term.reduceNeg_rel`, `Term.carries_reduceApp`:
  the four kinds of nodes.
-/

namespace Fluxion.Term

open Fluxion.Expr (Reads ReadsAs ViewReads)

/-- An operation on two numbers that is carried out. -/
structure Fold where
  op : BinOp
  left : Float
  right : Float

/-- Wherever the operation has a value over the reals, its result is finite and is that value. -/
def Fold.Exact (c : Fold) : Prop :=
  c.op.DefinedAt (Binary64.value c.left) (Binary64.value c.right) →
    ∃ v, c.op.compute c.left c.right = .ok v ∧ Arith.finite v = true ∧
      Binary64.value v = c.op.real (Binary64.value c.left) (Binary64.value c.right)

/-- The operations on numbers that are carried out at a binary node. -/
def binFolds (op : BinOp) (a b : Expr Float) : List Fold :=
  match literal? a, literal? b with
  | some v, some w => [⟨op, v, w⟩]
  | _, _ => []

/-- All operations of a list are exact. -/
def AllExact (cs : List Fold) : Prop := ∀ c ∈ cs, c.Exact

theorem allExact_append {cs ds : List Fold} : AllExact (cs ++ ds) ↔ AllExact cs ∧ AllExact ds :=
  List.forall_mem_append

/-- A rule does over double precision numbers what it does over the reals. -/
abbrev Carries (x : Simplifying Float (Expr Float) (Option (Expr Float)))
    (y : Simplifying ℝ (Expr ℝ) (Option (Expr ℝ))) : Prop :=
  Noted.Follows (Option.Rel Reads) x y

section

variable {a b : Expr Float} {a' b' : Expr ℝ} {op : BinOp}

theorem carries_none : Carries (pure none) (pure none) := Noted.follows_pure .none

theorem carries_some (h : Reads a a') : Carries (pure (some a)) (pure (some a')) :=
  Noted.follows_pure (.some h)

/-! ## comparisons -/

theorem isNear_eq {w : Float} {w' : ℝ} (hw : ReadsAs w w') (ha : Reads a a')
    (ht : AllSharp (nearTest w' a')) : isNear w a = isNear w' a' := by
  cases ha with
  | num h => exact h.near hw (ht _ (List.mem_singleton.mpr rfl))
  | var | bin | neg | app => rfl

/-- One link in a chain of comparisons. -/
theorem carries_ite {w : Float} {w' : ℝ} {rest : List (ℝ × Expr ℝ)}
    {p q : Simplifying Float (Expr Float) (Option (Expr Float))}
    {p' q' : Simplifying ℝ (Expr ℝ) (Option (Expr ℝ))} (hw : ReadsAs w w') (ha : Reads a a')
    (ht : AllSharp (untilNear ((w', a') :: rest))) (hp : Carries p p')
    (hq : AllSharp (untilNear rest) → Carries q q') :
    Carries (if isNear w a then p else q) (if isNear w' a' then p' else q') := by
  rw [isNear_eq hw ha (allSharp_append.mp ht).1]
  rcases untilNear_cons ht with ⟨hn, -⟩ | ⟨hn, hrest⟩
  · rw [if_pos hn, if_pos hn]
    exact hp
  · rw [if_neg (by simp [hn]), if_neg (by simp [hn])]
    exact hq hrest

/-! ## the rules of binary nodes -/

/-- What is folded over the reals is folded exactly.  Where the operation has no value, the run
over the reals ends. -/
theorem carries_fold {v w : Float} {r q : ℝ} (hv : ReadsAs v r) (hw : ReadsAs w q)
    (h : Fold.Exact ⟨op, v, w⟩) :
    Carries (fold .strict op a b v w) (fold .strict op a' b' r q) := by
  unfold fold
  rw [hv.isZero, hw.negative]
  by_cases hz : op = .pow ∧ Arith.isZero r = true ∧ Arith.negative q = true
  · rw [if_pos hz, if_pos hz]
    exact Noted.follows_of_error rfl
  · rw [if_neg hz, if_neg hz]
    cases hc : op.compute r q with
    | error f => cases f <;> exact Noted.follows_of_error rfl
    | ok x =>
        obtain ⟨hd, rfl⟩ := compute_eq_ok.mp hc
        obtain ⟨hfv, rfl⟩ := hv
        obtain ⟨hfw, rfl⟩ := hw
        obtain ⟨u, hu, hfinite, hvalue⟩ := h hd
        have hresult : ReadsAs u (op.real (Binary64.value v) (Binary64.value w)) :=
          ⟨hfinite, hvalue⟩
        rw [hu]
        simp only [hfinite, real_finite, if_true]
        exact carries_some hresult.plus_zero.literal

/-- Negations move in the same way. -/
theorem hoistNeg?_rel (ha : Reads a a') (hb : Reads b b') :
    Option.Rel Reads (hoistNeg? op a b) (hoistNeg? op a' b') := by
  have hva := ha.view
  have hvb := hb.view
  unfold hoistNeg?
  generalize view a = va at hva ⊢
  generalize view a' = va' at hva ⊢
  generalize view b = vb at hvb ⊢
  generalize view b' = vb' at hvb ⊢
  cases op <;> cases hva <;> cases hvb <;>
    first
    | exact .none
    | exact .some (.bin _ (by assumption) (by assumption))
    | exact .some (.neg (.bin _ (by assumption) (by assumption)))

theorem isNeg_eq (ha : Reads a a') : isNeg a = isNeg a' := by
  cases ha <;> rfl

/-- Absorbing factors, one after the other. -/
theorem identity_mul {α β : Type} [Arith α] [Term α β] (s : Strictness) (a b : β) :
    identity s .mul a b =
      if nearZero a then pure (some (num Arith.zero))
      else if nearZero b then pure (some (num Arith.zero))
      else if nearOne b then pure (some a)
      else if nearOne a then pure (some b)
      else pure none := by
  cases h : nearZero a <;> simp [identity, h]

/-- Neutral and absorbing operands. -/
theorem carries_identity (ha : Reads a a') (hb : Reads b b')
    (ht : AllSharp (identityTests op a' b')) :
    Carries (identity .strict op a b) (identity .strict op a' b') := by
  have h0 : Reads (num Arith.zero) (num Arith.zero) := .num Expr.readsAs_zero
  have h1 : Reads (num Arith.one) (num Arith.one) := .num Expr.readsAs_one
  cases op with
  | add =>
      exact carries_ite Expr.readsAs_zero hb ht (carries_some ha) fun ht =>
        carries_ite Expr.readsAs_zero ha ht (carries_some hb) fun _ => carries_none
  | sub =>
      exact carries_ite Expr.readsAs_zero hb ht (carries_some ha) fun ht =>
        carries_ite Expr.readsAs_zero ha ht (carries_some hb.neg) fun _ => carries_none
  | mul =>
      rw [identity_mul, identity_mul]
      exact carries_ite Expr.readsAs_zero ha ht (carries_some h0) fun ht =>
        carries_ite Expr.readsAs_zero hb ht (carries_some h0) fun ht =>
        carries_ite Expr.readsAs_one hb ht (carries_some ha) fun ht =>
        carries_ite Expr.readsAs_one ha ht (carries_some hb) fun _ => carries_none
  | div =>
      exact carries_ite Expr.readsAs_zero hb ht (Noted.follows_of_error rfl) fun ht =>
        carries_ite Expr.readsAs_zero ha ht (carries_some h0) fun ht =>
        carries_ite Expr.readsAs_one hb ht (carries_some ha) fun _ => carries_none
  | pow =>
      refine carries_ite Expr.readsAs_zero hb ht (carries_some h1) fun ht =>
        carries_ite Expr.readsAs_one hb ht (carries_some ha) fun ht =>
        carries_ite Expr.readsAs_one ha ht (carries_some h1) fun ht => ?_
      rw [isNeg_eq hb]
      cases isNeg b' with
      | true =>
          rw [if_neg (by simp), if_neg (by simp)]
          exact carries_none
      | false =>
          simp only [Bool.not_false, Bool.and_true]
          exact carries_ite Expr.readsAs_zero ha ht (carries_some h0) fun _ => carries_none

/-- Equal operands. -/
theorem collapse?_rel (ha : Reads a a') (hb : Reads b b') :
    Option.Rel Reads (collapse? op a b) (collapse? op a' b') := by
  have h0 : Reads (num Arith.zero) (num Arith.zero) := .num Expr.readsAs_zero
  have h1 : Reads (num Arith.one) (num Arith.one) := .num Expr.readsAs_one
  have h2 : Reads (num Arith.two) (num Arith.two) := .num Expr.readsAs_two
  have hsame : same a b = same a' b' := ha.same hb
  unfold collapse?
  rw [hsame]
  split
  · cases op with
    | add => exact .some (.bin .mul h2 ha)
    | sub => exact .some h0
    | mul => exact .some (.bin .pow ha h2)
    | div => exact .some h1
    | pow => exact .none
  · exact .none

/-- Whole powers of negations. -/
theorem carries_negBase (ha : Reads a a') (hb : Reads b b')
    (ht : AllSharp (negBaseTests op a' b')) : Carries (negBase op a b) (negBase op a' b') := by
  cases op with
  | add | sub | mul | div => exact carries_none
  | pow =>
      cases ha with
      | num | var | bin | app => exact carries_none
      | neg hc =>
          cases hb with
          | var | bin | neg | app => exact carries_none
          | num hn =>
              obtain ⟨hfinite, rfl⟩ := hn
              have hparity := parity_value hfinite (ht _ (List.mem_singleton.mpr rfl))
              have hnum := Reads.num ⟨hfinite, rfl⟩
              simp only [negBase, view, Expr.view, hparity]
              rcases Arith.parity Arith.tolerance (Binary64.value _) with f | _ | _ | _
              · exact Noted.follows_of_error rfl
              · exact carries_none
              · exact carries_some (.bin .pow hc hnum)
              · exact carries_some (.neg (.bin .pow hc hnum))

/-! ## nodes of every kind -/

/-- The rules of binary nodes in their order. -/
theorem carries_reduceBin (ha : Reads a a') (hb : Reads b b') (hf : AllExact (binFolds op a b))
    (ht : AllSharp (binTests .strict op a' b')) :
    Carries (reduceBin .strict op a b) (reduceBin .strict op a' b') := by
  unfold reduceBin
  unfold binFolds at hf
  unfold binTests at ht
  have hla := ha.literal?
  have hlb := hb.literal?
  generalize literal? a = la at hla hf ⊢
  generalize literal? a' = la' at hla ht ⊢
  generalize literal? b = lb at hlb hf ⊢
  generalize literal? b' = lb' at hlb ht ⊢
  cases hla <;> cases hlb
  case some.some v r hv w q hw => exact carries_fold hv hw (hf _ (List.mem_singleton.mpr rfl))
  all_goals
    have hhoist : Option.Rel Reads (hoistNeg? op a b) (hoistNeg? op a' b') := hoistNeg?_rel ha hb
    generalize hoistNeg? op a b = oh at hhoist ⊢
    generalize hoistNeg? op a' b' = oh' at hhoist ht ⊢
    cases hhoist with
    | some h => exact carries_some h
    | none =>
        obtain ⟨hid, hrest⟩ := allSharp_append.mp ht
        refine (carries_identity ha hb hid).bind fun o o' ho ho' hrel => ?_
        cases hrel with
        | some h => exact carries_some h
        | none =>
            rw [ho'] at hrest
            have hcollapse : Option.Rel Reads (collapse? op a b) (collapse? op a' b') :=
              collapse?_rel ha hb
            dsimp only
            generalize collapse? op a b = oc at hcollapse ⊢
            generalize collapse? op a' b' = oc' at hcollapse hrest ⊢
            cases hcollapse with
            | some h => exact carries_some h
            | none => exact carries_negBase ha hb hrest

theorem reduceNum_rel {v : Float} {r : ℝ} (h : ReadsAs v r) :
    Option.Rel Reads (reduceNum v) (reduceNum r) := by
  unfold reduceNum
  rw [h.negative]
  split
  · exact .some h.plus_zero.literal
  · exact .none

theorem reduceNeg_rel (ha : Reads a a') (ht : AllSharp (negTests a')) :
    Option.Rel Reads (reduceNeg a) (reduceNeg a') := by
  have h0 : Reads (num Arith.zero) (num Arith.zero) := .num Expr.readsAs_zero
  cases ha with
  | neg h => exact .some h
  | @num v r h =>
      have hnear : nearZero (Expr.num v) = nearZero (Expr.num r) :=
        isNear_eq Expr.readsAs_zero (.num h) ht
      simp only [reduceNeg, view, Expr.view, hnear]
      by_cases hn : nearZero (Expr.num r) = true
      · rw [if_pos hn, if_pos hn]
        exact .some h0
      · rw [if_neg hn, if_neg hn]
        exact .none
  | var | bin | app => exact .none

theorem carries_reduceApp {f : Fn} (ha : Reads a a') (ht : AllSharp (appTests a')) :
    Carries (reduceApp .strict f a) (reduceApp .strict f a') := by
  have h0 : Reads (num Arith.zero) (num Arith.zero) := .num Expr.readsAs_zero
  have h1 : Reads (num Arith.one) (num Arith.one) := .num Expr.readsAs_one
  refine carries_ite Expr.readsAs_zero ha ht ?_ fun ht =>
    carries_ite Expr.readsAs_one ha ht ?_ fun _ => ?_
  · cases f with
    | sin | tan | arcsin | arctan | sqrt => exact carries_some h0
    | cos => exact carries_some h1
    | ln | cot => exact Noted.follows_of_error rfl
    | arccos | arccot => exact carries_none
  · cases f with
    | ln => exact carries_some h0
    | sqrt => exact carries_some h1
    | sin | cos | tan | cot | arcsin | arccos | arctan | arccot => exact carries_none
  · cases ha with
    | num | var | bin | app => exact carries_none
    | neg h =>
        cases f with
        | cos => exact carries_some (.app .cos h)
        | sin | tan | cot | arcsin | arctan => exact carries_some (.neg (.app _ h))
        | arccos | arccot | sqrt | ln => exact carries_none

end

end Fluxion.Term

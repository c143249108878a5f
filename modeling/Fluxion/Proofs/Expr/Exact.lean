import Fluxion.Expr.Simplify
import Fluxion.Proofs.Term.Exact

/-!
# Fluxion.Proofs.Expr.Exact

Passes over double precision numbers that do what passes over the reals do.

As with comparisons (`Expr.runTests`), only the operations that a run comes across have to be exact,
and `Expr.runFolds` lists them.

* `Expr.follows_pass`, `Expr.follows_passes`: one pass, and a run of passes.
-/

namespace Fluxion.Expr

open Term (Fold AllExact allExact_append AllSharp allSharp_append)

/-! ## operations of a run -/

/-- The operations on numbers that one pass carries out.  Those at a node follow those below it. -/
def passFolds (s : Strictness) : Expr Float → List Fold
  | num _ | var _ => []
  | bin op a b =>
    passFolds s a ++
      match (pass s a).result with
      | .error _ => []
      | .ok (a', _) =>
        passFolds s b ++
          match (pass s b).result with
          | .error _ => []
          | .ok (b', _) => Term.binFolds op a' b'
  | neg a | app _ a => passFolds s a

/-- The operations on numbers of at most `n` passes. -/
def runFolds (s : Strictness) : Nat → Expr Float → List Fold
  | 0, _ => []
  | n + 1, e =>
    passFolds s e ++
      match (pass s e).result with
      | .ok (e', true) => runFolds s n e'
      | _ => []

/-! ## passes over the reals and over double precision numbers -/

/-- The results of two passes: the expressions correspond, and both passes or neither changed
something. -/
structure ReadsPass (p : Expr Float × Bool) (p' : Expr ℝ × Bool) : Prop where
  reads : Reads p.1 p'.1
  changed : p.2 = p'.2

theorem readsPass_settled {below : Bool} {e : Expr Float} {e' : Expr ℝ} {o : Option (Expr Float)}
    {o' : Option (Expr ℝ)} (he : Reads e e') (ho : Option.Rel Reads o o') :
    ReadsPass (settled below e o) (settled below e' o') := by
  cases ho with
  | some h => exact ⟨h, rfl⟩
  | none => exact ⟨he, rfl⟩

/-- If a pass over the reals does not fail, and the operations of the pass over double precision
numbers are exact, the two passes do the same. -/
theorem follows_pass {e : Expr Float} {e' : Expr ℝ} (h : Reads e e')
    (hf : AllExact (passFolds .strict e)) (ht : AllSharp (passTests .strict e')) :
    Noted.Follows ReadsPass (pass .strict e) (pass .strict e') := by
  induction h with
  | num h => exact Noted.follows_pure (readsPass_settled (.num h) (Term.reduceNum_rel h))
  | var x => exact Noted.follows_pure ⟨.var x, rfl⟩
  | bin op ha hb iha ihb =>
      obtain ⟨hfa, hf⟩ := allExact_append.mp hf
      obtain ⟨hta, ht⟩ := allSharp_append.mp ht
      refine (iha hfa hta).bind fun p p' hp hp' hr => ?_
      obtain ⟨a, ca⟩ := p
      obtain ⟨a', ca'⟩ := p'
      obtain ⟨hra, rfl⟩ := hr
      rw [hp] at hf
      rw [hp'] at ht
      obtain ⟨hfb, hf⟩ := allExact_append.mp hf
      obtain ⟨htb, ht⟩ := allSharp_append.mp ht
      refine (ihb hfb htb).bind fun p p' hp hp' hr => ?_
      obtain ⟨b, cb⟩ := p
      obtain ⟨b', cb'⟩ := p'
      obtain ⟨hrb, rfl⟩ := hr
      rw [hp] at hf
      rw [hp'] at ht
      refine (Term.carries_reduceBin hra hrb hf ht).bind fun o o' _ _ ho => ?_
      exact Noted.follows_pure (readsPass_settled (.bin op hra hrb) ho)
  | neg ha ih =>
      obtain ⟨hta, ht⟩ := allSharp_append.mp ht
      refine (ih hf hta).bind fun p p' _ hp' hr => ?_
      obtain ⟨a, ca⟩ := p
      obtain ⟨a', ca'⟩ := p'
      obtain ⟨hra, rfl⟩ := hr
      rw [hp'] at ht
      exact Noted.follows_pure (readsPass_settled (.neg hra) (Term.reduceNeg_rel hra ht))
  | app f ha ih =>
      obtain ⟨hta, ht⟩ := allSharp_append.mp ht
      refine (ih hf hta).bind fun p p' _ hp' hr => ?_
      obtain ⟨a, ca⟩ := p
      obtain ⟨a', ca'⟩ := p'
      obtain ⟨hra, rfl⟩ := hr
      rw [hp'] at ht
      refine (Term.carries_reduceApp hra ht).bind fun o o' _ _ ho => ?_
      exact Noted.follows_pure (readsPass_settled (.app f hra) ho)

/-- The same for runs of passes. -/
theorem follows_passes {n : ℕ} {e : Expr Float} {e' : Expr ℝ} (h : Reads e e')
    (hf : AllExact (runFolds .strict n e)) (ht : AllSharp (runTests .strict n e')) :
    Noted.Follows ReadsPass (passes .strict n e) (passes .strict n e') := by
  induction n generalizing e e' with
  | zero => exact Noted.follows_pure ⟨h, rfl⟩
  | succ n ih =>
      obtain ⟨hfp, hf⟩ := allExact_append.mp hf
      obtain ⟨htp, ht⟩ := allSharp_append.mp ht
      refine (follows_pass h hfp htp).bind fun p p' hp hp' hr => ?_
      obtain ⟨e₁, c⟩ := p
      obtain ⟨e₁', c'⟩ := p'
      obtain ⟨hr, rfl⟩ := hr
      rw [hp] at hf
      rw [hp'] at ht
      cases c with
      | true => exact ih hr hf ht
      | false => exact Noted.follows_pure ⟨hr, rfl⟩

end Fluxion.Expr

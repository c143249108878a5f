import Fluxion.Formula.Calculus
import Fluxion.Proofs.Term.Rules

/-!
# Fluxion.Proofs.Expr.Simplify

Simplification keeps the value of an expression.

The invariant of a run is `Expr.Denotes`: the expression has its value, and zero is nowhere raised
to the power of zero.  A pass keeps it, by induction on the expression with one rule lemma for each
kind of node (`Fluxion.Proofs.Term.Rules`), and so do any number of passes, whether or not the last
one changed something.

* `Expr.pass_denotes`, `Expr.passes_denotes`: one pass, and a run of passes;
* `Formula.evaluate_simplify`: the simplified formula.
-/

namespace Fluxion

namespace Expr

open Term (AllSharp allSharp_append)

variable {env : Assignment ℝ} {s : Strictness} {v : ℝ}

theorem settled_denotes {below : Bool} {e : Expr ℝ} {o : Option (Expr ℝ)} (h : Denotes env e v)
    (ho : ∀ t, o = some t → Denotes env t v) : Denotes env (settled below e o).1 v := by
  cases o with
  | none => exact h
  | some t => exact ho t rfl

/-- A pass does not fail on an expression with a value, and keeps the value. -/
theorem pass_denotes {e : Expr ℝ} (h : Denotes env e v) (ht : AllSharp (passTests s e)) :
    ∃ p, (pass s e).result = .ok p ∧ Denotes env p.1 v := by
  induction e generalizing v with
  | num w => exact ⟨_, rfl, settled_denotes h fun t hr => Term.denotes_reduceNum h hr⟩
  | var x => exact ⟨_, rfl, h⟩
  | bin op a b iha ihb =>
      obtain ⟨x, y, hx, hy, hop⟩ := denotes_bin.mp h
      obtain ⟨hta, ht⟩ := allSharp_append.mp ht
      obtain ⟨⟨a', ca⟩, ha, hx'⟩ := iha hx hta
      rw [ha] at ht
      obtain ⟨htb, ht⟩ := allSharp_append.mp ht
      obtain ⟨⟨b', cb⟩, hb, hy'⟩ := ihb hy htb
      rw [hb] at ht
      have h' : Denotes env (bin op a' b') v := denotes_bin.mpr ⟨x, y, hx', hy', hop⟩
      obtain ⟨o, ho, hkeep⟩ := Term.keeps_reduceBin h' ht
      refine ⟨settled (ca || cb) (bin op a' b') o, ?_, settled_denotes h' hkeep⟩
      rw [pass, Noted.bind_result_of_ok ha, Noted.bind_result_of_ok hb, Noted.bind_result_of_ok ho]
      rfl
  | neg a ih =>
      obtain ⟨x, hx, hv⟩ := denotes_neg.mp h
      obtain ⟨hta, ht⟩ := allSharp_append.mp ht
      obtain ⟨⟨a', ca⟩, ha, hx'⟩ := ih hx hta
      rw [ha] at ht
      have h' : Denotes env (neg a') v := denotes_neg.mpr ⟨x, hx', hv⟩
      refine ⟨settled ca (neg a') (Term.reduceNeg a'), ?_,
        settled_denotes h' fun t hr => Term.denotes_reduceNeg h' ht hr⟩
      rw [pass, Noted.bind_result_of_ok ha]
      rfl
  | app f a ih =>
      obtain ⟨x, hx, hf⟩ := denotes_app.mp h
      obtain ⟨hta, ht⟩ := allSharp_append.mp ht
      obtain ⟨⟨a', ca⟩, ha, hx'⟩ := ih hx hta
      rw [ha] at ht
      have h' : Denotes env (app f a') v := denotes_app.mpr ⟨x, hx', hf⟩
      obtain ⟨o, ho, hkeep⟩ := Term.keeps_reduceApp h' ht
      refine ⟨settled ca (app f a') o, ?_, settled_denotes h' hkeep⟩
      rw [pass, Noted.bind_result_of_ok ha, Noted.bind_result_of_ok ho]
      rfl

/-- A run of passes keeps the value, wherever it stops. -/
theorem passes_denotes {n : Nat} {e : Expr ℝ} (h : Denotes env e v)
    (ht : AllSharp (runTests s n e)) :
    ∃ e' settled, (passes s n e).result = .ok (e', settled) ∧ Denotes env e' v := by
  induction n generalizing e with
  | zero => exact ⟨e, false, rfl, h⟩
  | succ n ih =>
      obtain ⟨hpass, hrest⟩ := allSharp_append.mp ht
      obtain ⟨⟨e', changed⟩, he', h'⟩ := pass_denotes h hpass
      rw [he'] at hrest
      cases changed with
      | true =>
          obtain ⟨e'', settled, he'', h''⟩ := ih h' hrest
          refine ⟨e'', settled, ?_, h''⟩
          rw [passes, untilSettled, Noted.bind_result_of_ok he']
          exact he''
      | false =>
          refine ⟨e', true, ?_, h'⟩
          rw [passes, untilSettled, Noted.bind_result_of_ok he']
          rfl

/-- A whole number that is not below zero is left as it is. -/
theorem pass_natCast (s : Strictness) (n : ℕ) :
    (pass s (num (n : ℝ))).result = .ok (num (n : ℝ), false) := by
  have h : ¬Arith.negative (n : ℝ) = true := by
    rw [real_negative, not_lt]
    exact Nat.cast_nonneg n
  rw [pass, Term.reduceNum, if_neg h]
  rfl

theorem pass_zero (s : Strictness) : (pass s (num (0 : ℝ))).result = .ok (num 0, false) := by
  have h := pass_natCast s 0
  rwa [Nat.cast_zero] at h

theorem pass_one (s : Strictness) : (pass s (num (1 : ℝ))).result = .ok (num 1, false) := by
  have h := pass_natCast s 1
  rwa [Nat.cast_one] at h

end Expr

namespace Formula

/-- The simplified formula is what the passes leave, whether they settled or not. -/
theorem simplify_result [Numeral ℝ] {s : Strictness} {f : Formula ℝ} {e : Expr ℝ} {settled : Bool}
    (h : (Expr.passes s maxPasses f.root).result = .ok (e, settled)) :
    (f.simplify s).result = .ok (f.withRoot e) := by
  have hm : ((Expr.passes s maxPasses f.root).mapNotes diagnosticNotes).result =
      .ok (e, settled) := h
  rw [simplify, Noted.bind_result_of_ok hm]
  cases settled <;> rfl

/-- **Simplification keeps the value.**  Over the reals, let a formula have a value under an
assignment, with zero nowhere raised to the power of zero, and let no literal that the rules compare
be merely close to the number that it is compared with.  Then no number of passes fails, strict or
not, and what the passes leave has the same value; so has the simplified formula. -/
theorem evaluate_simplify [Numeral ℝ] (s : Strictness) (f : Formula ℝ) (env : Assignment ℝ)
    (v : ℝ) (hv : f.evaluate env = .ok v) (hz : f.root.ZeroPowerFree env) :
    (∀ n, Term.AllSharp (Expr.runTests s n f.root) →
      ∃ e settled, (Expr.passes s n f.root).result = .ok (e, settled) ∧ e.evaluate env = .ok v) ∧
    (Term.AllSharp (Expr.runTests s maxPasses f.root) →
      ∃ g, (f.simplify s).result = .ok g ∧ g.vars = f.vars ∧ g.evaluate env = .ok v) := by
  have h : Expr.Denotes env f.root v := ⟨hv, hz⟩
  constructor
  · intro n ht
    obtain ⟨e, settled, he, h'⟩ := Expr.passes_denotes h ht
    exact ⟨e, settled, he, h'.1⟩
  · intro ht
    obtain ⟨e, settled, he, h'⟩ := Expr.passes_denotes h ht
    exact ⟨f.withRoot e, simplify_result he, rfl, h'.1⟩

/-- The double negation of a variable, times one. -/
private noncomputable def signedProduct : Expr ℝ := .bin .mul (.neg (.neg (.var "x"))) (.num 1)

private theorem pass_signs (s : Strictness) :
    (Expr.pass s (.neg (.neg (.var "x") : Expr ℝ))).result = .ok (.var "x", true) := rfl

/-- The first pass leaves the variable alone, which is the end of the run. -/
private theorem pass_signedProduct (s : Strictness) :
    (Expr.pass s signedProduct).result = .ok (.var "x", true) := by
  have h0 : Term.nearZero (Expr.num (1 : ℝ)) = false := real_not_near_one_zero
  have h1 : Term.nearOne (Expr.num (1 : ℝ)) = true := real_near_self 1
  have hid : (Term.identity s .mul (Expr.var "x") (Expr.num (1 : ℝ))).result =
      .ok (some (.var "x")) := by
    simp only [Term.identity, h0, h1]
    rfl
  have hb : (Term.reduceBin s .mul (Expr.var "x") (Expr.num (1 : ℝ))).result =
      .ok (some (.var "x")) := Noted.bind_result_of_ok hid _
  rw [signedProduct, Expr.pass, Noted.bind_result_of_ok (pass_signs s),
    Noted.bind_result_of_ok (Expr.pass_one s), Noted.bind_result_of_ok hb]
  rfl

/-- The run compares the literal with zero and with one, and no literal else. -/
private theorem allSharp_signedProduct (s : Strictness) (n : Nat) :
    Term.AllSharp (Expr.runTests s (n + 1) signedProduct) := by
  rw [Expr.runTests, pass_signedProduct]
  refine Term.allSharp_append.mpr ⟨?_, ?_⟩
  · rw [signedProduct, Expr.passTests, pass_signs, Expr.pass_one]
    refine Term.allSharp_append.mpr ⟨Term.allSharp_nil, Term.allSharp_append.mpr
      ⟨Term.allSharp_nil, Term.allSharp_append.mpr ⟨?_, ?_⟩⟩⟩
    · refine Term.allSharp_untilNear ?_
      have h0 := Term.allSharp_of_not_near real_not_near_one_zero
      have h1 := Term.allSharp_self 1
      simp [Term.nearTest, Term.allSharp_nil, h0, h1]
    · split <;> exact Term.allSharp_nil
  · cases n <;> exact Term.allSharp_nil

/-- The value of a double negation times one, at two.  No number is written on the way. -/
theorem evaluate_simplify_signedProduct :
    let f : Formula ℝ := ⟨signedProduct, ["x"]⟩
    f.evaluate (.single "x" 2) = .ok 2 ∧ f.root.ZeroPowerFree (.single "x" 2) ∧
      Term.AllSharp (Expr.runTests .strict maxPasses f.root) ∧
      ∃ g, (@simplify ℝ _ ⟨fun _ => "", fun _ => "", fun _ => ""⟩ .strict f).result = .ok g ∧
        g.vars = ["x"] ∧ g.evaluate (.single "x" 2) = .ok 2 := by
  intro f
  have hx : (Expr.var "x").evaluate (.single "x" (2 : ℝ)) = .ok 2 := rfl
  have hneg : (Expr.neg (.neg (.var "x"))).evaluate (.single "x" (2 : ℝ)) = .ok 2 :=
    Expr.evaluate_neg_eq_ok.mpr ⟨-2, Expr.evaluate_neg_eq_ok.mpr ⟨2, hx, rfl⟩, neg_neg 2⟩
  have hv : f.evaluate (.single "x" 2) = .ok 2 :=
    Expr.evaluate_bin_eq_ok.mpr ⟨2, 1, hneg, rfl, compute_eq_ok.mpr ⟨trivial, mul_one 2⟩⟩
  have hz : f.root.ZeroPowerFree (.single "x" 2) := ⟨trivial, trivial, nofun⟩
  have ht : Term.AllSharp (Expr.runTests .strict maxPasses f.root) :=
    allSharp_signedProduct .strict 63
  exact ⟨hv, hz, ht, (@evaluate_simplify ⟨fun _ => "", fun _ => "", fun _ => ""⟩ .strict f
    (.single "x" 2) 2 hv hz).2 ht⟩

end Formula

end Fluxion

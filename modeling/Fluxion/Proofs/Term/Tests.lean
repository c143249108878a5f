import Fluxion.Expr.Simplify
import Fluxion.Proofs.Expr.Value

/-!
# Fluxion.Proofs.Term.Tests

The comparisons of literals that simplification makes on its way.

The rules treat a literal within the tolerance of zero, one or a whole number as if it were that
number.  What they do is right as long as no literal that they come across is merely close, so this
module lists the literals that they do come across: those whose comparison is reached, with the
number that each is compared with, and no others.

* `Term.binTests`, `Term.negTests`, `Term.appTests`: the comparisons at one node;
* `Expr.passTests`: the comparisons of one pass;
* `Expr.runTests`: the comparisons of at most so many passes, until one changes nothing.
-/

namespace Fluxion

namespace Term

/-- A literal and the number that it is compared with. -/
structure Test where
  literal : ℝ
  against : ℝ

/-- A literal that is taken for a number is that number. -/
def Test.Sharp (t : Test) : Prop := Arith.near t.literal t.against = true → t.literal = t.against

/-- The comparison of a term with a number; only literals are compared. -/
def nearTest (w : ℝ) (e : Expr ℝ) : List Test :=
  match e with
  | .num v => [⟨v, w⟩]
  | _ => []

/-- Comparisons one after the other, up to the first that succeeds. -/
noncomputable def untilNear : List (ℝ × Expr ℝ) → List Test
  | [] => []
  | (w, e) :: rest => nearTest w e ++ if isNear w e then [] else untilNear rest

/-! ## comparisons at a node -/

/-- The comparisons for neutral and absorbing operands. -/
noncomputable def identityTests (op : BinOp) (a b : Expr ℝ) : List Test :=
  untilNear <|
    match op with
    | .add | .sub => [(Arith.zero, b), (Arith.zero, a)]
    | .mul => [(Arith.zero, a), (Arith.zero, b), (Arith.one, b), (Arith.one, a)]
    | .div => [(Arith.zero, b), (Arith.zero, a), (Arith.one, b)]
    | .pow => [(Arith.zero, b), (Arith.one, b), (Arith.one, a), (Arith.zero, a)]

/-- The comparison of an exponent with the whole number next to it. -/
noncomputable def negBaseTests (op : BinOp) (a b : Expr ℝ) : List Test :=
  match op, a, b with
  | .pow, .neg _, .num n => [⟨n, round n⟩]
  | _, _, _ => []

/-- The comparisons at a binary node, rule by rule as long as none applies. -/
noncomputable def binTests (s : Strictness) (op : BinOp) (a b : Expr ℝ) : List Test :=
  match literal? a, literal? b with
  | some _, some _ => []
  | _, _ =>
    match hoistNeg? op a b with
    | some _ => []
    | none =>
      identityTests op a b ++
        match (identity s op a b).result, collapse? op a b with
        | .ok none, none => negBaseTests op a b
        | _, _ => []

/-- The comparisons at a negation. -/
noncomputable def negTests (a : Expr ℝ) : List Test :=
  match a with
  | .neg _ => []
  | _ => nearTest Arith.zero a

/-- The comparisons at a function. -/
noncomputable def appTests (a : Expr ℝ) : List Test :=
  untilNear [(Arith.zero, a), (Arith.one, a)]

end Term

namespace Expr

/-! ## comparisons of a run -/

/-- The comparisons of one pass.  Those at a node follow those below it. -/
noncomputable def passTests (s : Strictness) : Expr ℝ → List Term.Test
  | num _ | var _ => []
  | bin op a b =>
    passTests s a ++
      match (pass s a).result with
      | .error _ => []
      | .ok (a', _) =>
        passTests s b ++
          match (pass s b).result with
          | .error _ => []
          | .ok (b', _) => Term.binTests s op a' b'
  | neg a =>
    passTests s a ++
      match (pass s a).result with
      | .error _ => []
      | .ok (a', _) => Term.negTests a'
  | app _ a =>
    passTests s a ++
      match (pass s a).result with
      | .error _ => []
      | .ok (a', _) => Term.appTests a'

/-- The comparisons of at most `n` passes. -/
noncomputable def runTests (s : Strictness) : Nat → Expr ℝ → List Term.Test
  | 0, _ => []
  | n + 1, e =>
    passTests s e ++
      match (pass s e).result with
      | .ok (e', true) => runTests s n e'
      | _ => []

end Expr

namespace Term

/-! ## what sharp comparisons tell -/

/-- All comparisons of a list are sharp. -/
def AllSharp (ts : List Test) : Prop := ∀ t ∈ ts, t.Sharp

theorem allSharp_append {ts us : List Test} : AllSharp (ts ++ us) ↔ AllSharp ts ∧ AllSharp us := by
  simp only [AllSharp, List.mem_append]
  constructor
  · intro h
    exact ⟨fun t ht => h t (Or.inl ht), fun t ht => h t (Or.inr ht)⟩
  · intro hboth t ht
    obtain ⟨h, h'⟩ := hboth
    obtain ht | ht := ht
    · exact h t ht
    · exact h' t ht

theorem allSharp_nil : AllSharp [] := fun _ ht => nomatch ht

/-- A literal is sharply compared with itself. -/
theorem allSharp_self (w : ℝ) : AllSharp [⟨w, w⟩] := by
  intro t ht _
  rw [List.mem_singleton.mp ht]

/-- Whole numbers are near each other only if they are equal. -/
theorem eq_of_near_intCast {k l : ℤ} (h : Arith.near (k : ℝ) (l : ℝ) = true) : k = l := by
  rw [real_near] at h
  have hone : |((k - l : ℤ) : ℝ)| < 1 := by
    push_cast
    exact h.trans (by norm_num [Arith.tolerance])
  have hlt : |k - l| < 1 := by exact_mod_cast hone
  have hzero : k - l = 0 := Int.abs_lt_one_iff.mp hlt
  omega

/-- Whole numbers are sharply compared. -/
theorem allSharp_intCast (k l : ℤ) : AllSharp [⟨k, l⟩] := by
  intro t ht hn
  rw [List.mem_singleton.mp ht] at hn ⊢
  exact congrArg Int.cast (eq_of_near_intCast hn)

/-- Literals that are far from the numbers they are compared with are sharp, too. -/
theorem allSharp_of_not_near {v w : ℝ} (h : Arith.near v w = false) : AllSharp [⟨v, w⟩] := by
  intro t ht hn
  rw [List.mem_singleton.mp ht, h] at hn
  cases hn

theorem allSharp_untilNear {l : List (ℝ × Expr ℝ)}
    (h : ∀ p ∈ l, AllSharp (nearTest p.1 p.2)) : AllSharp (untilNear l) := by
  induction l with
  | nil => exact allSharp_nil
  | cons p l ih =>
      refine allSharp_append.mpr ⟨h p List.mem_cons_self, ?_⟩
      split
      · exact allSharp_nil
      · exact ih fun q hq => h q (List.mem_cons_of_mem p hq)

/-- A term that is taken for a number is that number. -/
theorem eq_num_of_isNear {w : ℝ} {e : Expr ℝ} (ht : AllSharp (nearTest w e))
    (h : isNear w e = true) : e = .num w := by
  cases e with
  | num v =>
      have hv : (⟨v, w⟩ : Test).Sharp := ht _ (List.mem_singleton.mpr rfl)
      rw [show v = w from hv h]
  | var _ | bin _ _ _ | neg _ | app _ _ => exact absurd h Bool.false_ne_true

/-- The comparisons at a binary node are sharp if those of its operands with zero and one are, and
that of the exponent. -/
theorem allSharp_binTests {s : Strictness} {op : BinOp} {a b : Expr ℝ}
    (ha : AllSharp (nearTest 0 a) ∧ AllSharp (nearTest 1 a))
    (hb : AllSharp (nearTest 0 b) ∧ AllSharp (nearTest 1 b))
    (hexponent : AllSharp (negBaseTests op a b)) : AllSharp (binTests s op a b) := by
  have hidentity : AllSharp (identityTests op a b) := by
    refine allSharp_untilNear ?_
    cases op <;> simp [ha, hb]
  unfold binTests
  split
  · exact allSharp_nil
  · split
    · exact allSharp_nil
    · refine allSharp_append.mpr ⟨hidentity, ?_⟩
      split
      · exact hexponent
      · exact allSharp_nil

/-- The comparisons of a pass over a binary node, whose operands become `a'` and `b'`. -/
theorem allSharp_passTests_bin {s : Strictness} {op : BinOp} {a b a' b' : Expr ℝ} {c d : Bool}
    (ha : (Expr.pass s a).result = .ok (a', c)) (hb : (Expr.pass s b).result = .ok (b', d))
    (hleft : AllSharp (Expr.passTests s a)) (hright : AllSharp (Expr.passTests s b))
    (h : AllSharp (binTests s op a' b')) : AllSharp (Expr.passTests s (.bin op a b)) := by
  refine allSharp_append.mpr ⟨hleft, ?_⟩
  rw [ha]
  refine allSharp_append.mpr ⟨hright, ?_⟩
  rw [hb]
  exact h

/-- The comparisons of a run that settles after the first pass. -/
theorem allSharp_runTests {s : Strictness} {e e' : Expr ℝ}
    (hfirst : (Expr.pass s e).result = .ok (e', true))
    (hlast : (Expr.pass s e').result = .ok (e', false)) (h : AllSharp (Expr.passTests s e))
    (h' : AllSharp (Expr.passTests s e')) (n : ℕ) : AllSharp (Expr.runTests s n e) := by
  cases n with
  | zero => exact allSharp_nil
  | succ n =>
      refine allSharp_append.mpr ⟨h, ?_⟩
      rw [hfirst]
      cases n with
      | zero => exact allSharp_nil
      | succ n =>
          refine allSharp_append.mpr ⟨h', ?_⟩
          rw [hlast]
          exact allSharp_nil

/-- The first of several comparisons either succeeds, or it is on to the others. -/
theorem untilNear_cons {w : ℝ} {e : Expr ℝ} {rest : List (ℝ × Expr ℝ)}
    (ht : AllSharp (untilNear ((w, e) :: rest))) :
    (isNear w e = true ∧ e = .num w) ∨ (isNear w e = false ∧ AllSharp (untilNear rest)) := by
  obtain ⟨hfirst, hrest⟩ := allSharp_append.mp ht
  cases h : isNear w e with
  | true => exact Or.inl ⟨rfl, eq_num_of_isNear hfirst h⟩
  | false =>
      rw [h, if_neg Bool.false_ne_true] at hrest
      exact Or.inr ⟨rfl, hrest⟩

end Term

end Fluxion

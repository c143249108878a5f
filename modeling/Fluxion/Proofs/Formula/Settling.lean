import Fluxion.Proofs.Formula.Source
import Fluxion.Proofs.Formula.RoundTrip
import Fluxion.Proofs.Formula.Warnings

/-!
# Fluxion.Proofs.Formula.Settling

Simplifying what is simplified already.

A simplification that has settled leaves an expression to which no rule applies, so simplifying it
again changes nothing.  The number of passes is bounded, though, and no bound is enough for every
expression: in an alternating sum each pass only does away with one pair of terms, the innermost one
that is left (`Expr.passes_alternatingSum`).

* `Formula.simplify_simplify`: when simplifying again changes nothing;
* `Formula.simplify_alternatingSum`: a formula for which it does change something.
-/

namespace Fluxion

namespace Expr

variable {s : Strictness}

/-! ## alternating sums -/

/-- A variable taken away and added again, so many times. -/
def alternating (first : Expr Float) : Nat → Expr Float
  | 0 => first
  | n + 1 => bin .add (bin .sub (alternating first n) (var "x")) (var "x")

/-- `-x + x - x + x - …`, with a number of further pairs. -/
def alternatingSum (n : Nat) : Expr Float := alternating (bin .add (neg (var "x")) (var "x")) n

/-- What a first pass leaves of it: `x - x - x + x - …`. -/
def differenceSum (n : Nat) : Expr Float := alternating (bin .sub (var "x") (var "x")) n

theorem alternating_succ (first : Expr Float) (n : Nat) :
    alternating first (n + 1) = alternating (alternating first 1) n := by
  induction n with
  | zero => rfl
  | succ n ih => exact congrArg (fun e => bin .add (bin .sub e (var "x")) (var "x")) ih

theorem alternating_eq_bin (op : BinOp) (a b : Expr Float) (n : Nat) :
    ∃ op' a' b', alternating (bin op a b) n = bin op' a' b' := by
  cases n with
  | zero => exact ⟨_, _, _, rfl⟩
  | succ n => exact ⟨_, _, _, rfl⟩

/-- No rule applies around a pair whose operand stays an operation. -/
theorem pass_pair {e : Expr Float} {op : BinOp} {a b : Expr Float} {changed : Bool}
    (h : (pass s e).result = .ok (bin op a b, changed)) :
    (pass s (bin .add (bin .sub e (var "x")) (var "x"))).result =
      .ok (bin .add (bin .sub (bin op a b) (var "x")) (var "x"), changed) := by
  have hsub : (pass s (bin .sub e (var "x"))).result =
      .ok (bin .sub (bin op a b) (var "x"), changed || false) := by
    rw [pass, Noted.bind_result_of_ok h]
    rfl
  rw [pass, Noted.bind_result_of_ok hsub]
  rw [Bool.or_false]
  exact congrArg (fun c => Except.ok (_, c)) (Bool.or_false changed)

/-- What a pass makes of the first terms is all that it changes. -/
theorem pass_alternating {first : Expr Float} {op : BinOp} {a b : Expr Float} {changed : Bool}
    (h : (pass s first).result = .ok (bin op a b, changed)) (n : Nat) :
    (pass s (alternating first n)).result = .ok (alternating (bin op a b) n, changed) := by
  induction n with
  | zero => exact h
  | succ n ih =>
      obtain ⟨op', a', b', hbin⟩ := alternating_eq_bin op a b n
      rw [hbin] at ih
      have hpair := pass_pair ih
      rwa [← hbin] at hpair

theorem pass_alternatingSum (n : Nat) :
    (pass s (alternatingSum n)).result = .ok (differenceSum n, true) :=
  pass_alternating rfl n

/-- A pass does away with the innermost pair. -/
theorem pass_differenceSum (n : Nat) :
    (pass s (differenceSum (n + 1))).result = .ok (differenceSum n, true) := by
  rw [differenceSum, alternating_succ]
  exact pass_alternating rfl n

theorem passes_differenceSum (n : Nat) :
    (passes s n (differenceSum n)).result = .ok (bin .sub (var "x") (var "x"), false) := by
  induction n with
  | zero => rfl
  | succ n ih =>
      rw [passes, untilSettled, Noted.bind_result_of_ok (pass_differenceSum n)]
      exact ih

/-- However many passes there are, for some alternating sum they are not enough. -/
theorem passes_alternatingSum (n : Nat) :
    (passes s (n + 1) (alternatingSum n)).result =
      .ok (bin .sub (var "x") (var "x"), false) := by
  rw [passes, untilSettled, Noted.bind_result_of_ok (pass_alternatingSum n)]
  exact passes_differenceSum n

/-! ## their texts -/

theorem numbers_alternatingSum (n : Nat) : (alternatingSum n).numbers = [] := by
  induction n with
  | zero => rfl
  | succ n ih =>
      change ((alternatingSum n).numbers ++ []) ++ [] = []
      rw [ih]
      rfl

theorem names_alternatingSum (n : Nat) : ∀ x ∈ (alternatingSum n).names, x = "x" := by
  induction n with
  | zero => decide
  | succ n ih =>
      intro x hx
      rcases List.mem_append.mp hx with hx | hx
      · rcases List.mem_append.mp hx with hx | hx
        · exact ih x hx
        · exact List.mem_singleton.mp hx
      · exact List.mem_singleton.mp hx

theorem regroup_alternatingSum (f : Float → Float) (n : Nat) :
    ((alternatingSum n).mapNumbers f).regroup = alternatingSum n := by
  induction n with
  | zero => rfl
  | succ n ih => exact congrArg (fun e => bin .add (bin .sub e (var "x")) (var "x")) ih

theorem legible_alternatingSum (n : Nat) : (alternatingSum n).Legible where
  nonneg v hv := by
    rw [numbers_alternatingSum] at hv
    exact nomatch hv
  numeral v hv := by
    rw [numbers_alternatingSum] at hv
    exact nomatch hv
  name x hx := by
    rw [names_alternatingSum n x hx]
    decide +kernel

/-- An alternating sum is read from its text. -/
theorem read_alternatingSum (n : Nat) :
    ∃ f : Formula Float, Formula.read (alternatingSum n).tex = .ok f ∧
      f.root = alternatingSum n := by
  have hsub : (alternatingSum n).names.toFinset ⊆ {"x"} := by
    intro x hx
    exact Finset.mem_singleton.mpr (names_alternatingSum n x (List.mem_toFinset.mp hx))
  have hcard : (alternatingSum n).names.toFinset.card ≤ maxNames :=
    (Finset.card_le_card hsub).trans (by decide)
  obtain ⟨f, hf, hroot⟩ := Formula.read_tex (legible_alternatingSum n) hcard
  exact ⟨f, hf, hroot.trans (regroup_alternatingSum _ n)⟩

/-- The text of an alternating sum. -/
theorem tex_alternatingSum (n : Nat) :
    (alternatingSum n).tex = "-x + x" ++ String.join (List.replicate n " - x + x") := by
  induction n with
  | zero => decide +kernel
  | succ n ih =>
      have htex : (alternatingSum (n + 1)).tex = (alternatingSum n).tex ++ " - x + x" := by
        change ((alternatingSum n).tex ++ " - " ++ "x") ++ " + " ++ "x" = _
        simp only [String.append_assoc]
        rfl
      rw [htex, ih, List.replicate_succ', String.append_assoc, String.join_append]
      rfl

end Expr

namespace Formula

/-! ## simplifying again -/

/-- **Simplifying what is simplified already.**  Let a text be read as a formula, and let the
formula be simplified.  If its passes settled, then simplifying the result again gives that result,
the same expression as before.  Whether they settled or not, simplifying again gives the same
expression exactly if a pass leaves it unchanged.  A formula that weighs no more than there are
passes always settles. -/
theorem simplify_simplify (s : Strictness) {text : String} {f g : Formula Float}
    (hf : read text = .ok f) (hg : (f.simplify s).result = .ok g) :
    (.unsettled ∉ (f.simplify s).notes →
      (g.simplify s).result = .ok g ∧ g.same g = true) ∧
    ((∃ h, (g.simplify s).result = .ok h ∧ h.same g = true) ↔
      (Expr.pass s g.root).result = .ok (g.root, false)) ∧
    (f.root.weight ≤ maxPasses → .unsettled ∉ (f.simplify s).notes) := by
  have hproper : f.root.AllProper := allProper_read Binary64.proper_ofDecimal hf
  obtain ⟨⟨e, settled⟩, hpasses, rfl⟩ := map_eq_ok.mp ((result_simplify s f).symm.trans hg)
  have hg' : e.AllProper := (Expr.settling_passes hproper hpasses).1
  refine ⟨fun hsettled => ?_, ?_, fun hweight => ?_⟩
  · obtain ⟨hlast, -⟩ := Expr.pass_of_settled (passes_of_simplify hg hsettled)
    refine ⟨?_, Expr.same_self hg'⟩
    have hagain : (Expr.passes s maxPasses e).result = .ok (e, true) :=
      Expr.passes_of_unchanged hlast
    rw [result_simplify]
    exact congrArg (Except.map _) hagain
  · refine Iff.trans ?_ (Expr.same_passes_iff (n := 63) hg')
    constructor
    · rintro ⟨h, hh, hsame⟩
      obtain ⟨⟨e', settled'⟩, hpasses', rfl⟩ :=
        map_eq_ok.mp ((result_simplify s _).symm.trans hh)
      exact ⟨e', settled', hpasses', hsame⟩
    · rintro ⟨e', settled', hpasses', hsame⟩
      refine ⟨f.withRoot e', ?_, hsame⟩
      rw [result_simplify]
      exact congrArg (Except.map _) hpasses'
  · rw [notes_simplify, hpasses, Expr.passes_settle hproper hweight hpasses, List.append_nil]
    intro hmem
    obtain ⟨d, -, hd⟩ := List.mem_map.mp hmem
    cases hd

/-- A sum with zero settles: it weighs less than there are passes. -/
theorem simplify_simplify_plusZero :
    ∃ f g : Formula Float, read "x + 0" = .ok f ∧ (f.simplify .strict).result = .ok g ∧
      g.root = .var "x" ∧ (g.simplify .strict).result = .ok g ∧ g.same g = true := by
  let e : Expr Float := .bin .add (.var "x") (.num 0)
  have htext : e.tex = "x + 0" := by decide +kernel
  have hzero : Numeral.reread (0 : Float) = 0 := by decide +kernel
  have hlegible : e.Legible := ⟨by decide +kernel, by decide +kernel, by decide +kernel⟩
  obtain ⟨f, hf, hroot⟩ := read_tex hlegible (by decide)
  rw [htext] at hf
  replace hroot : f.root = e := by
    rw [hroot, show e.mapNumbers Numeral.reread = .bin .add (.var "x") (.num (Numeral.reread 0))
      from rfl, hzero]
    rfl
  have hg : (f.simplify .strict).result = .ok (f.withRoot (.var "x")) := by
    rw [result_simplify, hroot]
    rfl
  obtain ⟨hagain, -, hsettles⟩ := simplify_simplify .strict hf hg
  obtain ⟨hsimplify, hsame⟩ := hagain (hsettles (by rw [hroot]; decide))
  exact ⟨f, f.withRoot (.var "x"), hf, hg, rfl, hsimplify, hsame⟩

/-- A formula that does not settle: with one pair of terms more than there are passes, what is left
is `x - x`, which simplifying again turns into zero. -/
theorem simplify_alternatingSum :
    ∃ text f g h, text = "-x + x" ++ String.join (List.replicate 63 " - x + x") ∧
      read text = .ok f ∧ ((f : Formula Float).simplify .lenient).result = .ok g ∧
      (g.simplify .lenient).result = .ok h ∧ h.same g = false := by
  obtain ⟨f, hf, hroot⟩ := Expr.read_alternatingSum 63
  refine ⟨_, f, f.withRoot (.bin .sub (.var "x") (.var "x")), f.withRoot (.num 0),
    Expr.tex_alternatingSum 63, hf, ?_, rfl, rfl⟩
  rw [result_simplify, hroot]
  exact congrArg (Except.map _) (Expr.passes_alternatingSum 63)

end Formula

end Fluxion

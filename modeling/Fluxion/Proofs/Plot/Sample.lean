import Fluxion.Plot.Sample
import Fluxion.Proofs.Formula.Source
import Fluxion.Proofs.Plot.Tool

/-!
# Fluxion.Proofs.Plot.Sample

What is tabulated of a formula.

A formula is tabulated through its infix text, which a plotting tool reads back under plain names.
If the tool is literal, the names keep apart and the numbers are written in full, what is read has a
value where the formula has one, and the same.  An error that the tabulation does not catch ends
it: there is none where the variable stands alone under functions.

* `Samples.grid_eq`: the points of a range;
* `Samples.curveOf_eq`, `Samples.curveOf_of_read`: the curve of a formula;
* `Samples.of_read`: the table of a formula.
-/

namespace Fluxion

open Binary64 Numeral

namespace Samples

open Infix

variable {start stop steps : Float} {x : String} {n : ℕ} {e : Expr Float}

/-! ## ranges -/

theorem gridPoint_eq (hsteps : 0 < value steps) (hfinite : Arith.finite steps = true) (i : ℕ) :
    gridPoint start stop steps i =
      .ok (start + (stop - start) * Arith.ofDecimal i 0 / steps) := by
  have hzero : ¬(steps == 0) = true := fun h =>
    hsteps.ne' ((isZero_iff hfinite).mp h)
  rw [gridPoint]
  change (do let d ← Binary64.div _ steps; return start + d) = _
  rw [Binary64.div, if_neg hzero]
  rfl

/-- The points of a range. -/
theorem grid_eq (hn : 0 < n) (hsteps : Arith.ofNat n = .ok steps) :
    grid start stop n = .ok ((List.range (n + 1)).map fun i =>
      start + (stop - start) * Arith.ofDecimal i 0 / steps) := by
  obtain ⟨hfinite, hpos⟩ := value_ofNat_pos hn hsteps
  have hpoint : gridPoint start stop steps = fun i =>
      pure (start + (stop - start) * Arith.ofDecimal i 0 / steps) :=
    funext (gridPoint_eq hpos hfinite)
  change (do let steps ← Arith.ofNat n; (List.range (n + 1)).mapM (gridPoint start stop steps)) = _
  rw [hsteps]
  change (List.range (n + 1)).mapM (gridPoint start stop steps) = _
  rw [hpoint, List.mapM_pure]
  rfl

/-! ## tables -/

section

variable {α : Type} [Arith α] [Numeral α] {tool : PlottingTool α} {f : Formula α}
  {curve : PlottedCurve α} {start stop : α} {resolution : ℤ} {xs : List α}

/-- A table is the grid with the curve's entries at its points, if all of them have one. -/
theorem of_eq {x : String} (hcurve : curveOf tool f x = .ok curve)
    (hgrid : grid start stop resolution = .ok xs) :
    Samples.of tool f x start stop resolution =
      ((xs.mapM fun u => entry (curve u)).map fun ys => ⟨xs, ys⟩).mapError .tool := by
  rw [Samples.of, hcurve, hgrid]
  change (((xs.mapM fun u => entry (curve u)).mapError SampleError.tool) >>= _) = _
  cases xs.mapM fun u => entry (curve u) <;> rfl

end

/-- An entry is the number that the curve has, unless there is an error that is passed on. -/
theorem entry_eq {α : Type} {r : Except CurveError (Option α)}
    (h : ∀ k, r ≠ .error (.other k)) : entry r = .ok r.toOption.join := by
  cases r with
  | ok v => rfl
  | error e =>
      cases e with
      | fault f => rfl
      | other k => exact absurd rfl (h k)

/-- The first error that is passed on ends a table. -/
theorem mapM_entry {α : Type} (curve : PlottedCurve α) (xs : List α) :
    (xs.mapM fun u => entry (curve u)) = .ok (xs.map fun u => (curve u).toOption.join) ∧
        (∀ u ∈ xs, ∀ k, curve u ≠ .error (.other k)) ∨
      ∃ u ∈ xs, ∃ k, curve u = .error (.other k) ∧
        (xs.mapM fun u => entry (curve u)) = .error k := by
  induction xs with
  | nil => exact .inl ⟨rfl, fun u hu => absurd hu List.not_mem_nil⟩
  | cons u xs ih =>
      rw [List.mapM_cons]
      by_cases hu : ∃ k, curve u = .error (.other k)
      · obtain ⟨k, hk⟩ := hu
        refine .inr ⟨u, List.mem_cons_self, k, hk, ?_⟩
        rw [hk]
        rfl
      · have hne : ∀ k, curve u ≠ .error (.other k) := fun k hk => hu ⟨k, hk⟩
        rw [entry_eq hne]
        obtain ⟨hys, hall⟩ | ⟨w, hw, k, hk, herror⟩ := ih
        · rw [hys]
          exact .inl ⟨rfl, List.forall_mem_cons.mpr ⟨hne, hall⟩⟩
        · rw [herror]
          exact .inr ⟨w, List.mem_cons_of_mem u hw, k, hk, rfl⟩

/-! ## formulas -/

/-- The names in a formula that is read are those of its table. -/
theorem names_subset_vars {α : Type} [Arith α] {text : String} {f : Formula α}
    (hf : Formula.read text = .ok f) : f.root.names ⊆ f.vars := by
  have hpartwise : Expr.Partwise fun e : Expr α => e.names ⊆ f.vars :=
    ⟨List.append_subset, Iff.rfl, Iff.rfl⟩
  exact Formula.holds_read hpartwise hf (fun _ _ => List.nil_subset _)
    fun x hx _ => List.cons_subset.mpr ⟨hx, List.nil_subset _⟩

/-- A literal plotting tool evaluates what it reads of a formula. -/
theorem curveOf_eq {tool : PlottingTool Float} (htool : tool.IsLiteral) {f : Formula Float}
    (hfinite : ∀ v ∈ f.root.numbers, Arith.finite v = true) (hknown : f.root.names ⊆ f.vars)
    (hfree : ∀ y ∈ f.vars, isIdentifier (plainName y) = true ∧ plainName y ∉ reserved ∧
      plainName y ∉ tool.keywords) (hx : x ∈ f.vars) :
    curveOf tool f x = .ok fun u =>
      (f.root.transcript.mapNames plainName).toExpr.evaluateOpen (.single (plainName x) u) := by
  apply htool
  · refine (reads_infixText hfinite fun y hy => ?_).read_eq
    obtain ⟨hidentifier, hreserved, -⟩ := hfree y (hknown hy)
    exact ⟨hidentifier, hreserved⟩
  · rw [names_mapNames, Expr.names_transcript]
    exact List.map_subset plainName hknown
  · exact List.mem_map_of_mem hx
  · intro y hy
    obtain ⟨z, hz, rfl⟩ := List.mem_map.mp hy
    exact (hfree z hz).2

/-- A literal plotting tool evaluates a formula that is read, if its numbers are written in full and
the variable shares its plain name with no other name. -/
theorem curveOf_of_read {tool : PlottingTool Float} (htool : tool.IsLiteral) {text : String}
    {f : Formula Float} (hf : Formula.read text = .ok f)
    (hfull : ∀ v ∈ f.root.numbers, reread v = v)
    (hfree : ∀ y ∈ f.vars, isIdentifier (plainName y) = true ∧ plainName y ∉ reserved ∧
      plainName y ∉ tool.keywords)
    (hvar : x ∈ f.vars) (hx : ∀ y ∈ f.vars, plainName y = plainName x → y = x) :
    curveOf tool f x = .ok fun u => f.root.withoutArccos.evaluateOpen (.single x u) := by
  obtain ⟨hsign, -⟩ := Formula.signClear_read hf
  have hnumbers : ∀ v ∈ f.root.numbers, SignClear v ∧ reread v = v :=
    fun v hv => ⟨hsign v hv, hfull v hv⟩
  have hfinite : ∀ v ∈ f.root.numbers, Arith.finite v = true :=
    fun v hv => finite_of_reread_eq (hsign v hv) (hfull v hv)
  have hknown : f.root.names ⊆ f.vars := names_subset_vars hf
  rw [curveOf_eq htool hfinite hknown hfree hvar]
  exact congrArg Except.ok
    (funext (evaluateOpen_transcript hnumbers fun y hy => hx y (hknown hy)))

/-- **What is tabulated is what is evaluated.**  Let a plotting tool be literal, let a formula be
read, its numbers written in full, and the names in its table identifiers that mean nothing else to
the tool.  If no other name has the plain name of the variable, and the resolution is a number above
zero, then the formula is tabulated at the points that divide the range evenly, both ends included;
at each of them the table has the value of the formula, if there is one, and none otherwise.  Only
where a function stands over another name than the variable's may it be that there is no table, and
then there is none exactly if at some of the points the evaluation comes to such a function before
any error of arithmetic.  Inverse cosines count as complements of inverse sines. -/
theorem of_read {tool : PlottingTool Float} (htool : tool.IsLiteral) {text : String}
    {f : Formula Float} (hf : Formula.read text = .ok f)
    (hfull : ∀ v ∈ f.root.numbers, reread v = v)
    (hfree : ∀ y ∈ f.vars, isIdentifier (plainName y) = true ∧ plainName y ∉ reserved ∧
      plainName y ∉ tool.keywords)
    (hvar : x ∈ f.vars) (hx : ∀ y ∈ f.vars, plainName y = plainName x → y = x)
    (hn : 0 < n) (hsteps : Arith.ofNat n = .ok steps) (start stop : Float) :
    let point (i : ℕ) := start + (stop - start) * Arith.ofDecimal i 0 / steps
    let value (u : Float) := f.root.withoutArccos.evaluateOpen (.single x u)
    (∃ s, Samples.of tool f x start stop n = .ok s ∧
      s.xs.length = n + 1 ∧ (∀ i ≤ n, s.xs[i]? = some (point i)) ∧
      s.ys = s.xs.map (fun u => (f.root.withoutArccos.evaluate (.single x u)).toOption) ∧
      ∀ i ≤ n, ∀ k, value (point i) ≠ .error (.other k)) ∨
    (Samples.of tool f x start stop n = .error (.tool .notANumber) ∧ ¬f.root.FunctionsOf x ∧
      ∃ i ≤ n, value (point i) = .error (.other .notANumber)) := by
  intro point value
  have hcurve : curveOf tool f x = .ok value := curveOf_of_read htool hf hfull hfree hvar hx
  let xs : List Float := (List.range (n + 1)).map point
  have hpoint {u : Float} : u ∈ xs ↔ ∃ i ≤ n, point i = u := by
    simp only [xs, List.mem_map, List.mem_range, Nat.lt_succ_iff]
  rw [of_eq hcurve (grid_eq hn hsteps)]
  obtain ⟨hys, hall⟩ | ⟨u, hu, k, hk, herror⟩ := mapM_entry value xs
  · left
    refine ⟨⟨xs, _⟩, by rw [hys]; rfl, ?_, ?_, ?_, ?_⟩
    · rw [List.length_map, List.length_range]
    · intro i hi
      have hrange : (List.range (n + 1))[i]? = some i :=
        List.getElem?_range (Nat.lt_succ_of_le hi)
      rw [List.getElem?_map, hrange, Option.map_some]
    · exact List.map_congr_left fun u _ => (Expr.toOption_evaluate _ _).symm
    · intro i hi k
      exact hall (point i) (hpoint.mpr ⟨i, hi, rfl⟩) k
  · right
    obtain ⟨rfl, hnot⟩ := Expr.of_evaluateOpen_other hk
    obtain ⟨i, hi, rfl⟩ := hpoint.mp hu
    refine ⟨by rw [herror]; rfl, fun h => hnot (Expr.functionsOf_withoutArccos h), i, hi, hk⟩

theorem of_read_arccos :
    ∃ (f : Formula Float) (s : Samples Float),
      Formula.read "2.5 \\cdot \\arccos \\alpha" = .ok f ∧
      f.root = .bin .mul (.num 2.5) (.app .arccos (.var "\\alpha")) ∧
      Samples.of .literal f "\\alpha" (-1) 1 4 = .ok s ∧ s.xs.length = 5 ∧
      s.ys = s.xs.map fun u => ((Expr.bin .mul (.num 2.5) (.bin .sub (.num (Binary64.pi / 2))
        (.app .arcsin (.var "\\alpha")))).evaluate (.single "\\alpha" u)).toOption := by
  let e : Expr Float := .bin .mul (.num 2.5) (.app .arccos (.var "\\alpha"))
  have hsymbolic {α : Type} [Arith α] :
      (Formula.read "2.5 \\cdot \\arccos \\alpha" : Except ReadError (Formula α)) =
        .ok ⟨.bin .mul (.num (Arith.ofDecimal 25 (-1))) (.app .arccos (.var "\\alpha")),
          ["\\alpha"]⟩ := by cbv
  have hread : Formula.read "2.5 \\cdot \\arccos \\alpha" = .ok ⟨e, ["\\alpha"]⟩ := by
    have hdecimal : (Arith.ofDecimal 25 (-1) : Float) = 2.5 := by decide +kernel
    rw [hsymbolic, hdecimal]
  have hfull : ∀ v ∈ e.numbers, reread v = v := by decide +kernel
  have hsteps : Arith.ofNat 4 = .ok (4 : Float) := by decide +kernel
  obtain ⟨s, hs, hlength, -, hys, -⟩ | ⟨-, hnot, -⟩ :=
    of_read PlottingTool.isLiteral_literal hread hfull (by decide) (List.mem_singleton_self _)
      (by decide) (by decide) hsteps (-1) 1
  · exact ⟨_, s, hread, rfl, hs, hlength, hys⟩
  · exact absurd ⟨trivial, fun y hy => List.mem_singleton.mp hy⟩ hnot

/-- One name with and without a backslash: a formula in both has no value, but the table has. -/
theorem of_samePlainName :
    (PlottingTool.literal : PlottingTool Float).IsLiteral ∧
    ∃ (f : Formula Float) (s : Samples Float), Formula.read "x + \\x" = .ok f ∧ "x" ∈ f.vars ∧
      Samples.of .literal f "x" 0 1 1 = .ok s ∧ s.xs.length = 2 ∧
      s.ys = s.xs.map (fun u => some (u + u)) ∧
      ∀ u, f.root.evaluate (.single "x" u) = .error (.unbound "\\x") := by
  let e : Expr Float := .bin .add (.var "x") (.var "\\x")
  let f : Formula Float := ⟨e, ["x", "\\x"]⟩
  have hread : Formula.read "x + \\x" = .ok f := by cbv
  have hsteps : Arith.ofNat 1 = .ok (1 : Float) := by decide +kernel
  have hgrid : grid (0 : Float) 1 (1 : ℕ) = .ok _ := grid_eq Nat.one_pos hsteps
  have hcurve : curveOf .literal f "x" = .ok _ :=
    curveOf_eq PlottingTool.isLiteral_literal (fun _ hv => absurd hv List.not_mem_nil) (by decide)
      (by decide) (by decide)
  exact ⟨PlottingTool.isLiteral_literal, _, _, hread, by decide, of_eq hcurve hgrid, rfl, rfl,
    fun u => rfl⟩

/-- The sine of another name ends the table of `x + \sin y` over `x`. -/
example : Samples.of .literal (⟨.bin .add (.var "x") (.app .sin (.var "y")), ["x", "y"]⟩ :
    Formula Float) "x" 0 1 1 = .error (.tool .notANumber) := by rfl

end Samples

end Fluxion

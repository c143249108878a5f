import Fluxion.Proofs.Expr.Legend
import Fluxion.Proofs.Formula.RoundTrip
import Fluxion.Proofs.Formula.Source
import Fluxion.Proofs.Number.Numeral

/-!
# Fluxion.Proofs.Formula.Labels

A formula in parts reads back.

The outline of a formula and the definitions of its labels are texts of their own.  Each is read,
and the labels are replaced by what they are defined as: that gives the formula again, with its
numbers rounded to the digits that are written, and up to the grouping of sums and products.  Labels
are told from names only by how they are spelled, so this needs that no name is spelled as a label;
the labels are given without a look at the names, and `Formula.outline_label_taken` is what happens
otherwise.

* `Expr.readFrom_tex`: an expression is read from its text;
* `Formula.signClear_read`: what the numbers and names of a formula are;
* `Formula.replace_labels`: the outline and the definitions put together again.
-/

namespace Fluxion

open Fluxion.Expr Fluxion.Lexer Fluxion.Numeral

variable {α : Type}

/-! ## reading parts -/

/-- The expression that a text stands for, whatever the number of its names. -/
def Expr.ReadFrom [Arith α] (text : String) (e : Expr α) : Prop :=
  ∃ ts : Tokens α, tokenize text.toList = .ok ts ∧ Expr.ofTokens ts = .ok e

/-- The definitions of a legend are read, each as the part that it gives to its label. -/
def Legend.ReadFrom [Arith α] (definitions : List (String × String)) (legend : Legend α) : Prop :=
  List.Forall₂ (fun text part => text.1 = part.1 ∧ Expr.ReadFrom text.2 part.2) definitions legend

section

variable [Arith α] {text : String} {e e' : Expr α} {legend legend' : Legend α}
  {definitions : List (String × String)}

/-- A text is read in one way. -/
theorem Expr.ReadFrom.unique (h : ReadFrom text e) (h' : ReadFrom text e') : e = e' := by
  obtain ⟨ts, htext, hts⟩ := h
  obtain ⟨ts', htext', hts'⟩ := h'
  cases htext.symm.trans htext'
  exact Except.ok.inj (hts.symm.trans hts')

theorem Legend.ReadFrom.unique (h : ReadFrom definitions legend)
    (h' : ReadFrom definitions legend') : legend = legend' := by
  have hone : Relator.RightUnique fun (text : String × String) (part : String × Expr α) =>
      text.1 = part.1 ∧ Expr.ReadFrom text.2 part.2 := by
    intro text part part' hpart hpart'
    exact Prod.ext (hpart.1.symm.trans hpart'.1) (hpart.2.unique hpart'.2)
  exact List.right_unique_forall₂' hone h h'

end

section

variable [Arith α] [Numeral α]

/-- An expression is read from its text, up to its numbers and its grouping. -/
theorem Expr.readFrom_tex {e : Expr α} (h : e.Legible) :
    ReadFrom e.tex (e.mapNumbers reread).regroup := by
  have hlexes := lexes_tex h
  rw [← yield_derivation] at hlexes
  obtain ⟨ts, hts, hd⟩ := hlexes 0
  obtain ⟨stop, htext⟩ := exists_tokenize hts
  refine ⟨⟨ts, stop⟩, htext, ?_⟩
  rw [← denote_derivation]
  exact Expr.ofTokens_of_derivation hd.symm

/-- The definitions of an outline are read, up to numbers and grouping. -/
theorem Legend.readFrom_definitions {o : Outline α} (h : ∀ d ∈ o.legend, d.2.Legible) :
    ReadFrom o.definitions (o.legend.map fun d => (d.1, (d.2.mapNumbers reread).regroup)) := by
  rw [ReadFrom, Outline.definitions, List.forall₂_map_left_iff, List.forall₂_map_right_iff,
    List.forall₂_same]
  exact fun d hd => ⟨rfl, readFrom_tex (h d hd)⟩

theorem Expr.legible_eq : Legible (α := α) = fun e => (∀ v ∈ e.numbers, Arith.negative v = false) ∧
    (∀ v ∈ e.numbers, IsNumeral v) ∧ ∀ x ∈ e.names, IsName α x :=
  funext fun _ => propext ⟨fun h => ⟨h.nonneg, h.numeral, h.name⟩, fun h => ⟨h.1, h.2.1, h.2.2⟩⟩

theorem Expr.partwise_legible : Partwise (Legible (α := α)) := by
  rw [legible_eq]
  exact (partwise_numbers _).and ((partwise_numbers _).and (partwise_names _))

end

/-- What is read of the parts of an expression, with the labels replaced, is the expression again,
up to numbers and grouping, as long as no name is spelled as a label. -/
theorem Expr.regroup_replace_outline {e : Expr α} {o : Outline α} (ho : e.outline = .ok o)
    (hapart : ∀ x ∈ e.names, x ∉ o.legend.given) (g : α → α) :
    ((o.root.mapNumbers g).regroup.replace
      (Legend.meaning (o.legend.map fun d => (d.1, (d.2.mapNumbers g).regroup)))).regroup =
      (e.mapNumbers g).regroup := by
  calc ((o.root.mapNumbers g).regroup.replace
        (Legend.meaning (o.legend.map fun d => (d.1, (d.2.mapNumbers g).regroup)))).regroup
      = ((o.root.mapNumbers g).replace fun x => (o.legend.meaning x).mapNumbers g).regroup := by
        rw [regroup_replace]
        exact regroup_replace_congr (Legend.meaning_map g o.legend) _
    _ = (e.mapNumbers g).regroup := by rw [← mapNumbers_replace, replace_outline ho hapart]

/-! ## formulas -/

/-- The numbers of a formula that is read have no sign, and its names are cut out of a text as they
stand. -/
theorem Formula.signClear_read {text : String} {f : Formula Float} (hf : Formula.read text = .ok f) :
    (∀ v ∈ f.root.numbers, Binary64.SignClear v) ∧ ∀ x ∈ f.root.names, IsName Float x := by
  have hP := (partwise_numbers Binary64.SignClear).and (partwise_names (IsName Float))
  apply Formula.holds_read hP hf
  · intro m e
    refine ⟨fun v hv => ?_, nofun⟩
    rw [List.mem_singleton.mp hv]
    exact Binary64.signClear_ofDecimal m e
  · intro x _ hx
    exact ⟨nofun, fun y hy => List.mem_singleton.mp hy ▸ hx⟩

/-- Labels are names of their own. -/
theorem legible_label : ∀ x ∈ labels, (.var x : Expr Float).Legible := by
  have hname : ∀ x ∈ labels, IsName Float x := by decide +kernel
  exact fun x hx => ⟨nofun, nofun, fun y hy => List.mem_singleton.mp hy ▸ hname x hx⟩

/-- **A formula in parts reads back.**  Let a formula be read, its numbers finite, and let no name in
it be spelled as one of the labels that its outline gives.  Then the text of the outline and the
definition of every label are read, and with labels replaced by what they are defined as, that is the
formula, up to the grouping of sums and products.  Its numbers are those nearest to decimals that
have twelve digits. -/
theorem Formula.replace_labels {text : String} {f : Formula Float} {o : Outline Float}
    (hf : Formula.read text = .ok f) (hfinite : ∀ v ∈ f.root.numbers, Arith.finite v = true)
    (ho : f.root.outline = .ok o) (hapart : ∀ x ∈ f.root.names, x ∉ o.legend.given) :
    ∃ (root : Expr Float) (legend : Legend Float),
      Expr.ReadFrom o.root.tex root ∧ Legend.ReadFrom o.definitions legend ∧
      (root.replace legend.meaning).regroup = (f.root.mapNumbers reread).regroup ∧
      ∀ v ∈ f.root.numbers, ∃ (m : ℕ) (e : ℤ), reread v = Arith.ofDecimal m e ∧
        Digits.IsRounding 12 (Binary64.value v) (m * 10 ^ e) := by
  obtain ⟨hsign, hnames⟩ := Formula.signClear_read hf
  have hlegible : f.root.Legible :=
    ⟨fun v hv => (hsign v hv).not_negative,
      fun v hv => isNumeral_of_finite (hfinite v hv) (hsign v hv), hnames⟩
  obtain ⟨hroot, hlegend⟩ := partwise_legible.outline legible_label hlegible ho
  exact ⟨_, _, readFrom_tex hroot, Legend.readFrom_definitions hlegend,
    regroup_replace_outline ho hapart reread,
    fun v hv => reread_spec (hfinite v hv) (hsign v hv)⟩

/-! ## a label that is taken -/

/-- The sum of `n + 1` times `x`. -/
def repeatedSum : ℕ → Expr Float
  | 0 => .var "x"
  | n + 1 => .bin .add (repeatedSum n) (.var "x")

/-- A sum whose first operand is just too large to stay. -/
def longSum (last : Expr Float) : Expr Float := .bin .add (repeatedSum 12) last

theorem Formula.replace_labels_longSum :
    ∃ (f : Formula Float) (o : Outline Float),
      Formula.read "x + x + x + x + x + x + x + x + x + x + x + x + x + 2.5 \\cdot y" = .ok f ∧
      (∀ v ∈ f.root.numbers, Arith.finite v = true) ∧ f.root.outline = .ok o ∧
      (∀ x ∈ f.root.names, x ∉ o.legend.given) ∧
      o.root.tex = "A + 2.5 \\cdot y" ∧
      o.definitions = [("A", "x + x + x + x + x + x + x + x + x + x + x + x + x")] ∧
      ∃ (root : Expr Float) (legend : Legend Float),
        Expr.ReadFrom o.root.tex root ∧ Legend.ReadFrom o.definitions legend ∧
        (root.replace legend.meaning).regroup = (f.root.mapNumbers reread).regroup := by
  let last : Expr Float := .bin .mul (.num 2.5) (.var "y")
  have hsame : reread (2.5 : Float) = 2.5 := by decide +kernel
  have hlegible : (longSum last).Legible := by
    refine ⟨?_, ?_, ?_⟩ <;> decide +kernel
  have hcard : (longSum last).names.toFinset.card ≤ maxNames := by decide
  obtain ⟨f, hf, hroot⟩ := Formula.read_tex hlegible hcard
  have hself : f.root = longSum last := by
    rw [hroot]
    simp only [longSum, repeatedSum, last, mapNumbers, hsame]
    rfl
  have htext : (longSum last).tex =
      "x + x + x + x + x + x + x + x + x + x + x + x + x + 2.5 \\cdot y" := by
    decide +kernel
  have hfinite : ∀ v ∈ f.root.numbers, Arith.finite v = true := by
    rw [hself]
    decide +kernel
  have ho : f.root.outline = .ok ⟨.bin .add (.var "A") last, [("A", repeatedSum 12)]⟩ := by
    rw [hself]
    rfl
  have hapart : ∀ x ∈ f.root.names, x ∉ Legend.given [("A", repeatedSum 12)] := by
    rw [hself]
    decide
  obtain ⟨root, legend, hread, hlegend, hsum, -⟩ :=
    Formula.replace_labels hf hfinite ho hapart
  refine ⟨f, _, htext ▸ hf, hfinite, ho, hapart, ?_, ?_, root, legend, hread, hlegend, hsum⟩
  · decide +kernel
  · decide +kernel

/-- The labels are given without a look at the names: here a name is spelled as the label, and what is
read of the parts is another formula. -/
theorem Formula.outline_label_taken :
    ∃ (f : Formula Float) (o : Outline Float),
      Formula.read "x + x + x + x + x + x + x + x + x + x + x + x + x + A" = .ok f ∧
      f.root.numbers = [] ∧ f.root.outline = .ok o ∧
      "A" ∈ f.root.names ∧ "A" ∈ o.legend.given ∧
      o.root.tex = "A + A" ∧
      o.definitions = [("A", "x + x + x + x + x + x + x + x + x + x + x + x + x")] ∧
      (∃ (root : Expr Float) (legend : Legend Float),
        Expr.ReadFrom o.root.tex root ∧ Legend.ReadFrom o.definitions legend) ∧
      ∀ (root : Expr Float) (legend : Legend Float),
        Expr.ReadFrom o.root.tex root → Legend.ReadFrom o.definitions legend →
          (root.replace legend.meaning).regroup ≠ (f.root.mapNumbers reread).regroup := by
  let o : Outline Float := ⟨.bin .add (.var "A") (.var "A"), [("A", repeatedSum 12)]⟩
  have hlegible : (longSum (.var "A")).Legible := by
    refine ⟨?_, ?_, ?_⟩ <;> decide +kernel
  have hcard : (longSum (.var "A")).names.toFinset.card ≤ maxNames := by decide
  obtain ⟨f, hf, hroot⟩ := Formula.read_tex hlegible hcard
  have hself : f.root = longSum (.var "A") := by
    rw [hroot]
    rfl
  have htext : (longSum (.var "A")).tex =
      "x + x + x + x + x + x + x + x + x + x + x + x + x + A" := by
    decide +kernel
  have ho : f.root.outline = .ok o := by
    rw [hself]
    rfl
  obtain ⟨hlegibleRoot, hlegibleParts⟩ :=
    partwise_legible.outline legible_label (hself ▸ hlegible) ho
  have hreadRoot := readFrom_tex hlegibleRoot
  have hreadParts := Legend.readFrom_definitions hlegibleParts
  refine ⟨f, o, htext ▸ hf, hself ▸ rfl, ho, ?_, ?_, ?_, ?_, ⟨_, _, hreadRoot, hreadParts⟩, ?_⟩
  · rw [hself]
    decide
  · decide
  · decide +kernel
  · decide +kernel
  · intro root legend hread hlegend hsame
    obtain rfl := hread.unique hreadRoot
    obtain rfl := hlegend.unique hreadParts
    -- both names are replaced, so what is read is nearly twice as large
    have hsize := congrArg Expr.size hsame
    rw [size_regroup, hself, size_regroup] at hsize
    exact absurd hsize (by decide)

end Fluxion

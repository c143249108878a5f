import Fluxion.Proofs.Expr.Outline
import Fluxion.Proofs.Expr.Tex
import Fluxion.Proofs.Formula.Read
import Fluxion.Proofs.Number.Binary64

/-!
# Fluxion.Proofs.Formula.RoundTrip

The text of an expression reads back.

What is read is the expression with its numbers as their texts have them, and with its sums and
products grouped to the left.  Written again, it has the same text.

* `Formula.read_tex`: reading the text of an expression;
* `Expr.tex_regroup_reread`: writing what was read;
* `Formula.read_texInParts`: both, for machine numbers.
-/

namespace Fluxion

variable {α : Type}

open Fluxion.Expr Fluxion.Lexer Fluxion.Numeral

/-! ## reading -/

section

variable {b : Bracket} {brackets : Bool} {l : List (Symbol α)}

theorem Expr.filterMap_enclosed :
    (enclosed b l).filterMap Symbol.name? = l.filterMap Symbol.name? := by
  rw [enclosed, List.filterMap_cons, List.filterMap_append]
  cases b with
  | paren | curly => exact List.append_nil _

theorem Expr.filterMap_enclosedIf :
    (enclosedIf brackets l).filterMap Symbol.name? = l.filterMap Symbol.name? := by
  cases brackets with
  | true => exact filterMap_enclosed
  | false => rfl

end

/-- The names among the symbols of an expression are its names. -/
theorem Expr.filterMap_spelling (e : Expr α) : e.spelling.filterMap Symbol.name? = e.names := by
  induction e with
  | num v => rfl
  | var x => rfl
  | bin op a b iha ihb =>
      cases op with
      | add | sub | mul | pow =>
          simp only [spelling, names, List.filterMap_append, List.filterMap_cons, Symbol.name?,
            filterMap_enclosedIf, filterMap_enclosed, iha, ihb]
      | div =>
          simp only [spelling, names, List.filterMap_append, List.filterMap_cons, Symbol.name?,
            filterMap_enclosed, iha, ihb]
  | neg a ih =>
      simp only [spelling, names, List.filterMap_cons, Symbol.name?, filterMap_enclosedIf, ih]
  | app f a ih =>
      simp only [spelling, names, List.filterMap_cons, Symbol.name?]
      split
      · rw [filterMap_enclosed, ih]
      · rw [filterMap_enclosedIf, ih]

namespace Formula

variable [Arith α] [Numeral α]

omit [Numeral α] in
/-- A text whose symbols have a derivation is read as what the derivation denotes, in the variables
that are named in it. -/
theorem read_of_lexes {text : String} {d : Grammar.Sum α} (h : Lexes text.toList d.yield)
    (hnames : (d.yield.filterMap Symbol.name?).toFinset.card ≤ maxNames) :
    ∃ f : Formula α, read text = .ok f ∧ f.root = d.denote ∧
      f.vars.toFinset = (d.yield.filterMap Symbol.name?).toFinset := by
  obtain ⟨ts, hts, hd⟩ := h 0
  have hdistinct : distinctNames ts = (d.yield.filterMap Symbol.name?).toFinset := by
    rw [distinctNames, hd]
  have hcard : (distinctNames ts).card ≤ maxNames := by
    rw [hdistinct]
    exact hnames
  obtain ⟨stop, htext⟩ := exists_tokenize hts
  let tokens : Tokens α := ⟨ts, stop⟩
  obtain ⟨f, hf⟩ := (ofTokens_isOk_iff tokens).mpr ⟨⟨d, hd.symm⟩, hcard⟩
  have hread : read text = ofTokens tokens := by
    rw [read, htext]
    rfl
  have hvars := namesOf_spec ts List.nodup_nil (Nat.zero_le maxNames)
  rw [(ofTokens_eq_ok.mp hf).2] at hvars
  obtain ⟨-, -, hvars⟩ := hvars
  rw [List.toFinset_nil, Finset.empty_union, hdistinct] at hvars
  exact ⟨f, hread.trans hf, root_of_derivation hd.symm hf, hvars⟩

omit [Numeral α] in
/-- A text with the symbols of an expression is read as the expression, up to its grouping. -/
theorem read_of_spelling {text : String} {e : Expr α} (h : Lexes text.toList e.spelling)
    (hnames : e.names.toFinset.card ≤ maxNames) :
    ∃ f : Formula α, read text = .ok f ∧ f.root = e.regroup ∧
      f.vars.toFinset = e.names.toFinset := by
  rw [← yield_derivation] at h
  rw [← denote_derivation, ← filterMap_spelling, ← yield_derivation] at *
  exact read_of_lexes h hnames

/-- The text of an expression is read as the expression, up to its numbers and its grouping. -/
theorem read_tex {e : Expr α} (h : e.Legible) (hnames : e.names.toFinset.card ≤ maxNames) :
    ∃ f : Formula α, read e.tex = .ok f ∧ f.root = (e.mapNumbers reread).regroup := by
  rw [← names_mapNumbers reread] at hnames
  obtain ⟨f, hf, hroot, -⟩ := read_of_spelling (lexes_tex h) hnames
  exact ⟨f, hf, hroot⟩

end Formula

/-! ## writing what was read -/

/-- The text of a number is one numeral, and the number that it is read as has the same text. -/
structure Numeral.ReadsBack [Arith α] [Numeral α] (v : α) : Prop where
  numeral : IsNumeral v
  stable : plain (reread v) = plain v

section

variable [Arith α] [Numeral α]

instance (v : α) : Decidable (ReadsBack v) :=
  decidable_of_iff (IsNumeral v ∧ plain (reread v) = plain v)
    ⟨fun ⟨hone, hsame⟩ => ⟨hone, hsame⟩, fun h => ⟨h.numeral, h.stable⟩⟩

namespace Expr

theorem texInParts_of_outline {e : Expr α} {o : Outline α} (h : e.outline = .ok o)
    (ho : o.legend = []) : e.texInParts = .ok e.tex := by
  have hroot : o.root = e := root_of_outline h ho
  rw [texInParts, h, ← hroot]
  change Except.ok o.tex = _
  rw [Outline.tex, ho]
  rfl

theorem texInParts_of_size_le {e : Expr α} (h : e.size ≤ maxPart) : e.texInParts = .ok e.tex :=
  texInParts_of_outline (outline_of_size_le h) rfl

/-- What is read of the text of an expression has the same text. -/
theorem tex_regroup_reread {e : Expr α}
    (h : ∀ v ∈ e.numbers, plain (reread v) = plain v ∧
      Arith.negative (reread v) = Arith.negative v) :
    (e.mapNumbers reread).regroup.tex = e.tex := by
  rw [tex_regroup, tex_mapNumbers h]

theorem size_regroup_reread (e : Expr α) : (e.mapNumbers reread).regroup.size = e.size := by
  rw [size_regroup, size_mapNumbers]

end Expr

end

/-! ## machine numbers -/

theorem Numeral.not_negative_reread (v : Float) : Arith.negative (reread v) = false :=
  Binary64.not_negative_ofDecimal _ _

/-- **The text of an expression reads back.**  Let the numbers of an expression be finite and not
negative, let each of its names be read as that name, let the names be few enough, and let no part
be taken out.  Then the text is read, and what is read is the expression with each number as its
text has it, and with sums and products grouped to the left as far as that goes.  If the expression
is small, what was read has the same text again. -/
theorem Formula.read_texInParts {e : Expr Float} {o : Outline Float}
    (hnumbers : ∀ v ∈ e.numbers, Arith.finite v = true ∧ Arith.negative v = false)
    (hformat : ∀ v ∈ e.numbers, Arith.finite v = true → Arith.negative v = false → ReadsBack v)
    (hnames : ∀ x ∈ e.names, IsName Float x) (hcard : e.names.toFinset.card ≤ maxNames)
    (hwhole : e.outline = .ok o) (hlegend : o.legend = []) :
    ∃ text f, e.texInParts = .ok text ∧ Formula.read text = .ok f ∧
      RegroupsTo (e.mapNumbers reread) f.root ∧
      (e.size ≤ maxPart → f.root.texInParts = .ok text) := by
  have hback : ∀ v ∈ e.numbers, ReadsBack v :=
    fun v hv => hformat v hv (hnumbers v hv).1 (hnumbers v hv).2
  have hlegible : e.Legible :=
    ⟨fun v hv => (hnumbers v hv).2, fun v hv => (hback v hv).numeral, hnames⟩
  obtain ⟨f, hread, hroot⟩ := Formula.read_tex hlegible hcard
  have htext : f.root.tex = e.tex := by
    rw [hroot]
    apply tex_regroup_reread
    intro v hv
    exact ⟨(hback v hv).stable, (not_negative_reread v).trans (hnumbers v hv).2.symm⟩
  have hsize : f.root.size = e.size := by rw [hroot, size_regroup_reread]
  have hsmall : e.size ≤ maxPart → f.root.texInParts = .ok e.tex := by
    intro hle
    rw [texInParts_of_size_le (by rw [hsize]; exact hle), htext]
  exact ⟨e.tex, f, texInParts_of_outline hwhole hlegend, hread, regroupsTo_iff.mpr hroot.symm,
    hsmall⟩

/-- A sum that is grouped to the right, with a number of more digits than are written. -/
def nestedSum : Expr Float :=
  .bin .add (.var "x")
    (.bin .sub (.bin .mul (.num 0.25) (.bin .mul (.var "y") (.app .sin (.var "x"))))
      (.bin .pow (.neg (.var "y")) (.num 1.0000000000004)))

theorem Formula.read_texInParts_nestedSum :
    (∀ v ∈ nestedSum.numbers, Arith.finite v = true ∧ Arith.negative v = false) ∧
    (∀ v ∈ nestedSum.numbers, Arith.finite v = true → Arith.negative v = false → ReadsBack v) ∧
    (∀ x ∈ nestedSum.names, IsName Float x) ∧ nestedSum.names.toFinset.card ≤ maxNames ∧
    nestedSum.outline = .ok ⟨nestedSum, []⟩ ∧
    ∃ text f, text = "x + 0.25 \\cdot y \\cdot \\sin x - \\left(-y \\right)^\x7b1\x7d" ∧
      nestedSum.texInParts = .ok text ∧ Formula.read text = .ok f ∧
      f.root = .bin .sub
        (.bin .add (.var "x")
          (.bin .mul (.bin .mul (.num 0.25) (.var "y")) (.app .sin (.var "x"))))
        (.bin .pow (.neg (.var "y")) (.num 1)) ∧
      f.root.texInParts = .ok text := by
  have hnumbers : ∀ v ∈ nestedSum.numbers, Arith.finite v = true ∧ Arith.negative v = false := by
    decide +kernel
  have hback : ∀ v ∈ nestedSum.numbers, ReadsBack v := by decide +kernel
  have hnames : ∀ x ∈ nestedSum.names, IsName Float x := by decide +kernel
  have hcard : nestedSum.names.toFinset.card ≤ maxNames := by decide
  have hsize : nestedSum.size ≤ maxPart := by decide
  have hwhole : nestedSum.outline = .ok ⟨nestedSum, []⟩ := outline_of_size_le hsize
  have htex : nestedSum.tex =
      "x + 0.25 \\cdot y \\cdot \\sin x - \\left(-y \\right)^\x7b1\x7d" := by decide +kernel
  have hquarter : reread (0.25 : Float) = 0.25 := by decide +kernel
  have hone : reread (1.0000000000004 : Float) = 1 := by decide +kernel
  obtain ⟨text, f, htext, hread, hroot, hsmall⟩ :=
    Formula.read_texInParts hnumbers (fun v hv _ _ => hback v hv) hnames hcard hwhole rfl
  have hsame : text = nestedSum.tex :=
    Except.ok.inj (htext.symm.trans (texInParts_of_size_le hsize))
  have hregroup := regroupsTo_iff.mp hroot
  simp only [nestedSum, mapNumbers, hquarter, hone, regroup, addLeft, mulLeft] at hregroup
  exact ⟨hnumbers, fun v hv _ _ => hback v hv, hnames, hcard, hwhole, text, f, hsame.trans htex,
    htext, hread, hregroup.symm, hsmall hsize⟩

end Fluxion

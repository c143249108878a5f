import Fluxion.Formula.Calculus
import Fluxion.Proofs.Expr.Fault
import Fluxion.Proofs.Formula.Source
import Fluxion.Proofs.Formula.RoundTrip

/-!
# Fluxion.Proofs.Formula.Lenient

Lenient simplification of formulas that are read from text.

Derivatives and simplifications keep the numbers of a formula proper, and keep them finite if they
are.  So of a formula that is read, and of all that comes from it in this way, it is known where
lenient simplification fails: at a power of a negation with an infinite exponent, and so never if
the numbers in the text are finite.

* `Formula.Leads`: what comes from a formula by derivatives and simplifications;
* `Formula.simplify_lenient`: where lenient simplification has a result;
* `Formula.simplify_infinitePower`: a formula for which it has none.
-/

namespace Fluxion.Formula

/-- A formula comes from another one by derivatives and simplifications. -/
inductive Leads (f : Formula Float) : Formula Float → Prop where
  | refl : Leads f f
  | differentiate {g h : Formula Float} (x : String) (hg : Leads f g)
      (hh : g.differentiate x = .ok h) : Leads f h
  | simplify {g h : Formula Float} (s : Strictness) (hg : Leads f g)
      (hh : (g.simplify s).result = .ok h) : Leads f h

/-- The root of a derivative. -/
theorem root_of_differentiate {α : Type} [Arith α] {f g : Formula α} {x : String}
    (h : f.differentiate x = .ok g) : g.root = f.root.derivative x := by
  obtain ⟨-, -, h⟩ := bind_eq_ok.mp h
  rw [← pure_eq_ok.mp h]
  rfl

/-- The passes that lead to a simplified formula. -/
theorem passes_of_result {α : Type} [Arith α] [Numeral α] {s : Strictness} {f g : Formula α}
    (h : (f.simplify s).result = .ok g) :
    ∃ settled, (Expr.passes s maxPasses f.root).result = .ok (g.root, settled) := by
  rw [result_simplify] at h
  obtain ⟨⟨e, settled⟩, hpasses, rfl⟩ := map_eq_ok.mp h
  exact ⟨settled, hpasses⟩

/-- A simplification fails as its passes do. -/
theorem simplify_eq_error {α : Type} [Arith α] [Numeral α] {s : Strictness} {f : Formula α}
    {e : SimplifyError α (Expr α)} :
    (f.simplify s).result = .error e ↔ (Expr.passes s maxPasses f.root).result = .error e := by
  rw [result_simplify]
  cases (Expr.passes s maxPasses f.root).result with
  | ok p => exact ⟨nofun, nofun⟩
  | error e' => exact ⟨fun h => congrArg _ (Except.error.inj h), fun h => congrArg _ (Except.error.inj h)⟩

/-- What is hereditary is kept by derivatives and simplifications. -/
theorem Leads.keeps {f g : Formula Float} (h : Leads f g) {P : Expr Float → Prop}
    (hP : Expr.Hereditary P) (hf : P f.root) : P g.root := by
  induction h with
  | refl => exact hf
  | differentiate x _ hh ih =>
      rw [root_of_differentiate hh]
      exact hP.derivative x ih
  | simplify s _ hh ih =>
      obtain ⟨settled, hpasses⟩ := passes_of_result hh
      exact hP.passes ih hpasses

/-- **Where lenient simplification has a result.**  Let a text be read as a formula, and let another
formula come from it by derivatives and simplifications.  The only failure of a lenient
simplification of that formula is that an infinite number has no parity, and it fails so exactly if
one of its passes, after others that changed something, comes to a power of a negation with an
infinite exponent.  If all numbers in the text are finite, it has a result. -/
theorem simplify_lenient {text : String} {f g : Formula Float} (hf : read text = .ok f)
    (hg : Leads f g) :
    (∀ e, (g.simplify .lenient).result = .error e ↔
      e = .fault .infiniteInteger ∧ ∃ k < maxPasses, ∃ t,
        (Expr.passes .lenient k g.root).result = .ok (t, false) ∧ t.ComesToEndless .lenient) ∧
    (f.root.AllFinite → ∃ h, (g.simplify .lenient).result = .ok h) := by
  have hproper : g.root.AllProper :=
    hg.keeps Expr.hereditary_allProper (allProper_read Binary64.proper_ofDecimal hf)
  have herror : ∀ e, (g.simplify .lenient).result = .error e ↔
      e = .fault .infiniteInteger ∧ ∃ k < maxPasses, ∃ t,
        (Expr.passes .lenient k g.root).result = .ok (t, false) ∧ t.ComesToEndless .lenient := by
    intro e
    rw [simplify_eq_error, Expr.passes_eq_error]
    constructor
    · rintro ⟨k, hk, t, ht, h⟩
      have ht' := Expr.hereditary_allProper.passes hproper ht
      obtain ⟨rfl, hends⟩ := (Expr.pass_lenient_eq_error ht').mp h
      exact ⟨rfl, k, hk, t, ht, hends⟩
    · rintro ⟨rfl, k, hk, t, ht, hends⟩
      have ht' := Expr.hereditary_allProper.passes hproper ht
      exact ⟨k, hk, t, ht, (Expr.pass_lenient_eq_error ht').mpr ⟨rfl, hends⟩⟩
  refine ⟨herror, fun hfinite => ?_⟩
  have hfinite' : g.root.AllFinite := hg.keeps Expr.hereditary_allFinite hfinite
  cases hr : (g.simplify .lenient).result with
  | ok h => exact ⟨h, rfl⟩
  | error e =>
      obtain ⟨rfl, -⟩ := (herror e).mp hr
      exact absurd (simplify_eq_error.mp hr) (Expr.passes_ne_fault hfinite')

set_option maxRecDepth 2000 in
/-- The square of a negation, simplified strictly, has finite numbers. -/
theorem simplify_lenient_squaredNegation :
    ∃ f g h : Formula Float, read "\\left(-x \\right)^\x7b2\x7d" = .ok f ∧
      (f.simplify .strict).result = .ok g ∧ Leads f g ∧ f.root.AllFinite ∧
      (g.simplify .lenient).result = .ok h := by
  let e : Expr Float := .bin .pow (.neg (.var "x")) (.num 2)
  have htext : e.tex = "\\left(-x \\right)^\x7b2\x7d" := by decide +kernel
  have htwo : Numeral.reread (2 : Float) = 2 := by decide +kernel
  have hlegible : e.Legible := ⟨by decide +kernel, by decide +kernel, by decide +kernel⟩
  obtain ⟨f, hf, hroot⟩ := read_tex hlegible (by decide)
  rw [htext] at hf
  replace hroot : f.root = e := by
    rw [hroot, show e.mapNumbers Numeral.reread =
      .bin .pow (.neg (.var "x")) (.num (Numeral.reread 2)) from rfl, htwo]
    rfl
  have hg : (f.simplify .strict).result =
      .ok (f.withRoot (.bin .pow (.var "x") (.num 2))) := by
    rw [result_simplify, hroot]
    rfl
  have hfinite : f.root.AllFinite := by
    rw [hroot]
    exact ⟨trivial, Expr.readsAs_two.finite⟩
  have hleads : Leads f _ := .simplify .strict .refl hg
  obtain ⟨h, hh⟩ := (simplify_lenient hf hleads).2 hfinite
  exact ⟨f, _, h, hf, hg, hleads, hfinite, hh⟩

/-- The text of a power of a negation whose exponent is too large for a finite number. -/
theorem lexes_infinitePower :
    Lexer.Lexes "(-x)^\x7b1e400\x7d".toList
      (Expr.bin .pow (.neg (.var "x")) (.num (Arith.ofDecimal 1 400 : Float))).spelling := by
  have hcurly : Lexer.Lexes ['\x7d'] [(.closeCurly : Symbol Float)] :=
    Lexer.lexes_nil.char rfl rfl (by decide)
  have hnumber : Lexer.Lexes ("1e400".toList ++ ['\x7d'])
      (.number (Arith.ofDecimal 1 400 : Float) :: _) :=
    Lexer.lexes_number (.curly []) (by decide +kernel) (by decide) hcurly
  have hcaret := Lexer.lexes_caret (Lexer.lexes_open .curly hnumber)
  have hclose : Lexer.Lexes ")^\x7b1e400\x7d".toList _ := hcaret.char rfl rfl (by decide)
  have hlexeme : Lexer.lexeme? "x)^\x7b1e400\x7d".toList = some (.name, ['x'].length) := by
    decide +kernel
  have hname : Lexer.Lexes "x)^\x7b1e400\x7d".toList (.name "x" :: _) :=
    hclose.cons (List.cons_ne_nil 'x' []) hlexeme rfl (by decide)
  exact (Lexer.lexes_minus hname).char rfl rfl (by decide)

/-- A power of a negation with an infinite exponent is read, but cannot be simplified. -/
theorem simplify_infinitePower :
    ∃ f : Formula Float, read "(-x)^\x7b1e400\x7d" = .ok f ∧
      (f.simplify .lenient).result = .error (.fault .infiniteInteger) := by
  obtain ⟨f, hf, hroot, -⟩ := read_of_spelling lexes_infinitePower (by decide)
  refine ⟨f, hf, ?_⟩
  rw [simplify_eq_error, hroot]
  rfl

end Fluxion.Formula

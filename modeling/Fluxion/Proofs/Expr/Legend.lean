import Fluxion.Proofs.Expr.Hereditary
import Fluxion.Proofs.Expr.Outline
import Fluxion.Proofs.Expr.Tex

/-!
# Fluxion.Proofs.Expr.Legend

What a legend says.

A definition may use the labels before it, so a legend is read from the front: the labels in a
definition are replaced by what they are known to mean by then (`Legend.meaning`).  An outline with
its labels replaced is the expression again, as long as no label is one of its own names.

* `Expr.regroup_replace`: it does not matter whether sums and products are grouped to the left
  before names are replaced in them;
* `Legend.meaning_map`: nor whether that is done to the definitions;
* `Expr.replace_outline`: an outline with its labels replaced;
* `Expr.Partwise.outline`: what an outline and its definitions are made of.
-/

namespace Fluxion

open Relation

variable {α β : Type}

namespace Expr

/-! ## names replaced by expressions -/

/-- An expression with expressions in the places of its names. -/
def replace (σ : String → Expr α) : Expr α → Expr α
  | num v => num v
  | var x => σ x
  | bin op a b => bin op (a.replace σ) (b.replace σ)
  | neg a => neg (a.replace σ)
  | app f a => app f (a.replace σ)

theorem mapNumbers_replace (g : α → α) (σ : String → Expr α) (e : Expr α) :
    (e.replace σ).mapNumbers g = (e.mapNumbers g).replace fun x => (σ x).mapNumbers g := by
  induction e with
  | num v => rfl
  | var x => rfl
  | bin op a b iha ihb => rw [replace, mapNumbers, iha, ihb, mapNumbers, replace]
  | neg a ih => rw [replace, mapNumbers, ih, mapNumbers, replace]
  | app f a ih => rw [replace, mapNumbers, ih, mapNumbers, replace]

/-! ## replacing and regrouping -/

/-- A step of regrouping is one after names are replaced, too. -/
theorem Regroups.replace {e e' : Expr α} (h : Regroups e e') (σ : String → Expr α) :
    Regroups (e.replace σ) (e'.replace σ) := by
  induction h with
  | add a b c => exact .add _ _ _
  | sub a b c => exact .sub _ _ _
  | mul a b c => exact .mul _ _ _
  | left op b h ih => exact .left op _ ih
  | right op a h ih => exact .right op _ ih
  | neg h ih => exact .neg ih
  | app f h ih => exact .app f ih

/-- Steps of regrouping in what is put for names are steps in the whole. -/
theorem steps_replace {σ τ : String → Expr α} (h : ∀ x, ReflTransGen Regroups (σ x) (τ x))
    (e : Expr α) : ReflTransGen Regroups (e.replace σ) (e.replace τ) := by
  induction e with
  | num v => exact .refl
  | var x => exact h x
  | bin op a b iha ihb => exact Regroups.steps_bin op iha ihb
  | neg a ih => exact ih.lift neg fun _ _ hs => .neg hs
  | app f a ih => exact ih.lift (app f) fun _ _ hs => .app f hs

/-- Sums and products may be grouped to the left before names are replaced in them. -/
theorem regroup_replace (σ : String → Expr α) (e : Expr α) :
    (e.regroup.replace σ).regroup = (e.replace σ).regroup :=
  (regroup_eq_of_steps ((steps_regroup e).lift (Expr.replace σ) fun _ _ hs => hs.replace σ)).symm

/-- What is put for names may be grouped to the left before. -/
theorem regroup_replace_regroup (σ : String → Expr α) (e : Expr α) :
    (e.replace fun x => (σ x).regroup).regroup = (e.replace σ).regroup :=
  (regroup_eq_of_steps (steps_replace (fun x => steps_regroup (σ x)) e)).symm

/-- What is put for names is only known up to grouping. -/
theorem regroup_replace_congr {σ τ : String → Expr α} (h : ∀ x, (σ x).regroup = (τ x).regroup)
    (e : Expr α) : (e.replace σ).regroup = (e.replace τ).regroup := by
  rw [← regroup_replace_regroup σ, ← regroup_replace_regroup τ, funext h]

end Expr

open Fluxion.Expr

namespace Legend

/-! ## what labels mean -/

/-- What a definition adds to what is known of names. -/
def define (σ : String → Expr α) (definition : String × Expr α) : String → Expr α :=
  Function.update σ definition.1 (definition.2.replace σ)

/-- What names mean by a legend: labels mean what they are defined as, by labels before them, and
all other names stand for themselves. -/
def meaning (legend : Legend α) : String → Expr α := legend.foldl define .var

/-- The labels that a legend gives. -/
def given (legend : Legend α) : List String := legend.map (·.1)

theorem meaning_append (legend : Legend α) (label : String) (part : Expr α) :
    meaning (legend ++ [(label, part)]) = define legend.meaning (label, part) := by
  rw [meaning, List.foldl_append, List.foldl_cons, List.foldl_nil, meaning]

/-- Later definitions leave the meaning of other names alone. -/
theorem meaning_of_prefix {legend last : Legend α} (h : legend <+: last)
    (hnodup : last.given.Nodup) {x : String} (hx : x ∈ legend.given) :
    last.meaning x = legend.meaning x := by
  obtain ⟨more, rfl⟩ := h
  induction more using List.reverseRecOn with
  | nil => rw [List.append_nil]
  | append_singleton more definition ih =>
      obtain ⟨label, part⟩ := definition
      rw [← List.append_assoc, given, List.map_append, List.nodup_append] at hnodup
      obtain ⟨hbefore, -, hdisj⟩ := hnodup
      have hne : x ≠ label := by
        apply hdisj x _ label (by simp)
        rw [List.map_append]
        exact List.mem_append_left _ hx
      rw [← List.append_assoc, meaning_append, define, Function.update_of_ne hne, ih hbefore]

/-- What is no label means itself. -/
theorem meaning_of_notMem {legend : Legend α} {x : String} (hx : x ∉ legend.given) :
    legend.meaning x = .var x := by
  induction legend using List.reverseRecOn with
  | nil => rfl
  | append_singleton legend definition ih =>
      obtain ⟨label, part⟩ := definition
      rw [given, List.map_append, List.mem_append, not_or] at hx
      have hne : x ≠ label := by simpa using hx.2
      rw [meaning_append, define, Function.update_of_ne hne, ih hx.1]

/-- The meaning of names, if the numbers of the definitions are changed and their sums and products
grouped to the left. -/
theorem meaning_map (g : α → α) (legend : Legend α) (x : String) :
    (meaning (legend.map fun d => (d.1, (d.2.mapNumbers g).regroup)) x).regroup =
      ((legend.meaning x).mapNumbers g).regroup := by
  induction legend using List.reverseRecOn generalizing x with
  | nil => rfl
  | append_singleton legend definition ih =>
      obtain ⟨label, part⟩ := definition
      rw [List.map_append, List.map_singleton, meaning_append, meaning_append, define, define]
      by_cases hx : x = label
      · subst hx
        rw [Function.update_self, Function.update_self, regroup_replace, mapNumbers_replace]
        exact regroup_replace_congr ih _
      · rw [Function.update_of_ne hx, Function.update_of_ne hx, ih]

end Legend

namespace Expr

/-! ## outlines -/

/-- The labels of a legend are given in their order. -/
def InOrder (legend : Legend α) : Prop := legend.given = labels.take legend.length

theorem InOrder.nodup {legend : Legend α} (h : InOrder legend) : legend.given.Nodup := by
  rw [h]
  exact (List.take_sublist _ _).nodup (by decide)

theorem InOrder.append {legend : Legend α} (h : InOrder legend) {label : String}
    (hlabel : labels[legend.length]? = some label) (part : Expr α) :
    InOrder (legend ++ [(label, part)]) := by
  rw [InOrder, Legend.given, List.map_append, List.length_append, List.length_singleton,
    List.take_add_one, hlabel, ← h]
  rfl

/-- What is left of an expression, and the legend by then.  With the labels replaced it is the
expression again, however the legend goes on, unless one of the names is a label. -/
structure Restores (e r : Expr α) (legend : Legend α) : Prop where
  inOrder : InOrder legend
  replaced (last : Legend α) : legend <+: last → InOrder last →
    (∀ x ∈ e.names, x ∉ last.given) → r.replace last.meaning = e

variable {legend legend' : Legend α} {e r : Expr α}

theorem restores_take {part : Expr α} (hpart : Restores e part legend)
    (h : legend.take part = .ok (r, legend')) : Restores e r legend' := by
  unfold Legend.take at h
  split at h
  · cases hlabel : labels[legend.length]? with
    | none =>
        rw [hlabel] at h
        exact nomatch h
    | some label =>
        rw [hlabel] at h
        cases h
        refine ⟨hpart.inOrder.append hlabel part, fun last hlast hlast' hnames => ?_⟩
        have hmem : label ∈ Legend.given (legend ++ [(label, part)]) := by simp [Legend.given]
        rw [replace, Legend.meaning_of_prefix hlast hlast'.nodup hmem, Legend.meaning_append,
          Legend.define, Function.update_self]
        -- the definition uses only labels before its own
        apply hpart.replaced legend (List.prefix_refl _) hpart.inOrder
        intro x hx hxlabel
        have hgiven : legend.given <+: last.given :=
          ((List.prefix_append _ _).trans hlast).map _
        exact hnames x hx (hgiven.subset hxlabel)
  · cases h
    exact hpart

theorem restores_operand
    (hfrom : ∀ {part between}, outlineFrom legend e = .ok (part, between) →
      Restores e part between)
    (h : operand legend e = .ok (r, legend')) : Restores e r legend' := by
  obtain ⟨⟨part, between⟩, hpart, htake⟩ := bind_eq_ok.mp h
  exact restores_take (hfrom hpart) htake

theorem restores_outlineFrom (hl : InOrder legend)
    (h : outlineFrom legend e = .ok (r, legend')) : Restores e r legend' := by
  induction e generalizing legend legend' r with
  | num v =>
      cases h
      exact ⟨hl, fun _ _ _ _ => rfl⟩
  | var x =>
      cases h
      refine ⟨hl, fun last _ _ hnames => ?_⟩
      rw [replace, Legend.meaning_of_notMem (hnames x (List.mem_singleton_self x))]
  | bin op a b iha ihb =>
      rw [outlineFrom_bin] at h
      obtain ⟨⟨a', between⟩, ha, h⟩ := bind_eq_ok.mp h
      obtain ⟨⟨b', last⟩, hb, h⟩ := bind_eq_ok.mp h
      cases h
      have hra := restores_operand (fun h => iha hl h) ha
      have hrb := restores_operand (fun h => ihb hra.inOrder h) hb
      have hgrows : between <+: legend' := (operand_grows (fun h => outlineFrom_grows h) hb).1
      refine ⟨hrb.inOrder, fun last hlast hlast' hnames => ?_⟩
      rw [replace, hra.replaced last (hgrows.trans hlast) hlast'
          (fun x hx => hnames x (List.mem_append_left _ hx)),
        hrb.replaced last hlast hlast' (fun x hx => hnames x (List.mem_append_right _ hx))]
  | neg a ih =>
      rw [outlineFrom_neg] at h
      obtain ⟨⟨a', last⟩, ha, h⟩ := bind_eq_ok.mp h
      cases h
      have hr := restores_operand (fun h => ih hl h) ha
      refine ⟨hr.inOrder, fun last hlast hlast' hnames => ?_⟩
      rw [replace, hr.replaced last hlast hlast' hnames]
  | app f a ih =>
      rw [outlineFrom_app] at h
      obtain ⟨⟨a', last⟩, ha, h⟩ := bind_eq_ok.mp h
      cases h
      have hr := restores_operand (fun h => ih hl h) ha
      refine ⟨hr.inOrder, fun last hlast hlast' hnames => ?_⟩
      rw [replace, hr.replaced last hlast hlast' hnames]

/-- An outline with its labels replaced is the expression again, unless one of the names is a
label. -/
theorem replace_outline {o : Outline α} (h : e.outline = .ok o)
    (hnames : ∀ x ∈ e.names, x ∉ o.legend.given) : o.root.replace o.legend.meaning = e := by
  obtain ⟨⟨root, legend⟩, hfrom, hroot⟩ := bind_eq_ok.mp h
  cases hroot
  have hempty : InOrder ([] : Legend α) := rfl
  have hrestores := restores_outlineFrom hempty hfrom
  exact hrestores.replaced legend (List.prefix_refl _) hrestores.inOrder hnames

/-- Labels are given in their order. -/
theorem label_mem_of_outline {o : Outline α} (h : e.outline = .ok o) {d : String × Expr α}
    (hd : d ∈ o.legend) : d.1 ∈ labels := by
  obtain ⟨⟨root, legend⟩, hfrom, hroot⟩ := bind_eq_ok.mp h
  cases hroot
  have hempty : InOrder ([] : Legend α) := rfl
  have horder : legend.given = labels.take legend.length :=
    (restores_outlineFrom hempty hfrom).inOrder
  have hgiven : d.1 ∈ legend.given := List.mem_map_of_mem hd
  rw [horder] at hgiven
  exact List.mem_of_mem_take hgiven

/-! ## what parts are made of -/

section

variable {P : Expr α → Prop} (hlabel : ∀ x ∈ labels, P (var x))
include hlabel

theorem holds_take (he : P e) (hl : ∀ d ∈ legend, P d.2) (h : legend.take e = .ok (r, legend')) :
    P r ∧ ∀ d ∈ legend', P d.2 := by
  unfold Legend.take at h
  split at h
  · cases hnext : labels[legend.length]? with
    | none =>
        rw [hnext] at h
        exact nomatch h
    | some label =>
        rw [hnext] at h
        cases h
        refine ⟨hlabel label (List.mem_of_getElem? hnext), fun d hd => ?_⟩
        obtain hd | hd := List.mem_append.mp hd
        · exact hl d hd
        · rw [List.mem_singleton.mp hd]
          exact he
  · cases h
    exact ⟨he, hl⟩

theorem holds_operand
    (hfrom : ∀ {part between}, outlineFrom legend e = .ok (part, between) →
      P part ∧ ∀ d ∈ between, P d.2)
    (h : operand legend e = .ok (r, legend')) : P r ∧ ∀ d ∈ legend', P d.2 := by
  obtain ⟨⟨part, between⟩, hpart, htake⟩ := bind_eq_ok.mp h
  obtain ⟨hpart, hbetween⟩ := hfrom hpart
  exact holds_take hlabel hpart hbetween htake

theorem Partwise.outlineFrom (hP : Partwise P) (he : P e) (hl : ∀ d ∈ legend, P d.2)
    (h : outlineFrom legend e = .ok (r, legend')) : P r ∧ ∀ d ∈ legend', P d.2 := by
  induction e generalizing legend legend' r with
  | num v =>
      cases h
      exact ⟨he, hl⟩
  | var x =>
      cases h
      exact ⟨he, hl⟩
  | bin op a b iha ihb =>
      rw [outlineFrom_bin] at h
      obtain ⟨⟨a', between⟩, ha, h⟩ := bind_eq_ok.mp h
      obtain ⟨⟨b', last⟩, hb, h⟩ := bind_eq_ok.mp h
      cases h
      obtain ⟨hea, heb⟩ := hP.bin.mp he
      obtain ⟨ha', hbetween⟩ := holds_operand hlabel (fun h => iha hea hl h) ha
      obtain ⟨hb', hlast⟩ := holds_operand hlabel (fun h => ihb heb hbetween h) hb
      exact ⟨hP.bin.mpr ⟨ha', hb'⟩, hlast⟩
  | neg a ih =>
      rw [outlineFrom_neg] at h
      obtain ⟨⟨a', last⟩, ha, h⟩ := bind_eq_ok.mp h
      cases h
      obtain ⟨ha', hlast⟩ := holds_operand hlabel (fun h => ih (hP.neg.mp he) hl h) ha
      exact ⟨hP.neg.mpr ha', hlast⟩
  | app f a ih =>
      rw [outlineFrom_app] at h
      obtain ⟨⟨a', last⟩, ha, h⟩ := bind_eq_ok.mp h
      cases h
      obtain ⟨ha', hlast⟩ := holds_operand hlabel (fun h => ih (hP.app.mp he) hl h) ha
      exact ⟨hP.app.mpr ha', hlast⟩

/-- What an expression has, and labels have, its outline and the definitions have too. -/
theorem Partwise.outline (hP : Partwise P) (he : P e) {o : Outline α} (h : e.outline = .ok o) :
    P o.root ∧ ∀ d ∈ o.legend, P d.2 := by
  obtain ⟨⟨root, legend⟩, hfrom, hroot⟩ := bind_eq_ok.mp h
  cases hroot
  exact hP.outlineFrom hlabel he (fun _ hd => absurd hd List.not_mem_nil) hfrom

end

/-! ## properties of the numbers and of the names -/

theorem partwise_numbers (p : α → Prop) : Partwise fun e : Expr α => ∀ v ∈ e.numbers, p v :=
  ⟨List.forall_mem_append, Iff.rfl, Iff.rfl⟩

theorem partwise_names (p : String → Prop) : Partwise fun e : Expr α => ∀ x ∈ e.names, p x :=
  ⟨List.forall_mem_append, Iff.rfl, Iff.rfl⟩

theorem Partwise.and {P Q : Expr α → Prop} (hP : Partwise P) (hQ : Partwise Q) :
    Partwise fun e => P e ∧ Q e where
  bin := (and_congr hP.bin hQ.bin).trans and_and_and_comm
  neg := and_congr hP.neg hQ.neg
  app := and_congr hP.app hQ.app

end Expr

end Fluxion

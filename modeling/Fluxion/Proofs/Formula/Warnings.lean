import Fluxion.Formula.Simplify

/-!
# Fluxion.Proofs.Formula.Warnings

What a simplification notes.

The notes of a simplification are the diagnostics of its passes, every text once, and a last note if
the passes did not settle.

* `Formula.warnings_simplify`, `Formula.message_mem_warnings`, `Formula.nodup_warnings_simplify`:
  the texts of the diagnostics;
* `Formula.passes_of_simplify`: when a simplification has settled.
-/

namespace Fluxion

/-! ## lists without repeated keys -/

section

variable {β κ : Type} [BEq κ] [LawfulBEq κ] {key : β → κ}

/-- What is kept has no key that came before. -/
theorem notMem_distinctBy {seen : List κ} {k : κ} (h : k ∈ seen) (bs : List β) :
    k ∉ (distinctBy key seen bs).map key := by
  induction bs generalizing seen with
  | nil => exact List.not_mem_nil
  | cons b bs ih =>
      unfold distinctBy
      split
      · exact ih h
      · next hb =>
        have hne : k ≠ key b := by
          rintro rfl
          exact hb (List.contains_iff_mem.mpr h)
        rw [List.map_cons, List.mem_cons, not_or]
        exact ⟨hne, ih (List.mem_cons_of_mem _ h)⟩

theorem nodup_distinctBy (seen : List κ) (bs : List β) :
    ((distinctBy key seen bs).map key).Nodup := by
  induction bs generalizing seen with
  | nil => exact List.nodup_nil
  | cons b bs ih =>
      unfold distinctBy
      split
      · exact ih seen
      · rw [List.map_cons, List.nodup_cons]
        exact ⟨notMem_distinctBy List.mem_cons_self bs, ih _⟩

/-- A key is kept unless it came before. -/
theorem mem_distinctBy (seen : List κ) {b : β} {bs : List β} (h : b ∈ bs) :
    key b ∈ seen ∨ key b ∈ (distinctBy key seen bs).map key := by
  induction bs generalizing seen with
  | nil => exact nomatch h
  | cons c bs ih =>
      unfold distinctBy
      split
      · next hc =>
        rcases List.mem_cons.mp h with rfl | h
        · exact .inl (List.contains_iff_mem.mp hc)
        · exact ih seen h
      · rw [List.map_cons, List.mem_cons]
        rcases List.mem_cons.mp h with rfl | h
        · exact .inr (.inl rfl)
        · rcases ih (key c :: seen) h with hseen | hrest
          · rcases List.mem_cons.mp hseen with heq | hseen
            · exact .inr (.inl heq)
            · exact .inl hseen
          · exact .inr (.inr hrest)

end

/-! ## notes of a simplification -/

variable {α β ε : Type} [Numeral α]

/-- The texts of the diagnostics that an operation notes, in their order. -/
def warnings (x : Working α ε β) : List String := x.notes.filterMap Note.diagnosticText?

namespace Formula

variable [Arith α] {s : Strictness} {f g : Formula α}

theorem notes_simplify (s : Strictness) (f : Formula α) :
    (f.simplify s).notes = diagnosticNotes (Expr.passes s maxPasses f.root).notes ++
      match (Expr.passes s maxPasses f.root).result with
      | .ok (_, false) => [.unsettled]
      | _ => [] := by
  unfold simplify
  obtain ⟨ds, r⟩ := Expr.passes s maxPasses f.root
  match r with
  | .error e => exact (List.append_nil _).symm
  | .ok (e, true) | .ok (e, false) => rfl

theorem result_simplify (s : Strictness) (f : Formula α) :
    (f.simplify s).result =
      (Expr.passes s maxPasses f.root).result.map fun p => f.withRoot p.1 := by
  unfold simplify
  obtain ⟨ds, r⟩ := Expr.passes s maxPasses f.root
  match r with
  | .error e => rfl
  | .ok (e, true) | .ok (e, false) => rfl

/-- A simplification whose last note is a diagnostic, if any, has settled on its result. -/
theorem passes_of_simplify (hg : (f.simplify s).result = .ok g)
    (hsettled : .unsettled ∉ (f.simplify s).notes) :
    (Expr.passes s maxPasses f.root).result = .ok (g.root, true) := by
  rw [result_simplify] at hg
  rw [notes_simplify] at hsettled
  match h : (Expr.passes s maxPasses f.root).result with
  | .error e =>
      rw [h] at hg
      cases hg
  | .ok (e, true) =>
      rw [h] at hg
      obtain rfl := Except.ok.inj hg
      rfl
  | .ok (e, false) =>
      rw [h] at hsettled
      exact absurd (List.mem_append_right _ List.mem_cons_self) hsettled

/-- A simplification warns of what its passes come across, each text once. -/
theorem warnings_simplify (s : Strictness) (f : Formula α) :
    warnings (f.simplify s) =
      (Diagnostic.reported Expr.display (Expr.passes s maxPasses f.root).notes).map
        (Diagnostic.message Expr.display) := by
  have hdiagnostics : ∀ ds : List (Diagnostic α (Expr α)),
      (diagnosticNotes ds).filterMap Note.diagnosticText? =
        (Diagnostic.reported Expr.display ds).map (Diagnostic.message Expr.display) := by
    intro ds
    rw [diagnosticNotes, List.filterMap_map]
    exact congrFun List.filterMap_eq_map' _
  rw [warnings, notes_simplify, List.filterMap_append, hdiagnostics]
  split <;> exact List.append_nil _

theorem nodup_warnings_simplify (s : Strictness) (f : Formula α) :
    (warnings (f.simplify s)).Nodup := by
  rw [warnings_simplify]
  exact nodup_distinctBy _ _

/-- No diagnostic of a pass goes unreported. -/
theorem message_mem_warnings {d : Diagnostic α (Expr α)}
    (h : d ∈ (Expr.passes s maxPasses f.root).notes) :
    d.message Expr.display ∈ warnings (f.simplify s) := by
  rw [warnings_simplify]
  exact (mem_distinctBy [] h).resolve_left List.not_mem_nil

end Formula

end Fluxion

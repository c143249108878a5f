/-!
# Fluxion.Proofs.Except

Computations that can fail, taken apart.

A computation in steps has a value exactly if each step has one, and errors in other words are
still errors.  Two computations in the same steps on other data are compared step by step
(`Follows`).
-/

namespace Fluxion

variable {ε δ α β : Type}

/-- A sequence has a result if both steps have one. -/
theorem bind_eq_ok {r : Except ε α} {f : α → Except ε β} {b : β} :
    r >>= f = .ok b ↔ ∃ a, r = .ok a ∧ f a = .ok b := by
  cases r with
  | error e => simp [bind, Except.bind]
  | ok a => simp [bind, Except.bind]

/-- A sequence fails at one of its steps. -/
theorem bind_eq_error {r : Except ε α} {f : α → Except ε β} {e : ε} :
    r >>= f = .error e ↔ r = .error e ∨ ∃ a, r = .ok a ∧ f a = .error e := by
  cases r with
  | error e' => simp [bind, Except.bind]
  | ok a => simp [bind, Except.bind]

/-- A result that is changed comes from a result. -/
theorem map_eq_ok {r : Except ε α} {f : α → β} {b : β} :
    r.map f = .ok b ↔ ∃ a, r = .ok a ∧ f a = b := by
  cases r with
  | error e => simp [Except.map]
  | ok a => simp [Except.map]

/-- Other words for a failure do not change a result. -/
theorem mapError_eq_ok {f : ε → δ} {r : Except ε β} {b : β} :
    r.mapError f = .ok b ↔ r = .ok b := by
  cases r with
  | error e => exact ⟨nofun, nofun⟩
  | ok a =>
      constructor
      · exact fun h => congrArg Except.ok (Except.ok.inj h)
      · exact fun h => congrArg Except.ok (Except.ok.inj h)

/-- A failure in other words comes from a failure. -/
theorem mapError_eq_error {f : ε → δ} {r : Except ε β} {e : δ} :
    r.mapError f = .error e ↔ ∃ e', r = .error e' ∧ f e' = e := by
  cases r with
  | error e' =>
      constructor
      · exact fun h => ⟨e', rfl, Except.error.inj h⟩
      · rintro ⟨e'', h, rfl⟩
        exact congrArg (fun e => Except.error (f e)) (Except.error.inj h)
  | ok b =>
      constructor
      · intro h
        cases h
      · rintro ⟨e', h, -⟩
        cases h

/-- A test of a result, which can be computed, shows that there is one. -/
theorem exists_ok_of_any {r : Except ε α} {t : α → Bool} (h : r.toOption.any t = true) :
    ∃ a, r = .ok a ∧ t a = true := by
  cases r with
  | error e => cases h
  | ok a => exact ⟨a, rfl, h⟩

theorem pure_eq_ok {a b : α} : (pure a : Except ε α) = .ok b ↔ a = b := by
  simp [pure, Except.pure]

/-! ## the same steps on other data -/

section

variable {γ : Type} {R : α → β → Prop} {S : γ → δ → Prop}

/-- Where the first computation has a value, so has the second one, and the values are related. -/
def Follows (R : α → β → Prop) (r : Except ε α) (s : Except ε β) : Prop :=
  ∀ a, r = .ok a → ∃ b, s = .ok b ∧ R a b

/-- Results that belong together. -/
theorem Follows.of_ok {a : α} {b : β} (h : R a b) :
    Follows R (.ok a : Except ε α) (.ok b) := by
  rintro _ ⟨⟩
  exact ⟨b, rfl, h⟩

theorem follows_error {e : ε} {s : Except ε β} : Follows R (.error e) s := nofun

/-- Steps that do not depend on the data. -/
theorem Follows.bind_same {r : Except ε α} {f : α → Except ε γ} {g : α → Except ε δ}
    (h : ∀ a, Follows S (f a) (g a)) : Follows S (r >>= f) (r >>= g) := by
  cases r with
  | error e => exact follows_error
  | ok a => exact h a

/-- Sequences follow if their steps do. -/
theorem Follows.bind {r : Except ε α} {s : Except ε β} {f : α → Except ε γ} {g : β → Except ε δ}
    (hr : Follows R r s) (h : ∀ a b, R a b → Follows S (f a) (g b)) :
    Follows S (r >>= f) (s >>= g) := by
  cases r with
  | error e => exact follows_error
  | ok a =>
      obtain ⟨b, rfl, hab⟩ := hr a rfl
      exact h a b hab

end

end Fluxion

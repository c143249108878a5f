import Mathlib.Logic.Basic

/-!
# Fluxion.Proofs.Stateful

Calls that change a state and may fail, as functions of the state.

A failure does not take back what was done before it, so a call has a state after it in any case.
What is said of a call is a triple: a property of the state before, one of the result and the state
after, and one of the state that a failure leaves behind.

* `exec`: the outcome of a call and the state after it;
* `Triple`: what a call does to a state of one kind;
* `Keeps`: a property of states that a call does not do away with.
-/

namespace Fluxion

variable {ε δ σ β γ : Type}

/-- The outcome of a call, and the state after it. -/
def exec (call : ExceptT ε (StateM σ) β) (s : σ) : Except ε β × σ := call.run.run s

section

variable {s s' : σ}

@[simp] theorem exec_pure (b : β) : exec (pure b : ExceptT ε (StateM σ) β) s = (.ok b, s) := rfl

@[simp] theorem exec_throw (e : ε) :
    exec (throw e : ExceptT ε (StateM σ) β) s = (.error e, s) := rfl

@[simp] theorem exec_get : exec (get : ExceptT ε (StateM σ) σ) s = (.ok s, s) := rfl

@[simp] theorem exec_set : exec (set s' : ExceptT ε (StateM σ) PUnit) s = (.ok ⟨⟩, s') := rfl

@[simp] theorem exec_modify (f : σ → σ) :
    exec (modify f : ExceptT ε (StateM σ) PUnit) s = (.ok ⟨⟩, f s) := rfl

/-- A sequence goes on with the result and the state of its first step. -/
theorem exec_bind (call : ExceptT ε (StateM σ) β) (f : β → ExceptT ε (StateM σ) γ) :
    exec (call >>= f) s =
      match exec call s with
      | (.ok b, s') => exec (f b) s'
      | (.error e, s') => (.error e, s') := by
  change exec (ExceptT.bind call f) s = _
  unfold exec ExceptT.bind ExceptT.run ExceptT.mk
  simp only [StateT.run_bind]
  rcases h : StateT.run (show StateT σ Id (Except ε β) from call) s with ⟨r, s'⟩
  cases r <;> rfl

/-- A sequence whose first step has a result goes on from there. -/
theorem exec_bind_of_ok {call : ExceptT ε (StateM σ) β} {b : β} (h : exec call s = (.ok b, s'))
    (f : β → ExceptT ε (StateM σ) γ) : exec (call >>= f) s = exec (f b) s' := by
  rw [exec_bind, h]

/-- A sequence fails where its first step does. -/
theorem exec_bind_of_error {call : ExceptT ε (StateM σ) β} {e : ε}
    (h : exec call s = (.error e, s')) (f : β → ExceptT ε (StateM σ) γ) :
    exec (call >>= f) s = (.error e, s') := by
  rw [exec_bind, h]

/-- A sequence fails in its first part or after it. -/
theorem exec_bind_eq_error {call : ExceptT ε (StateM σ) β} {f : β → ExceptT ε (StateM σ) γ} {e : ε}
    (h : exec (call >>= f) s = (.error e, s')) :
    exec call s = (.error e, s') ∨
      ∃ b s₁, exec call s = (.ok b, s₁) ∧ exec (f b) s₁ = (.error e, s') := by
  rcases hc : exec call s with ⟨b | b, s₁⟩
  · rw [exec_bind_of_error hc] at h
    cases h
    exact .inl rfl
  · rw [exec_bind_of_ok hc] at h
    exact .inr ⟨b, s₁, rfl, h⟩

/-- A call whose result is not used leaves the same state. -/
@[simp] theorem exec_discard (call : ExceptT ε (StateM σ) β) :
    (exec (discard call) s).2 = (exec call s).2 := by
  have hbind : discard call = call >>= fun _ => pure ⟨⟩ := rfl
  rw [hbind, exec_bind]
  rcases exec call s with ⟨b | b, s'⟩ <;> rfl

/-- A call whose result is dropped has one. -/
theorem exec_discard_eq_ok {call : ExceptT ε (StateM σ) β} {u : Unit}
    (h : exec (discard call) s = (.ok u, s')) : ∃ b, exec call s = (.ok b, s') := by
  rcases hc : exec call s with ⟨b | b, s₁⟩
  · cases (exec_bind_of_error hc _).symm.trans h
  · cases (exec_bind_of_ok hc _).symm.trans h
    exact ⟨b, rfl⟩

/-- A call whose result is dropped fails as the call. -/
theorem exec_discard_eq_error {call : ExceptT ε (StateM σ) β} {e : ε}
    (h : exec (discard call) s = (.error e, s')) : exec call s = (.error e, s') := by
  rcases exec_bind_eq_error h with h | ⟨_, _, -, h⟩
  · exact h
  · cases h

/-- The outcome of a call, taken as a result. -/
theorem exec_lift_run (call : ExceptT ε (StateM σ) β) (s : σ) :
    exec (ExceptT.lift call.run : ExceptT ε (StateM σ) (Except ε β)) s =
      (.ok (exec call s).1, (exec call s).2) := rfl

/-- A failure in other words. -/
theorem exec_adapt (f : ε → δ) (call : ExceptT ε (StateM σ) β) :
    exec (ExceptT.adapt f call) s = ((exec call s).1.mapError f, (exec call s).2) := rfl

/-- A failure in other words comes from a failure. -/
theorem exec_adapt_eq_error {f : ε → δ} {call : ExceptT ε (StateM σ) β} {d : δ}
    (h : exec (ExceptT.adapt f call) s = (.error d, s')) :
    ∃ e, exec call s = (.error e, s') := by
  rw [exec_adapt] at h
  rcases hc : exec call s with ⟨e | b, s₁⟩ <;> rw [hc] at h <;> cases h
  exact ⟨e, rfl⟩

end

/-! ## what a call does -/

/-- From a state of one kind a call comes to a result and a state that belong together, or fails
in a state of a third kind. -/
structure Triple (P : σ → Prop) (call : ExceptT ε (StateM σ) β) (Q : β → σ → Prop) (R : σ → Prop) :
    Prop where
  ok : ∀ {s b s'}, P s → exec call s = (.ok b, s') → Q b s'
  error : ∀ {s e s'}, P s → exec call s = (.error e, s') → R s'

section

variable {P R : σ → Prop} {Q : β → σ → Prop} {T : γ → σ → Prop}

/-- A result leaves the state. -/
theorem triple_pure {b : β} (h : ∀ s, P s → Q b s) :
    Triple P (pure b : ExceptT ε (StateM σ) β) Q R where
  ok := by
    intro s b' s' hs hc
    cases hc
    exact h s hs
  error _ hc := nomatch hc

/-- A failure leaves the state. -/
theorem triple_throw {e : ε} (h : ∀ s, P s → R s) :
    Triple P (throw e : ExceptT ε (StateM σ) β) Q R where
  ok _ hc := nomatch hc
  error := by
    intro s e' s' hs hc
    cases hc
    exact h s hs

/-- A change of the state. -/
theorem triple_modify {f : σ → σ} {Q : PUnit → σ → Prop} (h : ∀ s, P s → Q ⟨⟩ (f s)) :
    Triple P (modify f : ExceptT ε (StateM σ) PUnit) Q R where
  ok := by
    intro s b s' hs hc
    cases hc
    exact h s hs
  error _ hc := nomatch hc

/-- A sequence does what its steps do, if each begins where the last one ends. -/
theorem Triple.bind {call : ExceptT ε (StateM σ) β} {f : β → ExceptT ε (StateM σ) γ}
    (hcall : Triple P call Q R) (hf : ∀ b, Triple (Q b) (f b) T R) :
    Triple P (call >>= f) T R where
  ok := by
    intro s c s' hs hc
    rcases h : exec call s with ⟨b | b, s₁⟩
    · rw [exec_bind_of_error h] at hc
      cases hc
    · rw [exec_bind_of_ok h] at hc
      exact (hf b).ok (hcall.ok hs h) hc
  error := by
    intro s e s' hs hc
    rcases h : exec call s with ⟨b | b, s₁⟩
    · rw [exec_bind_of_error h] at hc
      cases hc
      exact hcall.error hs h
    · rw [exec_bind_of_ok h] at hc
      exact (hf b).error (hcall.ok hs h) hc

/-- More may be known before a call, and less afterwards. -/
theorem Triple.mono {P' R' : σ → Prop} {Q' : β → σ → Prop} {call : ExceptT ε (StateM σ) β}
    (h : Triple P call Q R) (hP : ∀ s, P' s → P s) (hQ : ∀ b s, Q b s → Q' b s)
    (hR : ∀ s, R s → R' s) : Triple P' call Q' R' :=
  ⟨fun hs hc => hQ _ _ (h.ok (hP _ hs) hc), fun hs hc => hR _ (h.error (hP _ hs) hc)⟩

/-- What holds after a call whether it fails or not. -/
theorem Triple.exec {call : ExceptT ε (StateM σ) β} (h : Triple P call Q R) {s : σ} (hs : P s)
    {S : σ → Prop} (hQ : ∀ b s, Q b s → S s) (hR : ∀ s, R s → S s) : S (exec call s).2 := by
  rcases hc : Fluxion.exec call s with ⟨b | b, s'⟩
  · exact hR _ (h.error hs hc)
  · exact hQ _ _ (h.ok hs hc)

/-- A condition that does not speak of the state. -/
theorem triple_of_and {p : Prop} {call : ExceptT ε (StateM σ) β} (h : p → Triple P call Q R) :
    Triple (fun s => P s ∧ p) call Q R :=
  ⟨fun hs hc => (h hs.2).ok hs.1 hc, fun hs hc => (h hs.2).error hs.1 hc⟩

end

/-- A property of states that a call does not do away with, whether it fails or not. -/
def Keeps (P : σ → Prop) (call : ExceptT ε (StateM σ) β) : Prop := Triple P call (fun _ => P) P

section

variable {P : σ → Prop}

/-- A call keeps what holds of the state that it leaves. -/
theorem keeps_of_exec {call : ExceptT ε (StateM σ) β} (h : ∀ s, P s → P (exec call s).2) :
    Keeps P call :=
  ⟨fun hs hc => by simpa [hc] using h _ hs, fun hs hc => by simpa [hc] using h _ hs⟩

theorem Keeps.exec {call : ExceptT ε (StateM σ) β} (h : Keeps P call) {s : σ} (hs : P s) :
    P (exec call s).2 := Triple.exec h hs (fun _ _ h => h) fun _ h => h

theorem keeps_pure (b : β) : Keeps P (pure b : ExceptT ε (StateM σ) β) := triple_pure fun _ h => h

theorem keeps_throw (e : ε) : Keeps P (throw e : ExceptT ε (StateM σ) β) :=
  triple_throw fun _ h => h

theorem keeps_get : Keeps P (get : ExceptT ε (StateM σ) σ) := keeps_of_exec fun _ h => h

theorem keeps_modify {f : σ → σ} (h : ∀ s, P s → P (f s)) :
    Keeps P (modify f : ExceptT ε (StateM σ) PUnit) := keeps_of_exec h

/-- A sequence keeps what its steps keep. -/
theorem Keeps.bind {call : ExceptT ε (StateM σ) β} {f : β → ExceptT ε (StateM σ) γ}
    (hcall : Keeps P call) (hf : ∀ b, Keeps P (f b)) : Keeps P (call >>= f) := Triple.bind hcall hf

/-- What a call does is not a matter of the words for its failure. -/
theorem Triple.adapt {R : σ → Prop} {Q : β → σ → Prop} {call : ExceptT ε (StateM σ) β}
    (h : Triple P call Q R) (f : ε → δ) : Triple P (ExceptT.adapt f call) Q R where
  ok := by
    intro s b s' hs hc
    rw [exec_adapt] at hc
    rcases hx : Fluxion.exec call s with ⟨b | b, s₁⟩ <;> rw [hx] at hc <;> cases hc
    exact h.ok hs hx
  error := by
    intro s e s' hs hc
    rw [exec_adapt] at hc
    rcases hx : Fluxion.exec call s with ⟨b | b, s₁⟩ <;> rw [hx] at hc <;> cases hc
    exact h.error hs hx

/-- A call keeps what it leaves in all cases. -/
theorem Triple.keeps {Q : β → σ → Prop} {call : ExceptT ε (StateM σ) β} (h : Triple P call Q P)
    (hQ : ∀ b s, Q b s → P s) : Keeps P call := h.mono (fun _ h => h) hQ fun _ h => h

theorem Keeps.adapt {call : ExceptT ε (StateM σ) β} (h : Keeps P call) (f : ε → δ) :
    Keeps P (ExceptT.adapt f call) := Triple.adapt h f

theorem Keeps.discard {call : ExceptT ε (StateM σ) β} (h : Keeps P call) :
    Keeps P (discard call) := h.bind fun _ => keeps_pure _

/-- A call on each element of a list. -/
theorem keeps_forM {f : β → ExceptT ε (StateM σ) PUnit} (bs : List β) (h : ∀ b, Keeps P (f b)) :
    Keeps P (bs.forM f) := by
  induction bs with
  | nil => exact keeps_pure _
  | cons b bs ih => exact (h b).bind fun _ => ih

end

end Fluxion

import Fluxion.Noted

/-!
# Fluxion.Proofs.Noted

Computations taken apart, and computations that end at a note.

A sequence that has a result is taken apart by `Noted.bind_ok`.

Some notes can be taken for failures.  `Noted.stopAt` cuts a computation at the first of them, and
`Noted.StopsAt` says of two runs of a computation that one is the other cut in this way.  The
relation holds of a sequence of steps if it holds of the steps, so two versions of a program that
treat a note differently are compared step by step.

* `Noted.stopAt_bind`, `Noted.StopsAt.bind`: sequences;
* `Noted.StopsAt.of_silent`: a step that takes no such note is the same in both runs;
* `Noted.Ends`: what the results and failures of a computation are, and `Noted.Returns`, that it
  does not fail;
* `Noted.Follows`: a computation has a result wherever another one has.
-/

namespace Fluxion.Noted

variable {ν ε δ α β : Type} {stop : ν → Option ε}

/-- A sequence has a result exactly if its steps have one, and notes what its steps note. -/
theorem bind_ok {x : Noted ν ε α} {f : α → Noted ν ε β} {b : β} (h : (x >>= f).result = .ok b) :
    ∃ a, x.result = .ok a ∧ (f a).result = .ok b ∧ (x >>= f).notes = x.notes ++ (f a).notes := by
  cases hx : x.result with
  | error e =>
      rw [bind_result_of_error hx] at h
      cases h
  | ok a =>
      rw [bind_result_of_ok hx] at h
      exact ⟨a, rfl, h, bind_notes_of_ok hx f⟩

/-- A sequence fails at one of its steps. -/
theorem bind_eq_error {x : Noted ν ε α} {f : α → Noted ν ε β} {e : ε}
    (h : (x >>= f).result = .error e) :
    x.result = .error e ∨ ∃ a, x.result = .ok a ∧ (f a).result = .error e := by
  cases hx : x.result with
  | error e' =>
      rw [bind_result_of_error hx] at h
      exact .inl (congrArg Except.error (Except.error.inj h))
  | ok a =>
      rw [bind_result_of_ok hx] at h
      exact .inr ⟨a, rfl, h⟩

/-- Steps may be put together in any way. -/
theorem bind_assoc {γ : Type} (x : Noted ν ε α) (f : α → Noted ν ε β) (g : β → Noted ν ε γ) :
    (x >>= f) >>= g = x >>= fun a => f a >>= g := by
  obtain ⟨ns, r⟩ := x
  cases r with
  | error e => rfl
  | ok a =>
      simp only [bind_eq, Noted.bind]
      cases (f a).result with
      | error e => rfl
      | ok b => simp only [List.append_assoc]

/-- The computation up to the first note that stands for a failure, which then ends it. -/
def stopAt (stop : ν → Option ε) (x : Noted ν ε α) : Noted ν ε α :=
  match x.notes.findSome? stop with
  | some e => ⟨x.notes.takeWhile fun n => (stop n).isNone, .error e⟩
  | none => x

/-- No note stands for a failure. -/
def Silent (stop : ν → Option ε) (ns : List ν) : Prop := ∀ n ∈ ns, stop n = none

theorem silent_nil : Silent stop [] := fun _ h => nomatch h

/-- Notes that are no failures, one after the other. -/
theorem Silent.append {ns ms : List ν} (hn : Silent stop ns) (hm : Silent stop ms) :
    Silent stop (ns ++ ms) := by
  intro n h
  rcases List.mem_append.mp h with h | h
  · exact hn n h
  · exact hm n h

/-- Either no note stands for a failure, or there is a first one. -/
theorem silent_or_first (stop : ν → Option ε) (ns : List ν) :
    Silent stop ns ∨
      ∃ before n after e, ns = before ++ n :: after ∧ Silent stop before ∧ stop n = some e := by
  cases h : ns.findSome? stop with
  | none => exact .inl (List.findSome?_eq_none_iff.mp h)
  | some e =>
      obtain ⟨before, n, after, hns, hn, hbefore⟩ := List.findSome?_eq_some_iff.mp h
      exact .inr ⟨before, n, after, e, hns, hbefore, hn⟩

/-! ## computations cut short -/

/-- A computation without such notes is not cut. -/
theorem stopAt_of_silent {x : Noted ν ε α} (h : Silent stop x.notes) : x.stopAt stop = x := by
  have hnone : x.notes.findSome? stop = none := List.findSome?_eq_none_iff.mpr h
  rw [stopAt, hnone]

/-- A computation is cut at the first such note. -/
theorem stopAt_of_first {x : Noted ν ε α} {before after : List ν} {n : ν} {e : ε}
    (hx : x.notes = before ++ n :: after) (hbefore : Silent stop before) (hn : stop n = some e) :
    x.stopAt stop = ⟨before, .error e⟩ := by
  have hsome : x.notes.findSome? stop = some e :=
    List.findSome?_eq_some_iff.mpr ⟨before, n, after, hx, hn, hbefore⟩
  have htake : x.notes.takeWhile (fun m => (stop m).isNone) = before := by
    rw [hx, List.takeWhile_append_of_pos (fun m hm => by simp [hbefore m hm])]
    simp [hn]
  rw [stopAt, hsome]
  exact congrArg (Noted.mk · _) htake

theorem stopAt_cons {n : ν} {e : ε} (h : stop n = some e) (ns : List ν) (r : Except ε α) :
    stopAt stop ⟨n :: ns, r⟩ = ⟨[], .error e⟩ :=
  stopAt_of_first (show n :: ns = [] ++ n :: ns from rfl) silent_nil h

/-- Notes before the cut stay. -/
theorem stopAt_append {ns : List ν} (hns : Silent stop ns) (x : Noted ν ε α) :
    stopAt stop ⟨ns ++ x.notes, x.result⟩ = ⟨ns ++ (x.stopAt stop).notes, (x.stopAt stop).result⟩ := by
  rcases silent_or_first stop x.notes with hx | ⟨before, n, after, e, hx, hbefore, hn⟩
  · rw [stopAt_of_silent hx]
    exact stopAt_of_silent (hns.append hx)
  · rw [stopAt_of_first hx hbefore hn]
    have hx' : ns ++ x.notes = (ns ++ before) ++ n :: after := by rw [hx, List.append_assoc]
    exact stopAt_of_first hx' (hns.append hbefore) hn

/-- A sequence is cut by cutting its steps. -/
theorem stopAt_bind (x : Noted ν ε α) (f : α → Noted ν ε β) :
    (x >>= f).stopAt stop = x.stopAt stop >>= fun a => (f a).stopAt stop := by
  obtain ⟨ns, r⟩ := x
  rcases silent_or_first stop ns with hns | ⟨before, n, after, e, rfl, hbefore, hn⟩
  · have hx : stopAt stop ⟨ns, r⟩ = ⟨ns, r⟩ := stopAt_of_silent hns
    rw [hx]
    cases r with
    | ok a => exact stopAt_append hns (f a)
    | error e => exact stopAt_of_silent hns
  · have hx : stopAt stop ⟨before ++ n :: after, r⟩ = ⟨before, .error e⟩ :=
      stopAt_of_first rfl hbefore hn
    rw [hx]
    cases r with
    | ok a => exact stopAt_of_first (List.append_assoc before (n :: after) _) hbefore hn
    | error e => exact stopAt_of_first rfl hbefore hn

/-- The cut is the same when failures are put in other words. -/
theorem stopAt_mapError (g : ε → δ) (x : Noted ν ε α) :
    (x.mapError g).stopAt (fun n => (stop n).map g) = (x.stopAt stop).mapError g := by
  have hmap : ∀ {ns}, Silent stop ns → Silent (fun n => (stop n).map g) ns :=
    fun h n hn => Option.map_eq_none_iff.mpr (h n hn)
  rcases silent_or_first stop x.notes with hx | ⟨before, n, after, e, hx, hbefore, hn⟩
  · rw [stopAt_of_silent hx]
    exact stopAt_of_silent (hmap hx)
  · rw [stopAt_of_first hx hbefore hn]
    exact stopAt_of_first hx (hmap hbefore) (Option.map_eq_some_iff.mpr ⟨e, hn, rfl⟩)

/-! ## two runs -/

/-- One run is the other up to the first note that stands for a failure.  The other run does not
itself end in such a failure. -/
structure StopsAt (stop : ν → Option ε) (strict lenient : Noted ν ε α) : Prop where
  eq_stopAt : strict = lenient.stopAt stop
  tolerant : ∀ n e, stop n = some e → lenient.result ≠ .error e

namespace StopsAt

/-- A step that takes no note that stands for a failure is the same in both runs. -/
theorem of_silent {x : Noted ν ε α} (hx : Silent stop x.notes)
    (ht : ∀ n e, stop n = some e → x.result ≠ .error e) : StopsAt stop x x :=
  ⟨(stopAt_of_silent hx).symm, ht⟩

protected theorem pure (a : α) : StopsAt stop (pure a) (pure a) :=
  of_silent silent_nil fun _ _ _ => nofun

/-- A failure ends the strict run where the lenient one takes a note. -/
theorem note {n : ν} {e : ε} (h : stop n = some e) : StopsAt stop (.fail e) (.note n) where
  eq_stopAt := (stopAt_cons h [] (.ok ())).symm
  tolerant _ _ _ := nofun

/-- Sequences are cut where one of their steps is. -/
theorem bind {x x' : Noted ν ε α} {f f' : α → Noted ν ε β} (hx : StopsAt stop x x')
    (hf : ∀ a, StopsAt stop (f a) (f' a)) : StopsAt stop (x >>= f) (x' >>= f') where
  eq_stopAt := by
    rw [stopAt_bind, ← hx.eq_stopAt]
    exact congrArg _ (funext fun a => (hf a).eq_stopAt)
  tolerant := by
    intro n e hn
    cases hr : x'.result with
    | ok a =>
        rw [bind_result_of_ok hr]
        exact (hf a).tolerant n e hn
    | error e' =>
        rw [bind_result_of_error hr]
        intro h
        obtain rfl : e' = e := Except.error.inj h
        exact hx.tolerant n e' hn hr

/-- Failures in other words, which keeps them apart. -/
theorem mapError {x x' : Noted ν ε α} (hx : StopsAt stop x x') {g : ε → δ}
    (hg : ∀ e e', g e = g e' → e = e') :
    StopsAt (fun n => (stop n).map g) (x.mapError g) (x'.mapError g) where
  eq_stopAt := by rw [stopAt_mapError, ← hx.eq_stopAt]
  tolerant := by
    intro n e' hn hr
    obtain ⟨e, he, rfl⟩ := Option.map_eq_some_iff.mp hn
    obtain ⟨ns, r⟩ := x'
    cases r with
    | ok a => exact nomatch hr
    | error e'' =>
        have heq : e'' = e := hg _ _ (Except.error.inj hr)
        exact hx.tolerant n e he (congrArg Except.error heq)

end StopsAt

/-! ## results and failures -/

/-- Every result of a computation is of one kind, and every failure of another. -/
structure Ends (P : α → Prop) (E : ε → Prop) (x : Noted ν ε α) : Prop where
  ok : ∀ a, x.result = .ok a → P a
  error : ∀ e, x.result = .error e → E e

section

variable {P : α → Prop} {Q : β → Prop} {E : ε → Prop}

/-- A result or a failure, without notes. -/
theorem ends_lift {r : Except ε α} (hok : ∀ a, r = .ok a → P a) (herror : ∀ e, r = .error e → E e) :
    Ends P E (.lift r : Noted ν ε α) := ⟨hok, herror⟩

theorem ends_pure {a : α} (h : P a) : Ends P E (pure a : Noted ν ε α) :=
  ends_lift (fun _ hb => Except.ok.inj hb ▸ h) nofun

theorem ends_note (n : ν) : Ends (fun _ => True) E (.note n : Noted ν ε Unit) :=
  ⟨fun _ _ => trivial, nofun⟩

theorem ends_fail {e : ε} (h : E e) : Ends P E (.fail e : Noted ν ε α) :=
  ends_lift nofun fun _ he => Except.error.inj he ▸ h

/-- A sequence ends as its last step does. -/
theorem Ends.bind {x : Noted ν ε α} {f : α → Noted ν ε β} (hx : Ends P E x)
    (hf : ∀ a, P a → Ends Q E (f a)) : Ends Q E (x >>= f) where
  ok b hb := by
    obtain ⟨a, ha, hb, -⟩ := bind_ok hb
    exact (hf a (hx.ok a ha)).ok b hb
  error e he := by
    rcases bind_eq_error he with he | ⟨a, ha, he⟩
    · exact hx.error e he
    · exact (hf a (hx.ok a ha)).error e he

/-- Less may be said of a result. -/
theorem Ends.mono {P' : α → Prop} {x : Noted ν ε α} (hx : Ends P E x) (hP : ∀ a, P a → P' a) :
    Ends P' E x := ⟨fun a ha => hP a (hx.ok a ha), hx.error⟩

/-- A computation has a result, of that kind. -/
abbrev Returns (P : α → Prop) (x : Noted ν ε α) : Prop := Ends P (fun _ => False) x

/-- A computation with a result returns it. -/
theorem returns_of_ok {x : Noted ν ε α} {a : α} (hx : x.result = .ok a) (ha : P a) :
    Returns P x := by
  constructor
  · intro b hb
    rw [hx] at hb
    exact Except.ok.inj hb ▸ ha
  · intro e he
    rw [hx] at he
    cases he

/-- A computation that returns has a result. -/
theorem Ends.exists_ok {x : Noted ν ε α} (hx : Returns P x) :
    ∃ a, x.result = .ok a ∧ P a := by
  cases h : x.result with
  | ok a => exact ⟨a, rfl, hx.ok a h⟩
  | error e => exact (hx.error e h).elim

/-- Failures in other words. -/
theorem Ends.mapError {E : δ → Prop} {g : ε → δ} {x : Noted ν ε α}
    (hx : Ends P (fun e => E (g e)) x) : Ends P E (x.mapError g) := by
  obtain ⟨ns, r⟩ := x
  cases r with
  | ok a => exact ⟨fun b hb => hx.ok b (congrArg Except.ok (Except.ok.inj hb)), nofun⟩
  | error e => exact ⟨nofun, fun e' he' => Except.error.inj he' ▸ hx.error e rfl⟩

end

/-! ## one computation after another -/

section

variable {μ α' β' : Type} {R : α → α' → Prop} {S : β → β' → Prop}

/-- A computation has a result wherever another one has, and the results are related. -/
def Follows (R : α → α' → Prop) (x : Noted ν ε α) (y : Noted μ δ α') : Prop :=
  ∀ a', y.result = .ok a' → ∃ a, x.result = .ok a ∧ R a a'

/-- Results that belong together. -/
theorem follows_pure {a : α} {a' : α'} (h : R a a') :
    Follows R (pure a : Noted ν ε α) (pure a' : Noted μ δ α') := by
  intro b' hb'
  obtain rfl := Except.ok.inj hb'
  exact ⟨a, rfl, h⟩

/-- Where the other computation fails there is nothing to follow. -/
theorem follows_of_error {x : Noted ν ε α} {y : Noted μ δ α'} {e : δ} (h : y.result = .error e) :
    Follows R x y := by
  intro a' ha'
  rw [h] at ha'
  cases ha'

/-- Sequences follow if their steps do. -/
theorem Follows.bind {x : Noted ν ε α} {y : Noted μ δ α'} {f : α → Noted ν ε β}
    {g : α' → Noted μ δ β'} (hx : Follows R x y)
    (hf : ∀ a a', x.result = .ok a → y.result = .ok a' → R a a' → Follows S (f a) (g a')) :
    Follows S (x >>= f) (y >>= g) := by
  intro b' hb'
  obtain ⟨a', ha', hg, -⟩ := bind_ok hb'
  obtain ⟨a, ha, hr⟩ := hx a' ha'
  obtain ⟨b, hb, hs⟩ := hf a a' ha ha' hr b' hg
  exact ⟨b, (bind_result_of_ok ha f).trans hb, hs⟩

end

end Fluxion.Noted

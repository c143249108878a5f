/-!
# Fluxion.Noted

Computations that take notes and may fail.

The notes come in the order in which they were taken and outlive a failure: whatever was
noted before it stays.  A computation is a plain pair, so running one is projecting its
result, and two computations are compared note by note.

* `Noted.bind_notes_of_ok`, `Noted.bind_notes_of_error`: what a sequence notes;
* `Noted.mapNotes`: the same computation with its notes in other words.
-/

namespace Fluxion

/-- A result, or a failure, with the notes taken on the way. -/
structure Noted (ν ε α : Type) where
  notes : List ν
  result : Except ε α

namespace Noted

variable {ν μ ε α β : Type}

/-- A result without notes. -/
protected def pure (a : α) : Noted ν ε α := ⟨[], .ok a⟩

/-- Go on with a result; a failure ends the computation. -/
protected def bind (x : Noted ν ε α) (f : α → Noted ν ε β) : Noted ν ε β :=
  match x.result with
  | .ok a =>
    let y := f a
    ⟨x.notes ++ y.notes, y.result⟩
  | .error e => ⟨x.notes, .error e⟩

instance : Monad (Noted ν ε) where
  pure := Noted.pure
  bind := Noted.bind

/-- Fail without a note. -/
def fail (e : ε) : Noted ν ε α := ⟨[], .error e⟩

/-- Take a note. -/
def note (n : ν) : Noted ν ε Unit := ⟨[n], .ok ()⟩

/-- A computation that takes no notes. -/
def lift (r : Except ε α) : Noted ν ε α := ⟨[], r⟩

/-- All notes at once in other words. -/
def mapNotes (f : List ν → List μ) (x : Noted ν ε α) : Noted μ ε α := ⟨f x.notes, x.result⟩

/-- The same computation with its failure in other words. -/
def mapError {δ : Type} (f : ε → δ) (x : Noted ν ε α) : Noted ν δ α :=
  ⟨x.notes, x.result.mapError f⟩

@[simp] theorem pure_eq (a : α) : (pure a : Noted ν ε α) = ⟨[], .ok a⟩ := rfl

theorem bind_eq (x : Noted ν ε α) (f : α → Noted ν ε β) : x >>= f = x.bind f := rfl

theorem bind_notes_of_ok {x : Noted ν ε α} {a : α} (h : x.result = .ok a) (f : α → Noted ν ε β) :
    (x >>= f).notes = x.notes ++ (f a).notes := by
  simp [bind_eq, Noted.bind, h]

theorem bind_result_of_ok {x : Noted ν ε α} {a : α} (h : x.result = .ok a) (f : α → Noted ν ε β) :
    (x >>= f).result = (f a).result := by
  simp [bind_eq, Noted.bind, h]

theorem bind_notes_of_error {x : Noted ν ε α} {e : ε} (h : x.result = .error e)
    (f : α → Noted ν ε β) : (x >>= f).notes = x.notes := by
  simp [bind_eq, Noted.bind, h]

theorem bind_result_of_error {x : Noted ν ε α} {e : ε} (h : x.result = .error e)
    (f : α → Noted ν ε β) : (x >>= f).result = .error e := by
  simp [bind_eq, Noted.bind, h]

end Noted

end Fluxion

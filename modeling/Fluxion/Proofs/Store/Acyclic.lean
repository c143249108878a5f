import Fluxion.Proofs.Store.Calls
import Mathlib.Data.Finset.Card
import Mathlib.Data.Finset.Range
import Mathlib.Logic.Relation

/-!
# Fluxion.Proofs.Store.Acyclic

Links that do not go round in a circle, and the one way to close a circle.

Below a node there are only so many others, so ways down and up come to an end (`Store.rank`).  A
circle is closed exactly by putting a node below itself or below one that stands below it
(`Store.Closes`); no other call can do it, as all others put nodes below new ones only.
-/

namespace Fluxion.Store

open Relation

variable {α : Type} {s : Store α} {n m c : NodeId} {slot : Slot}

/-- A node stands in a place below another one. -/
def Holds (s : Store α) (n c : NodeId) : Prop := ∃ slot, s.child? n slot = some c

/-- A node is another one or stands below it. -/
def Below (s : Store α) (n c : NodeId) : Prop := ReflTransGen s.Holds n c

/-- No node stands below itself. -/
def Acyclic (s : Store α) : Prop := ∀ n, ¬TransGen s.Holds n n

theorem Paired.holds_iff (h : s.Paired) : s.Holds n c ↔ s.parent? c = some n := h.child_iff n c

theorem Paired.holder_unique (h : s.Paired) (hn : s.Holds n c) (hm : s.Holds m c) : n = m := by
  simpa [h.holds_iff.mp hm, eq_comm] using h.holds_iff.mp hn

theorem Paired.holds_lt (h : s.Paired) (hc : s.Holds n c) : n < s.length ∧ c < s.length :=
  ⟨lt_of_child hc.choose_spec, lt_of_parent (h.holds_iff.mp hc)⟩

/-! ## nodes below a root -/

/-- A node stands below one that has no parent, or has none itself. -/
def Rooted (s : Store α) (n : NodeId) : Prop := ∃ r, s.parent? r = none ∧ s.Below r n

theorem rooted_of_parent (h : s.parent? n = none) : s.Rooted n := ⟨n, h, .refl⟩

theorem Rooted.child (h : s.Rooted n) (hc : s.Holds n c) : s.Rooted c :=
  ⟨h.choose, h.choose_spec.1, h.choose_spec.2.tail hc⟩

/-- A circle could only be entered from above at a node with two parents. -/
theorem Paired.not_transGen (hs : s.Paired) (h : s.Rooted n) : ¬TransGen s.Holds n n := by
  obtain ⟨r, hr, hbelow⟩ := h
  induction hbelow with
  | refl =>
    intro hcircle
    obtain ⟨m, -, hm⟩ := TransGen.tail'_iff.mp hcircle
    simp [hs.holds_iff.mp hm] at hr
  | tail _ hmn ih =>
    intro hcircle
    obtain ⟨p, hnp, hpn⟩ := TransGen.tail'_iff.mp hcircle
    obtain rfl := hs.holder_unique hmn hpn
    exact ih (.head' hmn hnp)

/-- Of two nodes above a third one, one is above the other. -/
theorem Paired.below_total (hs : s.Paired) {m₁ m₂ : NodeId} (h₁ : s.Below m₁ n)
    (h₂ : s.Below m₂ n) : s.Below m₁ m₂ ∨ s.Below m₂ m₁ := by
  induction h₁ with
  | refl => exact .inr h₂
  | tail h₁ hn ih =>
    rcases h₂.cases_tail with rfl | ⟨p, hp, hpn⟩
    · exact .inl (h₁.tail hn)
    · obtain rfl := hs.holder_unique hn hpn
      exact ih hp

/-- A node without a parent is below no other. -/
theorem Paired.eq_of_below (hs : s.Paired) (h : s.Below m n) (hn : s.parent? n = none) : m = n := by
  rcases h.cases_tail with rfl | ⟨p, -, hp⟩
  · rfl
  · simp [hs.holds_iff.mp hp] at hn

/-- A node stands below one root only. -/
theorem Paired.eq_of_roots (hs : s.Paired) {m₁ m₂ : NodeId} (hm₁ : s.parent? m₁ = none)
    (hm₂ : s.parent? m₂ = none) (h₁ : s.Below m₁ n) (h₂ : s.Below m₂ n) : m₁ = m₂ := by
  rcases hs.below_total h₁ h₂ with h | h
  · exact hs.eq_of_below h hm₂
  · exact (hs.eq_of_below h hm₁).symm

/-- Of two children of a node neither stands below the other. -/
theorem Paired.eq_of_siblings (hs : s.Paired) (h : s.Rooted n) {c₁ c₂ : NodeId}
    (h₁ : s.Holds n c₁) (h₂ : s.Holds n c₂) (hbelow : s.Below c₁ c₂) : c₁ = c₂ := by
  rcases hbelow.cases_tail with rfl | ⟨p, hp, hpc⟩
  · rfl
  · obtain rfl := hs.holder_unique h₂ hpc
    exact absurd (TransGen.head' h₁ hp) (hs.not_transGen h)

/-- The number of nodes below a node. -/
noncomputable def rank (s : Store α) (n : NodeId) : Nat :=
  open Classical in ((Finset.range s.length).filter fun m => TransGen s.Holds n m).card

theorem rank_le : s.rank n ≤ s.length := by
  classical
  simpa [rank] using Finset.card_filter_le (Finset.range s.length) fun m => TransGen s.Holds n m

theorem Paired.rank_lt (hs : s.Paired) (hc : s.Holds n c) (hcircle : ¬TransGen s.Holds c c) :
    s.rank c < s.rank n := by
  classical
  refine Finset.card_lt_card (Finset.ssubset_iff_subset_ne.mpr ⟨fun m hm => ?_, fun heq => ?_⟩)
  · simp only [Finset.mem_filter] at hm ⊢
    exact ⟨hm.1, .head hc hm.2⟩
  · have hmem : c ∈ (Finset.range s.length).filter fun m => TransGen s.Holds n m := by
      simp [(hs.holds_lt hc).2, TransGen.single hc]
    rw [← heq] at hmem
    exact hcircle (Finset.mem_filter.mp hmem).2

theorem Paired.rank_child (hs : s.Paired) (h : s.Rooted n) (hc : s.Holds n c) :
    s.rank c < s.rank n := hs.rank_lt hc (hs.not_transGen (h.child hc))

theorem Paired.child?_of_rank_le (hs : s.Paired) (h : s.Rooted n) (hk : s.rank n ≤ 0)
    (slot : Slot) : s.child? n slot = none := by
  cases hc : s.child? n slot with
  | none => rfl
  | some c => exact absurd (hs.rank_child h ⟨slot, hc⟩) (by omega)

/-- The way down on one side ends where nothing is left on that side. -/
theorem Paired.child?_outermost (hs : s.Paired) (slot : Slot) {k : Nat} (h : s.Rooted n)
    (hk : s.rank n ≤ k) : s.child? (s.outermost slot k n) slot = none := by
  induction k generalizing n with
  | zero => exact hs.child?_of_rank_le h hk slot
  | succ k ih =>
    cases hc : s.child? n slot with
    | none => simp [outermost, hc]
    | some c =>
      have := hs.rank_child h ⟨slot, hc⟩
      simpa [outermost, hc] using ih (h.child ⟨slot, hc⟩) (by omega)

/-! ## the only way to close a circle -/

theorem holds_of_attach (hn : n < s.length) {x y : NodeId} (h : (s.attach n slot c).Holds x y) :
    s.Holds x y ∨ x = n ∧ y = c := by
  obtain ⟨slot', h⟩ := h
  rw [child?_attach hn] at h
  split at h
  · rename_i hx
    exact .inr ⟨hx.1, (Option.some.inj h).symm⟩
  · exact .inl ⟨slot', h⟩

/-- A way down that was not there before goes over the new link. -/
theorem transGen_of_attach (hn : n < s.length) {x y : NodeId}
    (h : TransGen (s.attach n slot c).Holds x y) :
    TransGen s.Holds x y ∨ s.Below x n ∧ s.Below c y := by
  induction h with
  | single h =>
    rcases holds_of_attach hn h with h | ⟨rfl, rfl⟩
    · exact .inl (.single h)
    · exact .inr ⟨.refl, .refl⟩
  | tail _ h ih =>
    rcases holds_of_attach hn h with h | ⟨rfl, rfl⟩
    · exact ih.imp (·.tail h) fun hxy => ⟨hxy.1, hxy.2.tail h⟩
    · exact .inr ⟨ih.elim (·.to_reflTransGen) (·.1), .refl⟩

theorem Acyclic.attach (h : s.Acyclic) (hn : n < s.length) (hc : ¬s.Below c n) :
    (s.attach n slot c).Acyclic := fun x hx =>
  (transGen_of_attach hn hx).elim (h x) fun hxx => hc (hxx.2.trans hxx.1)

/-- A way that ends at a node does not lead over its places. -/
theorem Acyclic.below_attach (h : s.Acyclic) (hn : n < s.length) (hc : s.Below m n) :
    (s.attach n slot c).Below m n := by
  induction hc using ReflTransGen.head_induction_on with
  | refl => exact .refl
  | head hxy hyn ih =>
    have ⟨slot', hslot⟩ := hxy
    refine ih.head ⟨slot', ?_⟩
    rw [child?_attach hn, if_neg, hslot]
    rintro ⟨rfl, -⟩
    exact h _ (.head' hxy hyn)

/-- Putting a node below one that it is above closes a circle. -/
theorem Acyclic.not_attach (h : s.Acyclic) (hn : n < s.length) (hc : s.Below c n) :
    ¬(s.attach n slot c).Acyclic := by
  intro hacyclic
  have hlink : (s.attach n slot c).Holds n c := ⟨slot, by simp [child?_attach hn]⟩
  exact hacyclic n (.head' hlink (h.below_attach hn hc))

theorem acyclic_nil : Acyclic ([] : Store α) := by
  intro n hn
  obtain ⟨m, ⟨slot, hm⟩, -⟩ := TransGen.head'_iff.mp hn
  simp [child?] at hm

/-- Fewer links do not close a circle. -/
theorem Acyclic.mono {s' : Store α} (h : s.Acyclic) (hs : ∀ x y, s'.Holds x y → s.Holds x y) :
    s'.Acyclic := fun n hn => h n (TransGen.mono hs _ _ hn)

theorem stable_acyclic : Stable fun s : Store α => s.Linked ∧ s.Acyclic where
  append op value h := ⟨h.1.append op value, h.2.mono fun x y hxy => by simpa [Holds] using hxy⟩
  attach h ha hfree hne := by
    refine ⟨stable_linked.attach h.1 ha hfree hne, h.2.attach ha.holder fun hbelow => ?_⟩
    -- above a node without a parent there is only the node itself
    rcases hbelow.cases_tail with rfl | ⟨x, -, hx⟩
    · exact hne rfl
    · simp [h.1.paired.holds_iff.mp hx] at hfree
  detach h := by
    refine ⟨h.1.detach, h.2.mono fun x y ⟨slot, hxy⟩ => ⟨slot, ?_⟩⟩
    rw [h.1.paired.child?_detach] at hxy
    grind
  giveUp h hp hn := ⟨h.1.giveUp hp, h.2.mono fun x y hxy => by simpa [Holds] using hxy⟩

/-- A call puts a node into a place below itself. -/
def Closes (s : Store α) (call : Call α) : Prop :=
  ∃ n slot c, s.Puts call n slot c ∧ s.Accepts n c ∧ s.Below c n

/-- The only call that leads to a circle is one that puts a node below itself. -/
theorem acyclic_after_iff (hs : s.Linked) (h : s.Acyclic) (call : Call α) :
    (s.after call).Acyclic ↔ ¬s.Closes call := by
  constructor
  · rintro hafter ⟨n, slot, c, hputs, ha, hbelow⟩
    rw [after_of_puts hputs ha] at hafter
    exact h.not_attach ha.holder hbelow hafter
  · intro hcloses
    refine (stable_acyclic.after ⟨hs, h⟩ call fun n slot c hputs ha => ⟨?_, ?_⟩).2
    · exact hs.attach ha.holder ha.child ha.free ha.inner
    · exact h.attach ha.holder fun hbelow => hcloses ⟨n, slot, c, hputs, ha, hbelow⟩

/-! ## stores without circles -/

/-- Ways down come to an end. -/
theorem Acyclic.wellFounded_holds (hs : s.Paired) (h : s.Acyclic) :
    WellFounded fun c n => s.Holds n c :=
  Subrelation.wf (fun hc => hs.rank_lt hc (h _)) (measure s.rank).wf

/-- Ways up come to an end. -/
theorem Acyclic.wellFounded_parent (hs : s.Paired) (h : s.Acyclic) :
    WellFounded fun p n => s.parent? n = some p := by
  refine Subrelation.wf (fun {p n} hp => ?_) (measure fun n => s.length - s.rank n).wf
  have := hs.rank_lt (hs.holds_iff.mpr hp) (h n)
  have := s.rank_le (n := p)
  change s.length - s.rank p < s.length - s.rank n
  omega

theorem Acyclic.rooted (hs : s.Paired) (h : s.Acyclic) (n : NodeId) : s.Rooted n := by
  induction n using (h.wellFounded_parent hs).induction with
  | _ n ih =>
    cases hp : s.parent? n with
    | none => exact rooted_of_parent hp
    | some p => exact (ih p hp).child (hs.holds_iff.mpr hp)

end Fluxion.Store

import Fluxion.Proofs.Noted
import Fluxion.Term.Rules
import Mathlib.Data.Set.BooleanAlgebra
import Mathlib.Data.Set.Disjoint
import Mathlib.Order.CompletePartialOrder

/-!
# Fluxion.Proofs.Term.Linear

The rules of simplification on terms that own something.

A rule does not care what its operands are beyond what it sees of them, so it does to terms that
stand for others what it does to these (`Gives.result`).  And it uses no operand twice: of terms
that own different things it makes one that owns no more than they do together (`Gives.owns`).

* `Term.Linear`: terms that stand for others and own something;
* `Term.Linear.reduceBin`, `Term.Linear.reduceNum`, `Term.Linear.reduceNeg`,
  `Term.Linear.reduceApp`: the four kinds of nodes.
-/

namespace Fluxion

/-- The same sight in other words. -/
def View.map {α β γ : Type} (f : β → γ) : View α β → View α γ
  | number v => .number v
  | negation a => .negation (f a)
  | other => .other

namespace Term

variable {α β γ ε δ ι : Type}

section

variable [Term α β] [Term α γ]

/-- Terms `β` that stand for terms `γ`, and of which each owns some things `ι` of its own.  A term
owns what its parts own, and what is seen of it owns no more. -/
structure Linear (φ : β → γ) (Owns : Set ι → β → Prop) : Prop where
  map_num (v : α) : φ (num v) = num v
  map_bin (op : BinOp) (a b : β) : φ (bin op a b) = bin op (φ a) (φ b)
  map_neg (a : β) : φ (neg a) = neg (φ a)
  map_app (f : Fn) (a : β) : φ (app f a) = app f (φ a)
  same_eq (a b : β) : same (φ a) (φ b) = same a b
  view_eq {A : Set ι} {a : β} : Owns A a → view (φ a) = (view a).map φ
  operand {A : Set ι} {a x : β} : Owns A a → view a = .negation x → Owns A x
  mono {A B : Set ι} {a : β} : Owns A a → A ⊆ B → Owns B a
  num {A : Set ι} (v : α) : Owns A (num v)
  bin {A B : Set ι} {a b : β} (op : BinOp) : Owns A a → Owns B b → Disjoint A B →
    Owns (A ∪ B) (bin op a b)
  neg {A : Set ι} {a : β} : Owns A a → Owns A (neg a)
  app {A : Set ι} {a : β} (f : Fn) : Owns A a → Owns A (app f a)

end

section

variable {φ : β → γ} {Owns : Set ι → β → Prop} {f : ε → δ} {A B C : Set ι}

/-- What a rule offers for a node, if it applies, stands for what it offers for the other one, and
owns no more than some things. -/
structure Offers (φ : β → γ) (Owns : Set ι → β → Prop) (C : Set ι) (o : Option β)
    (o' : Option γ) : Prop where
  result : o' = o.map φ
  owns : ∀ t, o = some t → Owns C t

/-- What a step of simplification does is what it does to the other terms, and its result owns no
more than some things. -/
structure Gives (φ : β → γ) (Owns : Set ι → β → Prop) (f : ε → δ) (C : Set ι)
    (x : Noted (Diagnostic α β) ε (Option β)) (x' : Noted (Diagnostic α γ) δ (Option γ)) :
    Prop where
  notes : x'.notes = x.notes.map (·.map φ)
  result : x'.result = (x.result.map (Option.map φ)).mapError f
  owns : ∀ t, x.result = .ok (some t) → Owns C t

theorem offers_none : Offers φ Owns C none none := ⟨rfl, nofun⟩

/-- A term that is offered for another one. -/
theorem offers_some {t : β} {t' : γ} (ht : t' = φ t) (h : Owns C t) :
    Offers φ Owns C (some t) (some t') :=
  ⟨congrArg some ht, fun _ he => Option.some.inj he ▸ h⟩

/-- What is offered without notes is given. -/
theorem Offers.gives {o : Option β} {o' : Option γ} (h : Offers φ Owns C o o') :
    Gives φ Owns f C (pure o : Noted (Diagnostic α β) ε (Option β)) (pure o') :=
  ⟨rfl, by rw [h.result]; rfl, fun t ht => h.owns t (Except.ok.inj ht)⟩

/-- The same failure on both sides. -/
theorem gives_fail (e : ε) :
    Gives φ Owns f C (.fail e : Noted (Diagnostic α β) ε (Option β)) (.fail (f e)) :=
  ⟨rfl, rfl, nofun⟩

/-- A diagnostic is reported of the same node, which then stays. -/
theorem gives_report (s : Strictness) (d : Diagnostic α β) :
    Gives φ Owns (SimplifyError.map φ) C
      (s.report d >>= fun _ => pure none : Simplifying α β (Option β))
      (s.report (d.map φ) >>= fun _ => pure none) := by
  cases s <;> exact ⟨rfl, rfl, nofun⟩

/-- One link in a chain of comparisons. -/
theorem gives_ite {c c' : Bool} {p q : Noted (Diagnostic α β) ε (Option β)}
    {p' q' : Noted (Diagnostic α γ) δ (Option γ)} (hc : c' = c) (hp : Gives φ Owns f C p p')
    (hq : Gives φ Owns f C q q') :
    Gives φ Owns f C (if c then p else q) (if c' then p' else q') := by
  subst hc
  cases c'
  · exact hq
  · exact hp

/-- Failures in other words. -/
theorem Gives.mapError {ε' δ' : Type} {f' : ε' → δ'} {g : ε → ε'} {g' : δ → δ'}
    {x : Noted (Diagnostic α β) ε (Option β)} {x' : Noted (Diagnostic α γ) δ (Option γ)}
    (h : Gives φ Owns f C x x') (hg : ∀ e, g' (f e) = f' (g e)) :
    Gives φ Owns f' C (x.mapError g) (x'.mapError g') where
  notes := h.notes
  result := by
    have hr := h.result
    simp only [Noted.mapError] at hr ⊢
    rw [hr]
    cases x.result with
    | ok o => rfl
    | error e => exact congrArg Except.error (hg e)
  owns t ht := by
    refine h.owns t ?_
    simp only [Noted.mapError] at ht
    cases hx : x.result with
    | ok o =>
      rw [hx] at ht
      exact congrArg Except.ok (Except.ok.inj ht)
    | error e =>
      rw [hx] at ht
      cases ht

/-- A rule and those that are tried after it. -/
theorem Gives.orElse {x y : Noted (Diagnostic α β) ε (Option β)}
    {x' y' : Noted (Diagnostic α γ) δ (Option γ)} (hx : Gives φ Owns f C x x')
    (hy : Gives φ Owns f C y y') :
    Gives φ Owns f C (x >>= fun o => match o with | some t => pure (some t) | none => y)
      (x' >>= fun o => match o with | some t => pure (some t) | none => y') := by
  have hr := hx.result
  rcases hr' : x.result with e | _ | t <;> rw [hr'] at hr
  · refine ⟨?_, ?_, fun t ht => ?_⟩
    · rw [Noted.bind_notes_of_error hr, Noted.bind_notes_of_error hr', hx.notes]
    · rw [Noted.bind_result_of_error hr, Noted.bind_result_of_error hr']
      rfl
    · rw [Noted.bind_result_of_error hr'] at ht
      cases ht
  · refine ⟨?_, ?_, fun t ht => ?_⟩
    · rw [Noted.bind_notes_of_ok hr, Noted.bind_notes_of_ok hr', List.map_append, hx.notes,
        ← hy.notes]
      rfl
    · rw [Noted.bind_result_of_ok hr, Noted.bind_result_of_ok hr', ← hy.result]
      rfl
    · rw [Noted.bind_result_of_ok hr'] at ht
      exact hy.owns t ht
  · refine ⟨?_, ?_, fun u hu => ?_⟩
    · rw [Noted.bind_notes_of_ok hr, Noted.bind_notes_of_ok hr', List.map_append, hx.notes]
      rfl
    · rw [Noted.bind_result_of_ok hr, Noted.bind_result_of_ok hr']
      rfl
    · rw [Noted.bind_result_of_ok hr'] at hu
      obtain rfl := Option.some.inj (Except.ok.inj hu)
      exact hx.owns t hr'

end

namespace Linear

section

variable [Term α β] [Term α γ] {φ : β → γ} {Owns : Set ι → β → Prop} {A B : Set ι} {a b : β}

/-- What is owned on the left is owned by both together. -/
theorem left (h : Linear φ Owns) (ha : Owns A a) : Owns (A ∪ B) a := h.mono ha Set.subset_union_left

/-- What is owned on the right is owned by both together. -/
theorem right (h : Linear φ Owns) (hb : Owns B b) : Owns (A ∪ B) b :=
  h.mono hb Set.subset_union_right

/-- An operation on terms that own different things owns what they own. -/
theorem offers_bin (h : Linear φ Owns) (op : BinOp) (ha : Owns A a) (hb : Owns B b)
    (hd : Disjoint A B) :
    Offers φ Owns (A ∪ B) (some (Term.bin op a b)) (some (Term.bin op (φ a) (φ b))) :=
  offers_some (h.map_bin op a b).symm (h.bin op ha hb hd)

/-- Operands in the other order. -/
theorem offers_bin_swap (h : Linear φ Owns) (op : BinOp) (ha : Owns A a) (hb : Owns B b)
    (hd : Disjoint A B) :
    Offers φ Owns (A ∪ B) (some (Term.bin op b a)) (some (Term.bin op (φ b) (φ a))) :=
  offers_some (h.map_bin op b a).symm
    (h.mono (h.bin op hb ha hd.symm) (Set.union_comm B A).subset)

/-- A negation owns what its operand owns. -/
theorem offers_neg (h : Linear φ Owns) {a' : γ} (ha : Offers φ Owns A (some a) (some a')) :
    Offers φ Owns A (some (Term.neg a)) (some (Term.neg a')) := by
  obtain rfl : a' = φ a := Option.some.inj ha.result
  exact offers_some (h.map_neg a).symm (h.neg (ha.owns a rfl))

/-- A function owns what its operand owns. -/
theorem offers_app (h : Linear φ Owns) (f : Fn) (ha : Owns A a) :
    Offers φ Owns A (some (Term.app f a)) (some (Term.app f (φ a))) :=
  offers_some (h.map_app f a).symm (h.app f ha)

/-- A number owns nothing. -/
theorem offers_num (h : Linear φ Owns) (v : α) :
    Offers φ Owns A (some (Term.num v)) (some (Term.num v)) :=
  offers_some (h.map_num v).symm (h.num v)

/-- Negations are the same on both sides. -/
theorem isNeg_eq (h : Linear φ Owns) (ha : Owns A a) : isNeg (φ a) = isNeg a := by
  unfold isNeg
  rw [h.view_eq ha]
  cases view a <;> rfl

/-- Numbers are the same on both sides. -/
theorem number?_eq (h : Linear φ Owns) (ha : Owns A a) : number? (φ a) = number? a := by
  unfold number?
  rw [h.view_eq ha]
  cases view a <;> rfl

/-- Negations move in the same way, and each operand stays in one place. -/
theorem hoistNeg (h : Linear φ Owns) (ha : Owns A a) (hb : Owns B b) (hd : Disjoint A B) :
    Offers φ Owns (A ∪ B) (hoistNeg? op a b) (hoistNeg? op (φ a) (φ b)) := by
  have hx : ∀ {x}, view a = .negation x → Owns A x := h.operand ha
  have hy : ∀ {y}, view b = .negation y → Owns B y := h.operand hb
  unfold hoistNeg?
  rw [h.view_eq ha, h.view_eq hb]
  cases hva : view a <;> cases hvb : view b <;> cases op <;>
    first
    | exact offers_none
    | exact h.offers_bin _ ha (hy hvb) hd
    | exact h.offers_neg (h.offers_bin _ ha (hy hvb) hd)
    | exact h.offers_bin _ (hx hva) (hy hvb) hd
    | exact h.offers_neg (h.offers_bin _ (hx hva) (hy hvb) hd)
    | exact h.offers_bin_swap _ (hx hva) hb hd
    | exact h.offers_neg (h.offers_bin _ (hx hva) hb hd)

end

variable [Arith α] [Term α β] [Term α γ] {φ : β → γ} {Owns : Set ι → β → Prop} {A B : Set ι}
  {a b : β} {s : Strictness} {op : BinOp}

/-- A literal is mapped to the same literal. -/
theorem map_literal (h : Linear φ Owns) (v : α) : φ (literal v) = literal v := by
  unfold literal
  split
  · exact h.map_num v
  · rw [h.map_neg, h.map_num]

/-- A literal owns nothing. -/
theorem literal (h : Linear φ Owns) (v : α) : Owns A (Term.literal v) := by
  unfold Term.literal
  split
  · exact h.num v
  · exact h.neg (h.num _)

/-- Numbers near another one are the same on both sides. -/
theorem isNear_eq (h : Linear φ Owns) (ha : Owns A a) (w : α) : isNear w (φ a) = isNear w a := by
  unfold isNear
  rw [h.view_eq ha]
  cases view a <;> rfl

/-- Literals are the same on both sides. -/
theorem literal?_eq (h : Linear φ Owns) (ha : Owns A a) : literal? (φ a) = literal? a := by
  unfold literal?
  rw [h.view_eq ha]
  cases hv : view a with
  | number v => rfl
  | negation x => simp only [View.map, h.number?_eq (h.operand ha hv)]
  | other => rfl

/-! ## binary nodes -/

/-- Numbers are folded in the same way. -/
theorem fold (h : Linear φ Owns) (v w : α) :
    Gives φ Owns (SimplifyError.map φ) (A ∪ B) (fold s op a b v w)
      (fold s op (φ a) (φ b) v w) := by
  unfold Term.fold
  split
  · rw [← h.map_bin]
    exact gives_report s _
  · split
    · exact gives_report s _
    · exact gives_report s _
    · split
      · exact (offers_some (h.map_literal _).symm (h.literal _)).gives
      · exact gives_report s _

/-- Neutral operands are dropped in the same way. -/
theorem identity (h : Linear φ Owns) (ha : Owns A a) (hb : Owns B b) :
    Gives φ Owns (SimplifyError.map φ) (A ∪ B) (identity s op a b)
      (identity s op (φ a) (φ b)) := by
  have hnear : ∀ w, isNear w (φ a) = isNear w a := h.isNear_eq ha
  have hnear' : ∀ w, isNear w (φ b) = isNear w b := h.isNear_eq hb
  have hleft : Offers φ Owns (A ∪ B) (some a) (some (φ a)) := offers_some rfl (h.left ha)
  have hright : Offers φ Owns (A ∪ B) (some b) (some (φ b)) := offers_some rfl (h.right hb)
  have hnone : Gives φ Owns (SimplifyError.map φ) (A ∪ B)
      (pure none : Simplifying α β (Option β)) (pure none) := offers_none.gives
  have hnum : ∀ v : α, Gives φ Owns (SimplifyError.map φ) (A ∪ B)
      (pure (some (Term.num v)) : Simplifying α β (Option β)) (pure (some (Term.num v))) :=
    fun v => (h.offers_num v).gives
  cases op with
  | add =>
    exact gives_ite (hnear' _) hleft.gives (gives_ite (hnear _) hright.gives hnone)
  | sub =>
    exact gives_ite (hnear' _) hleft.gives
      (gives_ite (hnear _) (h.offers_neg hright).gives hnone)
  | mul =>
    refine gives_ite (congrArg₂ _ (hnear _) (hnear' _)) (hnum _) ?_
    exact gives_ite (hnear' _) hleft.gives (gives_ite (hnear _) hright.gives hnone)
  | div =>
    refine gives_ite (hnear' _) ?_ (gives_ite (hnear _) (hnum _)
      (gives_ite (hnear' _) hleft.gives hnone))
    rw [← h.map_bin]
    exact gives_report s _
  | pow =>
    refine gives_ite (hnear' _) (hnum _) (gives_ite (hnear' _) hleft.gives
      (gives_ite (hnear _) (hnum _) (gives_ite ?_ (hnum _) hnone)))
    rw [h.isNeg_eq hb]
    exact congrArg (· && !isNeg b) (hnear _)

/-- Equal operands collapse in the same way, and what is left owns one of them only. -/
theorem collapse (h : Linear φ Owns) (ha : Owns A a) :
    Offers φ Owns A (collapse? op a b) (collapse? op (φ a) (φ b)) := by
  have htwo : Owns (∅ : Set ι) (Term.num Arith.two) := h.num _
  unfold collapse?
  rw [h.same_eq]
  split
  · cases op with
    | add =>
      refine offers_some (by rw [h.map_bin, h.map_num]) ?_
      exact h.mono (h.bin .mul htwo ha (Set.empty_disjoint A)) (Set.empty_union A).subset
    | mul =>
      refine offers_some (by rw [h.map_bin, h.map_num]) ?_
      exact h.mono (h.bin .pow ha htwo (Set.disjoint_empty A)) (Set.union_empty A).subset
    | sub => exact h.offers_num _
    | div => exact h.offers_num _
    | pow => exact offers_none
  · exact offers_none

/-- The sign of a base goes in the same way. -/
theorem negBase (h : Linear φ Owns) (ha : Owns A a) (hb : Owns B b) (hd : Disjoint A B) :
    Gives φ Owns (SimplifyError.map φ) (A ∪ B) (negBase op a b) (negBase op (φ a) (φ b)) := by
  unfold Term.negBase
  rw [h.view_eq ha, h.view_eq hb]
  cases op with
  | add | sub | mul | div => exact offers_none.gives
  | pow =>
    cases hva : view a with
    | number | other => exact offers_none.gives
    | negation x =>
      cases hvb : view b with
      | negation | other => exact offers_none.gives
      | number n =>
        have hpow := h.offers_bin .pow (h.operand ha hva) hb hd
        simp only [View.map]
        split
        · exact offers_none.gives
        · exact hpow.gives
        · exact (h.offers_neg hpow).gives
        · exact gives_fail _

/-! ## nodes of every kind -/

/-- The rules of binary nodes use each operand once. -/
theorem reduceBin (h : Linear φ Owns) (ha : Owns A a) (hb : Owns B b) (hd : Disjoint A B) :
    Gives φ Owns (SimplifyError.map φ) (A ∪ B) (reduceBin s op a b)
      (reduceBin s op (φ a) (φ b)) := by
  unfold Term.reduceBin
  rw [h.literal?_eq ha, h.literal?_eq hb]
  split
  · exact h.fold _ _
  · have hhoist : Offers φ Owns (A ∪ B) (hoistNeg? op a b) _ := h.hoistNeg ha hb hd
    have hcollapse : Offers φ Owns A (collapse? op a b) _ := h.collapse ha
    cases ht : hoistNeg? op a b with
    | some t =>
      rw [ht] at hhoist
      rw [hhoist.result]
      exact (offers_some rfl (hhoist.owns t rfl)).gives
    | none =>
      rw [hhoist.result, ht]
      refine (h.identity ha hb).orElse ?_
      cases hu : collapse? op a b with
      | some u =>
        rw [hu] at hcollapse
        rw [hcollapse.result]
        exact (offers_some rfl (h.left (hcollapse.owns u rfl))).gives
      | none =>
        rw [hcollapse.result, hu]
        exact h.negBase ha hb hd

/-- The rule for numbers does the same on both sides. -/
theorem reduceNum (h : Linear φ Owns) (v : α) : Offers φ Owns A (reduceNum v) (reduceNum v) := by
  unfold Term.reduceNum
  split
  · exact offers_some (h.map_literal _).symm (h.literal _)
  · exact offers_none

/-- The rules for negations do the same on both sides. -/
theorem reduceNeg (h : Linear φ Owns) (ha : Owns A a) :
    Offers φ Owns A (reduceNeg a) (reduceNeg (φ a)) := by
  have hnear : nearZero (φ a) = nearZero a := h.isNear_eq ha _
  unfold Term.reduceNeg
  rw [h.view_eq ha, hnear]
  cases hv : view a with
  | negation x => exact offers_some rfl (h.operand ha hv)
  | number | other =>
    simp only [View.map]
    split
    · exact h.offers_num _
    · exact offers_none

/-- The rules for functions do the same on both sides. -/
theorem reduceApp (h : Linear φ Owns) (f : Fn) (ha : Owns A a) :
    Gives φ Owns (SimplifyError.map φ) A (reduceApp s f a) (reduceApp s f (φ a)) := by
  have hnone : Gives φ Owns (SimplifyError.map φ) A
      (pure none : Simplifying α β (Option β)) (pure none) := offers_none.gives
  have hnum : ∀ v : α, Gives φ Owns (SimplifyError.map φ) A
      (pure (some (Term.num v)) : Simplifying α β (Option β)) (pure (some (Term.num v))) :=
    fun v => (h.offers_num v).gives
  refine gives_ite (h.isNear_eq ha _) ?_ (gives_ite (h.isNear_eq ha _) ?_ ?_)
  · refine gives_ite rfl (hnum _) ?_
    cases f with
    | cos => exact hnum _
    | ln | cot => exact gives_report s _
    | sin | tan | arcsin | arccos | arctan | arccot | sqrt => exact hnone
  · cases f with
    | ln | sqrt => exact hnum _
    | sin | cos | tan | cot | arcsin | arccos | arctan | arccot => exact hnone
  · rw [h.view_eq ha]
    cases hv : view a with
    | number | other => exact hnone
    | negation x =>
      have happ := h.offers_app f (h.operand ha hv)
      simp only [View.map]
      split
      · exact happ.gives
      · exact gives_ite rfl (h.offers_neg happ).gives hnone

end Linear

end Term

end Fluxion

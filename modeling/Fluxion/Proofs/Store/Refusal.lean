import Fluxion.Proofs.Store.Plant

/-!
# Fluxion.Proofs.Store.Refusal

What a refused call leaves behind.

A node is put into a place only after it has been asked whether it may be, so a call that is refused
changes no node that there was (`Storing.exec_setChild_of_not`).  There is one way around that: a
new node gets its left operand before it is asked for the right one, and when that is refused, the
left one stays below a node that nobody has (`Store.Strands`).

* `Storing.refused_node`: what a refused constructor leaves behind;
* `Store.spared_of_refused`: what any refused call leaves behind;
* `Store.operand_stranded`: a call that keeps its operand.
-/

namespace Fluxion

variable {α : Type}

namespace Call

/-- The calls that hand nodes to a holder or to a tree, which is refused for nodes that have one. -/
def Hands : Call α → Prop
  | node _ _ _ _ | operation _ _ _ | setChild _ _ _ | replace _ _ | tree _ | setRoot _ _ => True
  | number _ | name _ | detach _ | copy _ | destroy _ | copyTree _ _ | destroyTree _ => False

/-- A call is to make a node that can have children, with two operands. -/
inductive Pairs : Call α → NodeId → NodeId → Prop where
  | node {op : String} {value : Option (Value α)} {a b : NodeId} (hnumber : op ≠ Cell.numberOp)
      (hname : op ≠ Cell.nameOp) : Pairs (.node op value (some a) (some b)) a b
  | operation {op : String} {a b : NodeId} (hop : Storing.isBinary op = true) :
      Pairs (.operation op a (some b)) a b

end Call

namespace Store

/-- A call puts a node below a new one and is then refused the other operand: that is the same node
again, or it has a parent. -/
def Strands (s : Store α) (call : Call α) (a : NodeId) : Prop :=
  ∃ b, call.Pairs a b ∧ s.parent? a = none ∧ (b = a ∨ (s.parent? b).isSome = true)

/-- The cells of all nodes are as they were before a call that was refused, but for those that it
strands, whose parent is the new node. -/
def Spared (s s' : Store α) (strands : NodeId → Prop) : Prop :=
  ∀ n < s.length,
    (¬strands n → s'[n]? = s[n]?) ∧
      (strands n → s'[n]? = (s[n]?).map (·.withParent (some s.length)))

variable {s s' : Store α} {strands : NodeId → Prop}

theorem Spared.congr {strands' : NodeId → Prop} (h : s.Spared s' strands)
    (hs : ∀ n, strands n ↔ strands' n) : s.Spared s' strands' := by
  rwa [← funext fun n => propext (hs n)]

theorem spared_refl (h : ∀ n < s.length, ¬strands n) : s.Spared s strands :=
  fun n hlt => ⟨fun _ => rfl, fun hn => absurd hn (h n hlt)⟩

/-- A new node does not touch those that there are. -/
theorem spared_append (op : String) (value : Option (Value α)) (h : ∀ n, ¬strands n) :
    s.Spared (s ++ [⟨op, value, none, none, none, false⟩]) strands :=
  fun n hn => ⟨fun _ => List.getElem?_append_left hn, fun hs => absurd hs (h n)⟩

/-- A node that is put below a new one. -/
theorem spared_attach {op : String} {value : Option (Value α)} {a : NodeId}
    (ha : a < s.length) (h : ∀ n, strands n ↔ n = a) :
    s.Spared (attach (s ++ [⟨op, value, none, none, none, false⟩]) s.length .left a) strands := by
  intro n hn
  have hempty : child? (s ++ [⟨op, value, none, none, none, false⟩]) s.length .left = none := by
    simp [child?, Cell.child]
  rw [getElem?_attach hempty (Nat.ne_of_gt ha), List.getElem?_append_left hn, h]
  constructor
  · intro hne
    rw [if_neg hne, if_neg (Nat.ne_of_lt hn)]
  · intro he
    rw [if_pos he]

/-- A new node that can have children accepts every node without a parent. -/
theorem accepts_append_iff {op : String} {value : Option (Value α)} {c : NodeId}
    (hc : c < s.length) :
    Accepts (s ++ [⟨op, value, none, none, none, false⟩]) s.length c ↔
      s.parent? c = none ∧ op ≠ Cell.numberOp ∧ op ≠ Cell.nameOp := by
  have hleaf : isLeaf (s ++ [⟨op, value, none, none, none, false⟩]) s.length = false ↔
      op ≠ Cell.numberOp ∧ op ≠ Cell.nameOp := by simp [isLeaf, Cell.isLeaf]
  constructor
  · intro h
    exact ⟨by simpa using h.free, hleaf.mp h.inner⟩
  · rintro ⟨hfree, hop⟩
    exact ⟨by simpa using Nat.lt_succ_of_lt hc, by simpa using hfree, by simp, hleaf.mpr hop⟩

/-- A new node that has its left operand refuses the right one only if that has a parent. -/
theorem owned_of_not_accepts {op : String} {value : Option (Value α)} {a b : NodeId}
    (ha : a < s.length) (hb : b < s.length) (hnumber : op ≠ Cell.numberOp)
    (hname : op ≠ Cell.nameOp)
    (h : ¬Accepts (attach (s ++ [⟨op, value, none, none, none, false⟩]) s.length .left a)
      s.length b) : b = a ∨ (s.parent? b).isSome = true := by
  have ha' : a < (s ++ [(⟨op, value, none, none, none, false⟩ : Cell α)]).length := by
    simpa using Nat.lt_succ_of_lt ha
  by_contra hfree
  obtain ⟨hne, hnone⟩ := not_or.mp hfree
  refine h ⟨?_, ?_, by simp, ?_⟩
  · simpa using Nat.lt_succ_of_lt hb
  · rw [parent?_attach ha', if_neg hne]
    simpa [child?, Cell.child] using hnone
  · rw [isLeaf_attach]
    simp [isLeaf, Cell.isLeaf, hnumber, hname]

end Store

namespace Storing

open Store

variable {s s' : Store α} {e : NodeError}

/-- A place is refused to a node, and nothing changes. -/
theorem refused_setChild {n c : NodeId} {slot : Slot}
    (h : exec (setChild n slot c) s = (.error e, s')) : ¬s.Accepts n c ∧ s' = s := by
  by_cases ha : s.Accepts n c
  · rw [exec_setChild ha] at h
    cases h
  · obtain ⟨e', he⟩ := exec_setChild_of_not ha slot
    rw [he] at h
    exact ⟨ha, (congrArg Prod.snd h).symm⟩

theorem refused_setChild? {n : NodeId} {slot : Slot} {c : Option NodeId}
    (h : exec (setChild? n slot c) s = (.error e, s')) :
    ∃ b, c = some b ∧ ¬s.Accepts n b ∧ s' = s := by
  cases c with
  | none => cases h
  | some b => exact ⟨b, rfl, refused_setChild (exec_discard_eq_error h)⟩

theorem exec_setChild?_eq_ok {n : NodeId} {slot : Slot} {c : Option NodeId} {u : Unit}
    (h : exec (setChild? n slot c) s = (.ok u, s')) :
    (c = none ∧ s' = s) ∨ ∃ a, c = some a ∧ s.Accepts n a ∧ s' = s.attach n slot a := by
  cases c with
  | none => exact .inl ⟨rfl, (congrArg Prod.snd h).symm⟩
  | some a =>
    obtain ⟨old, h⟩ := exec_discard_eq_ok h
    by_cases ha : s.Accepts n a
    · rw [exec_setChild ha] at h
      cases h
      exact .inr ⟨a, rfl, ha, rfl⟩
    · obtain ⟨e, he⟩ := exec_setChild_of_not ha slot
      cases he.symm.trans h

/-- A constructor that is refused leaves a node behind that it made, with the left operand below it
if it is the right one that was refused. -/
theorem refused_node {op : String} {value : Option (Value α)} {left right : Option NodeId}
    (hleft : ∀ a ∈ left, a < s.length) (hright : ∀ b ∈ right, b < s.length)
    (h : exec (node op value left right) s = (.error e, s')) :
    s.Spared s' (s.Strands (.node op value left right)) := by
  rw [node, exec_bind_of_ok (exec_alloc op value)] at h
  rcases exec_bind_eq_error h with h | ⟨_, s₁, hfirst, h⟩
  · -- the left operand is refused
    obtain ⟨a, rfl, ha, rfl⟩ := refused_setChild? h
    refine spared_append op value ?_
    rintro _ ⟨b, hpairs, hfree, -⟩
    cases hpairs with
    | node hnumber hname =>
      exact ha ((accepts_append_iff (hleft a rfl)).mpr ⟨hfree, hnumber, hname⟩)
  · rcases exec_bind_eq_error h with h | ⟨_, _, -, h⟩
    · obtain ⟨b, rfl, hb, rfl⟩ := refused_setChild? h
      rcases exec_setChild?_eq_ok hfirst with ⟨rfl, rfl⟩ | ⟨a, rfl, ha, rfl⟩
      · -- the only operand is refused
        refine spared_append op value ?_
        rintro n ⟨b, hpairs, -⟩
        cases hpairs
      · -- the right operand is refused, and the left one stays where it is
        obtain ⟨hfree, hnumber, hname⟩ := (accepts_append_iff (hleft a rfl)).mp ha
        refine spared_attach (hleft a rfl) fun n => ⟨?_, ?_⟩
        · rintro ⟨_, hpairs, -⟩
          cases hpairs
          rfl
        · rintro rfl
          exact ⟨b, .node hnumber hname, hfree,
            owned_of_not_accepts (hleft n rfl) (hright b rfl) hnumber hname hb⟩
    · cases h

/-- Only an operation on two operands strands one. -/
theorem refused_operation {op : String} {a : NodeId} {b : Option NodeId} (ha : a < s.length)
    (hb : ∀ c ∈ b, c < s.length) (h : exec (operation op a b) s = (.error e, s')) :
    s.Spared s' (s.Strands (.operation op a b)) := by
  cases b with
  | none =>
    have hnone : ∀ n, ¬s.Strands (.operation op a none) n := by
      rintro n ⟨b, hpairs, -⟩
      cases hpairs
    simp only [operation] at h
    split at h
    · refine (refused_node (by simp) (by simpa using ha) h).congr fun n => ⟨?_, (hnone n).elim⟩
      rintro ⟨b, hpairs, -⟩
      cases hpairs
    · cases h
      exact spared_refl fun n _ => hnone n
  | some b =>
    simp only [operation] at h
    split at h
    case isTrue hop =>
      obtain ⟨hnumber, hname⟩ := not_or.mp (isBinary_not_leaf hop)
      refine (refused_node (by simpa using ha) hb h).congr fun n => ⟨?_, ?_⟩
      · rintro ⟨_, hpairs, howned⟩
        cases hpairs
        exact ⟨b, .operation hop, howned⟩
      · rintro ⟨_, hpairs, howned⟩
        cases hpairs
        exact ⟨b, .node hnumber hname, howned⟩
    case isFalse =>
      cases h
      refine spared_refl ?_
      rintro n - ⟨_, hpairs, -⟩
      cases hpairs
      contradiction

/-- A name of a place comes second: a node that may not be put anywhere is refused first. -/
theorem refused_setChildNamed {n c : NodeId} {slot : SlotName}
    (h : exec (setChildNamed n slot c) s = (.error e, s')) : s' = s := by
  by_cases ha : s.Accepts n c
  · rw [setChildNamed, exec_bind_of_ok (exec_requireFree ha)] at h
    split at h
    · exact (refused_setChild h).2
    · cases h
      rfl
  · obtain ⟨e', he⟩ := exec_requireFree_of_not ha
    rw [setChildNamed, exec_bind_of_error he] at h
    cases h
    rfl

theorem refused_replace {n m : NodeId} (h : exec (replace n m) s = (.error e, s')) : s' = s := by
  rw [replace, exec_bind_of_ok (exec_ask _)] at h
  split at h
  · rw [exec_bind_of_ok (exec_ask _)] at h
    exact (refused_setChild (exec_discard_eq_error h)).2
  · cases h

theorem refused_free {n : NodeId} (h : exec (free n) s = (.error e, s')) : s' = s := by
  by_cases hn : n < s.length ∧ ∀ slot, s.child? n slot = none
  · rw [exec_free hn.1 hn.2] at h
    cases h
  · obtain ⟨e', he⟩ := exec_free_of_not hn
    rw [he] at h
    exact (congrArg Prod.snd h).symm

end Storing

namespace Tree

variable {s s' : Store α}

theorem refused_withRoot {t : Tree} {n : NodeId} {e : TreeError α}
    (h : exec (t.withRoot n) s = (.error e, s')) : s' = s := by
  have hkeeps := (t.keeps_withRoot n (P := (· = s))).exec rfl
  rwa [h] at hkeeps

end Tree

namespace Store

variable {s s' : Store α}

/-- A call without two operands strands none. -/
theorem spared_of_eq {call : Call α} (h : s' = s) (hnone : ∀ a b, ¬call.Pairs a b) :
    s.Spared s' (s.Strands call) := by
  subst h
  refine spared_refl ?_
  rintro n - ⟨b, hpairs, -⟩
  exact hnone n b hpairs

/-- What a call that hands nodes over leaves behind when it is refused. -/
theorem spared_of_hands {call : Call α} (hcall : call.Hands) {e : TreeError α}
    (h : exec call.perform s = (.error e, s')) : s.Spared s' (s.Strands call) := by
  by_cases hall : ∀ n ∈ call.operands, n < s.length
  case neg =>
    rw [exec_perform_of_not hall] at h
    cases h
    refine spared_refl ?_
    rintro n hn ⟨b, hpairs, -, howned⟩
    have hb : b < s.length := by
      rcases howned with rfl | howned
      · exact hn
      · obtain ⟨p, hp⟩ := Option.isSome_iff_exists.mp howned
        exact lt_of_parent hp
    refine hall ?_
    cases hpairs <;> simpa [Call.operands] using ⟨hn, hb⟩
  rw [exec_perform_of_operands hall] at h
  cases call with
  | node op value left right =>
    obtain ⟨e', h⟩ := exec_adapt_eq_error (exec_discard_eq_error h)
    exact Storing.refused_node (fun a ha => hall a (by simp_all [Call.operands]))
      (fun b hb => hall b (by simp_all [Call.operands])) h
  | operation op a b =>
    obtain ⟨e', h⟩ := exec_adapt_eq_error (exec_discard_eq_error h)
    exact Storing.refused_operation (hall a (by simp [Call.operands]))
      (fun c hc => hall c (by simp_all [Call.operands])) h
  | setChild n slot c =>
    obtain ⟨e', h⟩ := exec_adapt_eq_error (exec_discard_eq_error h)
    exact spared_of_eq (Storing.refused_setChild h).2 (by rintro a b ⟨⟩)
  | replace n m =>
    obtain ⟨e', h⟩ := exec_adapt_eq_error h
    exact spared_of_eq (Storing.refused_replace h) (by rintro a b ⟨⟩)
  | tree root =>
    cases root with
    | none => cases h
    | some n =>
      exact spared_of_eq (Tree.refused_withRoot (exec_discard_eq_error h)) (by rintro a b ⟨⟩)
  | setRoot t n =>
    exact spared_of_eq (Tree.refused_withRoot (exec_discard_eq_error h)) (by rintro a b ⟨⟩)
  | number v => exact hcall.elim
  | name x => exact hcall.elim
  | detach n => exact hcall.elim
  | copy n => exact hcall.elim
  | destroy n => exact hcall.elim
  | copyTree t root => exact hcall.elim
  | destroyTree t => exact hcall.elim

/-- A call that is refused changes no node that there was, unless it is to make a node with two
operands and the right one is refused: then the left one is stranded. -/
theorem spared_of_refused (s : Store α) :
    (∀ call : Call α, call.Hands → ∀ e s', exec call.perform s = (.error e, s') →
      s.Spared s' (s.Strands call)) ∧
    (∀ n slot c e s', exec (Storing.setChildNamed n slot c) s = (.error e, s') → s' = s) ∧
    ∀ n e s', exec (Storing.free n) s = (.error e, s') → s' = s :=
  ⟨fun _ hcall _ _ h => spared_of_hands hcall h,
    fun _ _ _ _ _ h => Storing.refused_setChildNamed h, fun _ _ _ h => Storing.refused_free h⟩

/-- In a store with a variable and a negation, the sum of the variable and the operand of the
negation is refused, and so is a child of the variable; the negation is not given up. -/
theorem spared_negation :
    let s : Store Float := reached [.name "x", .name "y", .operation "neg" 1 none]
    let call : Call Float := .operation "+" 0 (some 1)
    let left : SlotName := ⟨"left", by decide, by decide⟩
    s.Spared (s.after call) (s.Strands call) ∧
      (exec (Storing.setChildNamed 0 left 2) s).2 = s ∧ (exec (Storing.free 2) s).2 = s := by
  intro s call left
  obtain ⟨hcalls, hnamed, hfree⟩ := spared_of_refused s
  exact ⟨hcalls call trivial (.node .owned) _ rfl, hnamed 0 left 2 .leaf _ rfl,
    hfree 2 (.hasChildren "neg") _ rfl⟩

/-- The sum of a variable and the same node again is refused, but the variable is not free any
more: it stands below a node that nobody has. -/
theorem operand_stranded :
    let s : Store Float := reached [.name "x"]
    let call : Call Float := .operation "+" 0 (some 0)
    (exec call.perform s).1 = .error (.node .owned) ∧ s.parent? 0 = none ∧
      (s.after call).parent? 0 = some 1 ∧
      (exec (Call.operation "neg" 0 none).perform (s.after call)).1 = .error (.node .owned) :=
  ⟨rfl, rfl, rfl, rfl⟩

end Store

end Fluxion

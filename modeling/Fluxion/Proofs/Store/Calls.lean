import Fluxion.Proofs.Store.Links
import Fluxion.Store.Tree

/-!
# Fluxion.Proofs.Store.Calls

Whatever calls are made on nodes and trees, links stay consistent.

A property of stores that the primitive changes keep is kept by every call that makes or takes
apart (`Store.Stable`).  Such calls put nodes only below a new node that has no parent yet; a caller
who puts a node into a place himself may choose any holder that accepts it.

* `Call`: the calls that can be made on nodes and trees, and `Store.reached`, the store after some;
* `linked_reached`: links are consistent in every store that is reached.
-/

namespace Fluxion

variable {α : Type}

namespace Store

/-- The primitive changes keep a property of stores.  A node is put below another one only if that
is without a parent itself. -/
structure Stable (P : Store α → Prop) : Prop where
  append : ∀ {s} op value, P s → P (s ++ [⟨op, value, none, none, none, false⟩])
  attach : ∀ {s n slot c}, P s → s.Accepts n c → s.parent? n = none → n ≠ c →
    P (s.attach n slot c)
  detach : ∀ {s n}, P s → P (s.detach n)
  giveUp : ∀ {s n}, P s → s.parent? n = none → (∀ slot, s.child? n slot = none) → P (s.giveUp n)

/-- Consistent links are kept by every change of a store. -/
theorem stable_linked : Stable (Linked : Store α → Prop) where
  append op value h := h.append op value
  attach h ha _ _ := h.attach ha.holder ha.child ha.free ha.inner
  detach h := h.detach
  giveUp h hp _ := h.giveUp hp

/-- No node goes away. -/
theorem Stable.and_lt {P : Store α → Prop} (hP : Stable P) (o : Option NodeId) :
    Stable fun s => P s ∧ ∀ m ∈ o, m < s.length where
  append op value h :=
    ⟨hP.append op value h.1, fun m hm => by simpa using Nat.lt_succ_of_lt (h.2 m hm)⟩
  attach h ha hn hc := ⟨hP.attach h.1 ha hn hc, by simpa using h.2⟩
  detach h := ⟨hP.detach h.1, by simpa using h.2⟩
  giveUp h hp hn := ⟨hP.giveUp h.1 hp hn, by simpa using h.2⟩

end Store

namespace Storing

open Store

variable {P : Store α → Prop} {n : NodeId} {slot : Slot}

/-- A node that is to be put below another one is not that one, which has no parent. -/
theorem triple_setChild? (hP : Stable P) (c : Option NodeId) (hc : c ≠ some n) :
    Triple (fun s => P s ∧ s.parent? n = none ∧ n < s.length) (setChild? n slot c)
      (fun _ s => P s ∧ s.parent? n = none ∧ n < s.length) P := by
  cases c with
  | none => exact triple_pure fun _ h => h
  | some c =>
    refine Triple.bind (triple_setChild ?_ fun _ h => h.1) fun _ => triple_pure fun _ h => h
    intro s ⟨hs, hn, hlt⟩ ha
    have hne : n ≠ c := fun he => hc (congrArg some he.symm)
    refine ⟨hP.attach hs ha hn hne, ?_, by simpa using hlt⟩
    simp [parent?_attach ha.child, hne, hn]

/-- A new node below which nodes are put. -/
theorem triple_node (hP : Stable P) (op : String) (value : Option (Value α))
    (left right : Option NodeId) :
    Triple (fun s => P s ∧ (∀ c ∈ left, c < s.length) ∧ ∀ c ∈ right, c < s.length)
      (node op value left right) (fun n s => P s ∧ n < s.length) P := by
  refine (triple_alloc (Q := fun n s => (P s ∧ s.parent? n = none ∧ n < s.length) ∧
    left ≠ some n ∧ right ≠ some n) ?_).bind fun n => ?_
  · rintro s ⟨hs, hleft, hright⟩
    refine ⟨⟨hP.append op value hs, by simp [parent?], by simp⟩, ?_, ?_⟩
    · exact fun h => Nat.lt_irrefl _ (hleft _ h)
    · exact fun h => Nat.lt_irrefl _ (hright _ h)
  · refine triple_of_and fun hapart => ?_
    obtain ⟨hleft, hright⟩ := hapart
    refine (triple_setChild? hP left hleft).bind fun _ => ?_
    refine (triple_setChild? hP right hright).bind fun _ => ?_
    exact triple_pure fun s h => ⟨h.1, h.2.2⟩

/-- New nodes for a sketch. -/
theorem triple_plant? (hP : Stable P) (e : Sketch α) :
    Triple P (plant? e) (fun o s => P s ∧ ∀ n ∈ o, n < s.length) P := by
  induction e generalizing P with
  | missing => exact triple_pure fun s h => ⟨h, nofun⟩
  | node op value l r ihl ihr =>
    refine (ihl hP).bind fun left => ?_
    refine ((ihr (hP.and_lt left)).mono (fun _ h => h) (fun _ _ h => h) fun _ h => h.1).bind
      fun right => ?_
    refine ((triple_node hP op value left right).mono (fun s h => ⟨h.1.1, h.1.2, h.2⟩)
      (fun _ _ h => h) fun _ h => h).bind fun n => ?_
    refine triple_pure fun s h => ⟨h.1, ?_⟩
    rintro m ⟨⟩
    exact h.2

/-- New nodes for a sketch keep what every change keeps, and are there afterwards. -/
theorem triple_plant (hP : Stable P) (e : Sketch α) :
    Triple P (plant e) (fun n s => P s ∧ n < s.length) P := by
  refine (triple_plant? hP e).bind fun o => ?_
  cases o with
  | none => exact triple_throw fun _ h => h.1
  | some n => exact triple_pure fun s h => ⟨h.1, h.2 n rfl⟩

/-- A copy keeps what every change keeps, and is there afterwards. -/
theorem triple_copy (hP : Stable P) (n : NodeId) :
    Triple P (copy n) (fun n s => P s ∧ n < s.length) P :=
  (triple_ask (Q := fun _ => P) fun _ h => h).bind fun e => triple_plant hP e

/-- A copy keeps what every change keeps. -/
theorem keeps_copy (hP : Stable P) (n : NodeId) : Keeps P (copy n) :=
  (triple_copy hP n).keeps fun _ _ h => h.1

theorem keeps_detach (hP : Stable P) (n : NodeId) : Keeps P (detach n) :=
  keeps_modify fun _ h => hP.detach h

/-- Taking a tree apart keeps what every change keeps. -/
theorem keeps_destroy (hP : Stable P) (n : NodeId) : Keeps P (destroy n) := by
  have hfree : ∀ m, Keeps P (do detach m; free m : Storing α PUnit) := by
    intro m
    refine Triple.bind (Q := fun _ s => P s ∧ s.parent? m = none) ?_ fun _ => ?_
    · exact triple_modify fun s h => ⟨hP.detach h, by simp [parent?_detach]⟩
    · exact triple_free (fun s h hm => hP.giveUp h.1 h.2 hm) fun _ h => h.1
  refine (keeps_detach hP n).bind fun _ => ?_
  exact (triple_ask (Q := fun _ => P) fun _ h => h).bind fun nodes => keeps_forM _ hfree

theorem keeps_number (hP : Stable P) (v : α) : Keeps P (number v) :=
  (triple_node hP _ _ none none).mono (fun _ h => ⟨h, nofun, nofun⟩) (fun _ _ h => h.1) fun _ h => h

theorem keeps_name (hP : Stable P) (x : String) : Keeps P (name x : Storing α NodeId) :=
  (triple_node hP _ _ none none).mono (fun _ h => ⟨h, nofun, nofun⟩) (fun _ _ h => h.1) fun _ h => h

/-- An operation on nodes that are there keeps what every change keeps. -/
theorem triple_operation (hP : Stable P) (op : String) (a : NodeId) (b : Option NodeId) :
    Triple (fun s => P s ∧ a < s.length ∧ ∀ b' ∈ b, b' < s.length) (operation op a b)
      (fun _ => P) P := by
  cases b with
  | none =>
    simp only [operation]
    split
    · refine (triple_node hP op none none (some a)).mono (fun s h => ⟨h.1, nofun, ?_⟩)
        (fun _ _ h => h.1) fun _ h => h
      rintro _ ⟨⟩
      exact h.2.1
    · exact triple_throw fun _ h => h.1
  | some b =>
    simp only [operation]
    split
    · refine (triple_node hP op none (some a) (some b)).mono (fun s h => ⟨h.1, ?_, h.2.2⟩)
        (fun _ _ h => h.1) fun _ h => h
      rintro _ ⟨⟩
      exact h.2.1
    · exact triple_throw fun _ h => h.1

theorem keeps_cell {P : Store α → Prop} (n : NodeId) : Keeps P (cell n) := by
  refine keeps_get.bind fun s => ?_
  split
  · exact keeps_pure _
  · exact keeps_throw _

end Storing

namespace Tree

open Store

variable {P : Store α → Prop}

@[simp] theorem exec_onNodes {β : Type} {s : Store α} (call : Storing α β) :
    (exec (onNodes call) s).2 = (exec call s).2 := rfl

/-- Another root changes no node. -/
theorem keeps_withRoot (t : Tree) (n : NodeId) : Keeps P (t.withRoot n : Growing α Tree) := by
  refine Triple.adapt ((Storing.keeps_cell n).bind fun c => ?_) _
  split
  · exact (keeps_throw _).bind fun _ => keeps_pure _
  · exact keeps_pure _

theorem keeps_copy (hP : Stable P) (t : Tree) (root : Option NodeId) :
    Keeps P (t.copy root : Growing α Tree) := by
  unfold copy
  split
  · exact keeps_withRoot _ _
  · exact ((Storing.keeps_copy hP _).adapt _).bind fun m => keeps_withRoot t m
  · exact keeps_throw _

theorem keeps_destroy (hP : Stable P) (t : Tree) : Keeps P (t.destroy : Growing α Tree) := by
  unfold destroy
  split
  · exact ((Storing.keeps_destroy hP _).adapt _).bind fun _ => keeps_pure _
  · exact keeps_pure _

end Tree

/-! ## calls on nodes and trees -/

/-- A call on nodes or on a tree.  A tree is given by its root and its names, so that there is a
call for every tree made before. -/
inductive Call (α : Type) where
  | node (op : String) (value : Option (Value α)) (left right : Option NodeId)
  | number (v : α)
  | name (x : String)
  | operation (op : String) (a : NodeId) (b : Option NodeId)
  | setChild (n : NodeId) (slot : Slot) (c : NodeId)
  | detach (n : NodeId)
  | replace (n m : NodeId)
  | copy (n : NodeId)
  | destroy (n : NodeId)
  | tree (root : Option NodeId)
  | setRoot (t : Tree) (n : NodeId)
  | copyTree (t : Tree) (root : Option NodeId)
  | destroyTree (t : Tree)

namespace Call

/-- The nodes that a call is made on. -/
def operands : Call α → List NodeId
  | node _ _ left right => left.toList ++ right.toList
  | number _ | name _ => []
  | operation _ a b => a :: b.toList
  | setChild n _ c => [n, c]
  | detach n | copy n | destroy n => [n]
  | replace n m => [n, m]
  | tree root => root.toList
  | setRoot t n => t.root.toList ++ [n]
  | copyTree t root => t.root.toList ++ root.toList
  | destroyTree t => t.root.toList

/-- What a call does to nodes that there are. -/
def body : Call α → Growing α Unit
  | node op value left right => discard (Tree.onNodes (Storing.node op value left right))
  | number v => discard (Tree.onNodes (Storing.number v))
  | name x => discard (Tree.onNodes (Storing.name x))
  | operation op a b => discard (Tree.onNodes (Storing.operation op a b))
  | setChild n slot c => discard (Tree.onNodes (Storing.setChild n slot c))
  | detach n => Tree.onNodes (Storing.detach n)
  | replace n m => Tree.onNodes (Storing.replace n m)
  | copy n => discard (Tree.onNodes (Storing.copy n))
  | destroy n => Tree.onNodes (Storing.destroy n)
  | tree none => pure ()
  | tree (some n) => discard (Tree.empty.withRoot n)
  | setRoot t n => discard (t.withRoot n)
  | copyTree t root => discard (t.copy root)
  | destroyTree t => discard t.destroy

/-- A call, which fails if it is made on a node that there is not. -/
def perform (call : Call α) : Growing α Unit := do
  if call.operands.all (· < (← get).length) then call.body else throw (.node .noNode)

end Call

namespace Store

variable {s : Store α}

/-- The store after a call, which may have failed. -/
def after (s : Store α) (call : Call α) : Store α := (exec call.perform s).2

/-- The store after calls, which may have failed, on an empty one. -/
def reached (calls : List (Call α)) : Store α := calls.foldl after []

/-- A call is to put a node into a place. -/
def Puts (s : Store α) (call : Call α) (n : NodeId) (slot : Slot) (c : NodeId) : Prop :=
  call = .setChild n slot c ∨
    ∃ m, call = .replace m c ∧ s.parent? m = some n ∧ s.slotIn n m = slot

/-- A call on nodes that are there does what it says. -/
theorem exec_perform_of_operands {call : Call α} (h : ∀ n ∈ call.operands, n < s.length) :
    exec call.perform s = exec call.body s := by
  have hall : call.operands.all (· < s.length) = true := by simpa using h
  rw [Call.perform, exec_bind, exec_get]
  simp only [hall, if_true]

/-- A call on a node that is not there fails, and nothing changes. -/
theorem exec_perform_of_not {call : Call α} (h : ¬∀ n ∈ call.operands, n < s.length) :
    exec call.perform s = (.error (.node .noNode), s) := by
  have hall : ¬call.operands.all (· < s.length) = true := by simpa using h
  rw [Call.perform, exec_bind, exec_get]
  simp only [hall]
  rfl

/-- A call that puts a node into a place does so where the holder accepts the node. -/
theorem after_of_puts {call : Call α} {n c : NodeId} {slot : Slot} (h : s.Puts call n slot c)
    (ha : s.Accepts n c) : s.after call = s.attach n slot c := by
  have hset : (exec (Storing.setChild n slot c) s).2 = s.attach n slot c := by
    rw [Storing.exec_setChild ha]
  rcases h with rfl | ⟨m, rfl, hp, rfl⟩
  · rw [after, exec_perform_of_operands (by simp [Call.operands, ha.holder, ha.child])]
    simpa [Call.body] using hset
  · rw [after, exec_perform_of_operands (by simp [Call.operands, lt_of_parent hp, ha.child])]
    simpa [Call.body, Storing.replace, exec_bind, hp] using hset

/-- What the primitive changes keep is kept by every call, if it is kept where the call puts a node
into a place that its caller chose. -/
theorem Stable.after {P : Store α → Prop} (hP : Stable P) (hs : P s) (call : Call α)
    (hputs : ∀ n slot c, s.Puts call n slot c → s.Accepts n c → P (s.attach n slot c)) :
    P (s.after call) := by
  by_cases hall : ∀ n ∈ call.operands, n < s.length
  case neg => rwa [Store.after, exec_perform_of_not hall]
  have hset : ∀ n slot c, s.Puts call n slot c → P (exec (Storing.setChild n slot c) s).2 := by
    intro n slot c hc
    refine (Storing.triple_setChild (P := (· = s)) (Q := fun _ => P) ?_ ?_).exec rfl
      (fun _ _ h => h) fun _ h => h
    · rintro _ rfl ha
      exact hputs n slot c hc ha
    · rintro _ rfl
      exact hs
  rw [Store.after, exec_perform_of_operands hall]
  cases call with
  | node op value left right =>
    simp only [Call.body, exec_discard, Tree.exec_onNodes]
    refine (Storing.triple_node hP op value left right).exec ⟨hs, ?_, ?_⟩ (fun _ _ h => h.1)
      fun _ h => h
    · exact fun c hc => hall c (by simp_all [Call.operands])
    · exact fun c hc => hall c (by simp_all [Call.operands])
  | number v => simpa [Call.body] using (Storing.keeps_number hP v).exec hs
  | name x => simpa [Call.body] using (Storing.keeps_name hP x).exec hs
  | operation op a b =>
    simp only [Call.body, exec_discard, Tree.exec_onNodes]
    refine (Storing.triple_operation hP op a b).exec ⟨hs, ?_, ?_⟩ (fun _ _ h => h) fun _ h => h
    · exact hall a (by simp [Call.operands])
    · exact fun c hc => hall c (by simp_all [Call.operands])
  | setChild n slot c => simpa [Call.body] using hset n slot c (.inl rfl)
  | detach n => simpa [Call.body] using (Storing.keeps_detach hP n).exec hs
  | replace n m =>
    cases hp : s.parent? n with
    | none => simpa [Call.body, Storing.replace, exec_bind, hp] using hs
    | some p =>
      have := hset p (s.slotIn p n) m (.inr ⟨n, rfl, hp, rfl⟩)
      simpa [Call.body, Storing.replace, exec_bind, hp] using this
  | copy n => simpa [Call.body] using (Storing.keeps_copy hP n).exec hs
  | destroy n => simpa [Call.body] using (Storing.keeps_destroy hP n).exec hs
  | tree root =>
    cases root with
    | none => exact (keeps_pure _).exec hs
    | some n => exact (Tree.empty.keeps_withRoot n).discard.exec hs
  | setRoot t n => exact (t.keeps_withRoot n).discard.exec hs
  | copyTree t root => exact (t.keeps_copy hP root).discard.exec hs
  | destroyTree t => exact (t.keeps_destroy hP).discard.exec hs

/-- What holds of the empty store and is kept by every call holds of every store that is reached. -/
theorem reached_induction {P : Store α → Prop} (hnil : P [])
    (hstep : ∀ s call, P s → P (after s call)) (calls : List (Call α)) : P (reached calls) := by
  have hrun : ∀ s, P s → P (calls.foldl after s) := by
    induction calls with
    | nil => exact fun _ h => h
    | cons call calls ih => exact fun s h => ih _ (hstep s call h)
  exact hrun [] hnil

/-- A call keeps the links consistent. -/
theorem Linked.after (h : s.Linked) (call : Call α) : (s.after call).Linked :=
  stable_linked.after h call fun _ _ _ _ ha => h.attach ha.holder ha.child ha.free ha.inner

end Store

/-- Whatever calls are made on nodes and trees, and whether they fail or not: a node stands in a
place below another one exactly if that one is its parent, no node stands in two places, and nothing
stands below a leaf. -/
theorem linked_reached (calls : List (Call α)) : (Store.reached calls).Linked :=
  Store.reached_induction .nil (fun _ call h => h.after call) calls

end Fluxion

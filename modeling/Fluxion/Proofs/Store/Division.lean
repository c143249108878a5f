import Mathlib
import Fluxion.Expr.Outline
import Fluxion.Proofs.Store.Shape

/-!
# Fluxion.Proofs.Store.Division

Trees of nodes in parts.

From the leaves up, operands that are too large are taken out of a tree, and each stands as a single
leaf under its label in the part above it.  So the nodes of the tree go to parts, and only the nodes
at the top of a part that was taken out stand in two of them, once as a label.

* `Shape.taken`: the operands that are taken out;
* `Shape.part`: a part, with leaves under labels;
* `Shape.Divided`, `Shape.divided`: what is known of the parts together.
-/

namespace Fluxion

variable {α : Type}

namespace Shape

/-! ## parts of a tree -/

/-- All parts of a tree, with the tree itself at the front. -/
def subs : Shape α → List (Shape α)
  | missing => []
  | node n op value freed l r => node n op value freed l r :: (l.subs ++ r.subs)

/-- All that stands below the top of a tree. -/
def operands : Shape α → List (Shape α)
  | missing => []
  | node _ _ _ _ l r => l.subs ++ r.subs

/-- The number of nodes that an operand counts for, a single one if it is taken out. -/
def counted (size : Nat) : Nat := if maxPart < size then 1 else size

/-- The number of nodes of a tree, with the operands that are taken out as single nodes. -/
def weight : Shape α → Nat
  | missing => 0
  | node _ _ _ _ l r => 1 + counted l.weight + counted r.weight

/-- The tree, if it is too large for an operand. -/
def oversized (t : Shape α) : List (Shape α) := if maxPart < t.weight then [t] else []

/-- The operands that are taken out of a tree, those below others first. -/
def taken : Shape α → List (Shape α)
  | missing => []
  | node _ _ _ _ l r => (l.taken ++ l.oversized) ++ (r.taken ++ r.oversized)

/-- The nodes at the top of trees. -/
def tops (ts : List (Shape α)) : List NodeId := ts.filterMap root?

/-- The labels of nodes are given in order. -/
def labelIn (cut : List NodeId) (n : NodeId) : Option String :=
  (cut.idxOf? n).map fun k => labels.getD k ""

/-- An operand as it stands in the part above it, with leaves in the places of nodes that have a
label. -/
def face (label : NodeId → Option String) : Shape α → Shape α
  | missing => missing
  | node n op value freed l r =>
    match label n with
    | some x => node n Cell.nameOp (some (.name x)) freed missing missing
    | none => node n op value freed (l.face label) (r.face label)

/-- A tree as a part of its own, with leaves in the places of nodes that have a label, but for the
one at the top. -/
def part (label : NodeId → Option String) : Shape α → Shape α
  | missing => missing
  | node n op value freed l r => node n op value freed (l.face label) (r.face label)

/-- The nodes of a part below its top that stand for others. -/
def marks (cut : List NodeId) (t : Shape α) : List NodeId := t.nodes.tail.filter (· ∈ cut)

/-- The nodes of a part that stand for themselves. -/
def own (cut : List NodeId) (t : Shape α) : List NodeId :=
  t.nodes.take 1 ++ t.nodes.tail.filter (· ∉ cut)

variable {t u l r : Shape α} {n m : NodeId} {cut : List NodeId} {op : String}
  {value : Option (Value α)} {freed : Bool}

/-- A part of a tree is the tree itself or stands below its top. -/
theorem mem_subs : u ∈ t.subs ↔ (u = t ∧ t ≠ missing) ∨ u ∈ t.operands := by
  cases t with
  | missing => simp [subs, operands]
  | node => simp [subs, operands]

/-- Every node of a tree is at the top of one part. -/
theorem map_root?_subs (t : Shape α) : t.subs.map root? = t.nodes.map some := by
  induction t with
  | missing => rfl
  | node n op value freed l r ihl ihr => simp [subs, nodes, ihl, ihr]

/-- In a tree no two parts have the same node at the top. -/
theorem eq_of_root? (hnodup : t.nodes.Nodup) {v : Shape α} (hu : u ∈ t.subs) (hv : v ∈ t.subs)
    (h : u.root? = v.root?) : u = v := by
  have hroots : (t.subs.map root?).Nodup := by
    rw [map_root?_subs]
    exact hnodup.map fun _ _ => Option.some.inj
  exact List.inj_on_of_nodup_map hroots hu hv h

/-- A part of a tree has a node of the tree at its top. -/
theorem exists_root_of_mem_subs (h : u ∈ t.subs) : ∃ m ∈ t.nodes, u.root? = some m := by
  have hroot : u.root? ∈ t.nodes.map some := by
    rw [← map_root?_subs]
    exact List.mem_map_of_mem h
  obtain ⟨m, hm, hroot⟩ := List.mem_map.mp hroot
  exact ⟨m, hm, hroot.symm⟩

theorem mem_oversized : u ∈ t.oversized ↔ u = t ∧ maxPart < t.weight := by
  unfold oversized
  split <;> simp_all

/-- What is taken out is what is too large below the top. -/
theorem mem_taken : u ∈ t.taken ↔ u ∈ t.operands ∧ maxPart < u.weight := by
  induction t with
  | missing => simp [taken, operands]
  | node n op value freed l r ihl ihr =>
    have hside {x : Shape α} (ih : u ∈ x.taken ↔ u ∈ x.operands ∧ maxPart < u.weight) :
        u ∈ x.taken ++ x.oversized ↔ u ∈ x.subs ∧ maxPart < u.weight := by
      rw [List.mem_append, ih, mem_oversized, mem_subs]
      constructor
      · rintro (⟨hu, hw⟩ | ⟨rfl, hw⟩)
        · exact ⟨.inr hu, hw⟩
        · refine ⟨.inl ⟨rfl, ?_⟩, hw⟩
          rintro rfl
          simp [weight] at hw
      · rintro ⟨⟨rfl, -⟩ | hu, hw⟩
        · exact .inr ⟨rfl, hw⟩
        · exact .inl ⟨hu, hw⟩
    rw [taken, List.mem_append, hside ihl, hside ihr, operands, List.mem_append, or_and_right]

/-! ## cutting a tree -/

/-- Only nodes that are cut have a label. -/
theorem labelIn_eq_none : labelIn cut m = none ↔ m ∉ cut := by
  simp [labelIn, List.idxOf?_eq_none_iff]

/-- Every node that is cut has a label. -/
theorem exists_label (h : m ∈ cut) : ∃ x, labelIn cut m = some x := by
  rw [← Option.ne_none_iff_exists', ne_eq, labelIn_eq_none, not_not]
  exact h

/-- Some nodes of a tree are marked, exactly those that are taken out. -/
def Marked (cut : List NodeId) (t : Shape α) : Prop :=
  ∀ u ∈ t.subs, ∀ m ∈ u.root?, (m ∈ cut ↔ maxPart < u.weight)

/-- A tree is cut where it is too large: at its top, and in its operands. -/
theorem marked_node :
    (node n op value freed l r).Marked cut ↔
      (n ∈ cut ↔ maxPart < (node n op value freed l r).weight) ∧ l.Marked cut ∧ r.Marked cut := by
  simp [Marked, subs, or_imp, forall_and]

/-- A tree that is not cut at its top shows what its part shows. -/
theorem face_of_notMem (h : ∀ m ∈ t.root?, m ∉ cut) :
    t.face (labelIn cut) = t.part (labelIn cut) := by
  cases t with
  | missing => rfl
  | node n =>
    have hn : labelIn cut n = none := labelIn_eq_none.mpr (h n rfl)
    simp [face, part, hn]

/-- A tree that is cut at its top shows one leaf. -/
theorem nodes_face_of_mem (hn : t.root? = some n) (h : n ∈ cut) :
    (t.face (labelIn cut)).nodes = [n] := by
  cases t with
  | missing => cases hn
  | node =>
    cases hn
    obtain ⟨x, hx⟩ := exists_label h
    simp [face, hx, nodes]

/-- A part consists of its top and of what the operands show. -/
theorem length_nodes_part_node (n : NodeId) (op : String) (value : Option (Value α)) (freed : Bool)
    (l r : Shape α) :
    ((node n op value freed l r).part (labelIn cut)).nodes.length =
      1 + (l.face (labelIn cut)).nodes.length + (r.face (labelIn cut)).nodes.length := by
  simp [part, nodes]
  omega

/-- An operand that is not too large counts for all its nodes. -/
theorem counted_of_le {size : Nat} (h : size ≤ maxPart) : counted size = size :=
  if_neg (Nat.not_lt.mpr h)

/-- An operand stands in the part above it with as many nodes as it counts for. -/
theorem length_nodes_face (h : t.Marked cut) :
    (t.face (labelIn cut)).nodes.length = counted t.weight := by
  induction t with
  | missing => rfl
  | node n op value freed l r ihl ihr =>
    obtain ⟨hn, hl, hr⟩ := marked_node.mp h
    by_cases hcut : n ∈ cut
    · rw [nodes_face_of_mem rfl hcut, counted, if_pos (hn.mp hcut)]
      rfl
    · rw [face_of_notMem (by simpa using hcut), length_nodes_part_node, ihl hl, ihr hr,
        counted_of_le (Nat.le_of_not_lt (mt hn.mpr hcut)), weight]

/-- The operands of a tree are marked, the tree itself may be too. -/
def MarkedBelow (cut : List NodeId) : Shape α → Prop
  | missing => True
  | node _ _ _ _ l r => l.Marked cut ∧ r.Marked cut

theorem Marked.below (h : t.Marked cut) : t.MarkedBelow cut := by
  cases t with
  | missing => trivial
  | node => exact (marked_node.mp h).2

/-- The parts of a tree are cut where the tree is. -/
theorem Marked.sub (h : t.Marked cut) (hu : u ∈ t.subs) : u.Marked cut := by
  induction t with
  | missing => cases hu
  | node n op value freed l r ihl ihr =>
    obtain ⟨-, hl, hr⟩ := marked_node.mp h
    simp only [subs, List.mem_cons, List.mem_append] at hu
    obtain rfl | hu | hu := hu
    · exact h
    · exact ihl hl hu
    · exact ihr hr hu

/-- Below its top a tree is cut where its operands are. -/
theorem MarkedBelow.operand (h : t.MarkedBelow cut) (hu : u ∈ t.operands) : u.Marked cut := by
  cases t with
  | missing => cases hu
  | node =>
    obtain hu | hu := List.mem_append.mp hu
    · exact h.1.sub hu
    · exact h.2.sub hu

/-- A part has as many nodes as it counts for. -/
theorem length_nodes_part (h : t.MarkedBelow cut) :
    (t.part (labelIn cut)).nodes.length = t.weight := by
  cases t with
  | missing => rfl
  | node =>
    rw [length_nodes_part_node, length_nodes_face h.1, length_nodes_face h.2, weight]

theorem counted_le (size : Nat) : counted size ≤ maxPart := by
  unfold counted maxPart
  split <;> omega

/-- No part is larger than two operands and a node. -/
theorem weight_le (t : Shape α) : t.weight ≤ 2 * maxPart + 1 := by
  cases t with
  | missing => simp [weight]
  | node n op value freed l r =>
    have hl := counted_le l.weight
    have hr := counted_le r.weight
    rw [weight]
    omega

/-! ## the nodes of the parts -/

theorem tops_append (ts us : List (Shape α)) : tops (ts ++ us) = tops ts ++ tops us :=
  List.filterMap_append

/-- The nodes of a part that stand for themselves are its top and those that the operands show. -/
theorem own_part_node (n : NodeId) (op : String) (value : Option (Value α)) (freed : Bool)
    (l r : Shape α) :
    ((node n op value freed l r).part (labelIn cut)).own cut =
      n :: ((l.face (labelIn cut)).nodes.filter (· ∉ cut) ++
        (r.face (labelIn cut)).nodes.filter (· ∉ cut)) := by
  simp [part, own, nodes]

/-- The nodes of a part that stand for others are those that the operands show. -/
theorem marks_part_node (n : NodeId) (op : String) (value : Option (Value α)) (freed : Bool)
    (l r : Shape α) :
    ((node n op value freed l r).part (labelIn cut)).marks cut =
      (l.face (labelIn cut)).nodes.filter (· ∈ cut) ++
        (r.face (labelIn cut)).nodes.filter (· ∈ cut) := by
  simp [part, marks, nodes]

/-- The nodes of an operand go to the part above it and to those taken out. -/
theorem own_operand (h : t.Marked cut)
    (ih : ((t.part (labelIn cut)).own cut ++
      t.taken.flatMap fun u => (u.part (labelIn cut)).own cut).Perm t.nodes) :
    ((t.face (labelIn cut)).nodes.filter (· ∉ cut) ++
      (t.taken ++ t.oversized).flatMap fun u => (u.part (labelIn cut)).own cut).Perm t.nodes := by
  cases t with
  | missing => exact ih
  | node n op value freed l r =>
    obtain ⟨hn, -⟩ := marked_node.mp h
    by_cases hcut : n ∈ cut
    · rw [nodes_face_of_mem rfl hcut, oversized, if_pos (hn.mp hcut), List.flatMap_append]
      simpa [hcut] using List.perm_append_comm.trans ih
    · have hown : (((node n op value freed l r).face (labelIn cut)).nodes.filter (· ∉ cut)) =
          ((node n op value freed l r).part (labelIn cut)).own cut := by
        rw [face_of_notMem (by simpa using hcut), own_part_node]
        simp [part, nodes, hcut]
      rwa [hown, oversized, if_neg (mt hn.mpr hcut), List.append_nil]

/-- Every node goes to one part, as itself. -/
theorem own_perm (h : t.MarkedBelow cut) :
    ((t.part (labelIn cut)).own cut ++
      t.taken.flatMap fun u => (u.part (labelIn cut)).own cut).Perm t.nodes := by
  induction t with
  | missing => rfl
  | node n op value freed l r ihl ihr =>
    have hl := own_operand h.1 (ihl h.1.below)
    have hr := own_operand h.2 (ihr h.2.below)
    rw [own_part_node, taken, List.flatMap_append, nodes, List.cons_append]
    refine .cons n (.trans ?_ (hl.append hr))
    simp only [List.append_assoc]
    exact .append_left _ (List.perm_append_comm_assoc _ _ _)

/-- An operand that is taken out is marked once, where it stood. -/
theorem marks_operand (h : t.Marked cut)
    (ih : ((t.part (labelIn cut)).marks cut ++
      t.taken.flatMap fun u => (u.part (labelIn cut)).marks cut).Perm (tops t.taken)) :
    ((t.face (labelIn cut)).nodes.filter (· ∈ cut) ++
      (t.taken ++ t.oversized).flatMap fun u => (u.part (labelIn cut)).marks cut).Perm
        (tops (t.taken ++ t.oversized)) := by
  cases t with
  | missing => exact ih
  | node n op value freed l r =>
    obtain ⟨hn, -⟩ := marked_node.mp h
    by_cases hcut : n ∈ cut
    · rw [nodes_face_of_mem rfl hcut, oversized, if_pos (hn.mp hcut), List.flatMap_append,
        tops_append]
      have hone : tops [node n op value freed l r] = [n] := rfl
      have hall := (List.perm_append_comm.trans ih).append_right [n]
      simpa [hone, hcut] using List.perm_append_comm.trans hall
    · have hmarks : (((node n op value freed l r).face (labelIn cut)).nodes.filter (· ∈ cut)) =
          ((node n op value freed l r).part (labelIn cut)).marks cut := by
        rw [face_of_notMem (by simpa using hcut), marks_part_node]
        simp [part, nodes, hcut]
      rwa [hmarks, oversized, if_neg (mt hn.mpr hcut), List.append_nil]

/-- Every label stands in one part. -/
theorem marks_perm (h : t.MarkedBelow cut) :
    ((t.part (labelIn cut)).marks cut ++
      t.taken.flatMap fun u => (u.part (labelIn cut)).marks cut).Perm (tops t.taken) := by
  induction t with
  | missing => rfl
  | node n op value freed l r ihl ihr =>
    have hl := marks_operand h.1 (ihl h.1.below)
    have hr := marks_operand h.2 (ihr h.2.below)
    rw [marks_part_node, taken, List.flatMap_append, tops_append]
    refine .trans ?_ (hl.append hr)
    simp only [List.append_assoc]
    exact .append_left _ (List.perm_append_comm_assoc _ _ _)

/-! ## the nodes at the top of what is taken out -/

/-- The nodes that are cut are the tops of the operands that are too large. -/
theorem mem_tops : m ∈ tops t.taken ↔ ∃ u ∈ t.operands, maxPart < u.weight ∧ u.root? = some m := by
  simp only [tops, List.mem_filterMap, mem_taken, and_assoc]

theorem mem_subs_of_operands (h : u ∈ t.operands) : u ∈ t.subs := mem_subs.mpr (.inr h)

/-- In a tree, the nodes at the top of what is taken out mark it. -/
theorem marked_operand (hnodup : t.nodes.Nodup) (hu : u ∈ t.operands) (hm : u.root? = some m) :
    m ∈ tops t.taken ↔ maxPart < u.weight := by
  rw [mem_tops]
  constructor
  · rintro ⟨v, hv, hw, hroot⟩
    rwa [eq_of_root? hnodup (mem_subs_of_operands hu) (mem_subs_of_operands hv)
      (hm.trans hroot.symm)]
  · intro hw
    exact ⟨u, hu, hw, hm⟩

/-- The tops of what is taken out are the places to cut. -/
theorem markedBelow_tops (hnodup : t.nodes.Nodup) : t.MarkedBelow (tops t.taken) := by
  cases t with
  | missing => trivial
  | node n op value freed l r =>
    constructor
    · intro u hu m hm
      exact marked_operand hnodup (List.mem_append_left _ hu) hm
    · intro u hu m hm
      exact marked_operand hnodup (List.mem_append_right _ hu) hm

/-- The top of a tree is not taken out, and no other node twice. -/
theorem tops_subperm (t : Shape α) : (tops t.taken).Subperm t.nodes.tail := by
  induction t with
  | missing => exact .refl _
  | node n op value freed l r ihl ihr =>
    have hside {x : Shape α} (ih : (tops x.taken).Subperm x.nodes.tail) :
        (tops (x.taken ++ x.oversized)).Subperm x.nodes := by
      cases x with
      | missing => exact .refl _
      | node m =>
        rw [tops_append, nodes]
        unfold oversized
        split
        · exact List.perm_append_comm.subperm.trans ((List.subperm_cons m).mpr ih)
        · rw [show tops ([] : List (Shape α)) = [] from rfl, List.append_nil]
          exact ih.cons_right m
    rw [taken, tops_append]
    exact (hside ihl).append (hside ihr)

/-- No node is cut twice. -/
theorem nodup_tops (hnodup : t.nodes.Nodup) : (tops t.taken).Nodup := by
  obtain ⟨ms, hperm, hsub⟩ := tops_subperm t
  exact hperm.nodup (hsub.nodup hnodup.tail)

/-- What is taken out of an operand, with the operand itself, stands together. -/
theorem infix_taken (h : u ∈ t.taken) : u.taken ++ [u] <:+: t.taken := by
  induction t with
  | missing => cases h
  | node n op value freed l r ihl ihr =>
    have hside {x : Shape α} (ih : u ∈ x.taken → u.taken ++ [u] <:+: x.taken)
        (hu : u ∈ x.taken ++ x.oversized) : u.taken ++ [u] <:+: x.taken ++ x.oversized := by
      obtain hu | hu := List.mem_append.mp hu
      · exact (ih hu).trans (List.prefix_append _ _).isInfix
      · obtain ⟨rfl, hw⟩ := mem_oversized.mp hu
        rw [oversized, if_pos hw]
    rw [taken] at h ⊢
    obtain h | h := List.mem_append.mp h
    · exact (hside ihl h).trans (List.prefix_append _ _).isInfix
    · exact (hside ihr h).trans (List.suffix_append _ _).isInfix

/-! ## all parts together -/

/-- A tree as one of several parts. -/
def among (parts : List (Shape α)) (u : Shape α) : Shape α := u.part (labelIn (tops parts))

/-- A tree is divided into the part at its top and further parts, in the order of their labels. -/
structure Divided (t : Shape α) (parts : List (Shape α)) : Prop where
  /-- exactly what is too large as a part is cut off -/
  mem_iff : ∀ u, u ∈ parts ↔ u ∈ t.operands ∧ maxPart < (u.among parts).nodes.length
  /-- nothing is cut off twice -/
  nodup : (tops parts).Nodup
  /-- every node stands for itself in one part -/
  own : ((t :: parts).flatMap fun u => (u.among parts).own (tops parts)).Perm t.nodes
  /-- every label stands in one part -/
  marks : ((t :: parts).flatMap fun u => (u.among parts).marks (tops parts)).Perm (tops parts)
  /-- labels are used after the part that they stand for -/
  earlier : ∀ k (hk : k < parts.length),
    (parts[k].among parts).marks (tops parts) ⊆ tops (parts.take k)
  /-- besides its top, a part has two operands that are not too large -/
  size_le : ∀ u ∈ t :: parts, (u.among parts).nodes.length ≤ 2 * maxPart + 1
  /-- the sizes of the parts, in which each label counts as one -/
  size_sum : ((t :: parts).map fun u => (u.among parts).nodes.length).sum =
    t.nodes.length + parts.length

/-- Every node of a part stands for itself or for another one. -/
theorem length_nodes_eq (cut : List NodeId) (t : Shape α) :
    t.nodes.length = (t.own cut).length + (t.marks cut).length := by
  have htail := List.length_eq_length_filter_add (l := t.nodes.tail) (· ∈ cut)
  cases t with
  | missing => rfl
  | node =>
    simp only [nodes, own, marks, List.tail_cons, List.take_succ_cons, List.take_zero,
      List.length_append, List.length_cons, List.length_nil, decide_not] at htail ⊢
    omega

theorem map_root?_taken (t : Shape α) : t.taken.map root? = (tops t.taken).map some := by
  have hroots : ∀ u ∈ t.taken, ∃ m, u.root? = some m := fun u hu => by
    obtain ⟨m, -, hroot⟩ := exists_root_of_mem_subs (mem_subs_of_operands (mem_taken.mp hu).1)
    exact ⟨m, hroot⟩
  generalize t.taken = us at hroots
  induction us with
  | nil => rfl
  | cons u us ih =>
    rw [List.forall_mem_cons] at hroots
    obtain ⟨⟨m, hm⟩, hroots⟩ := hroots
    simp [tops, hm, ih hroots]

theorem length_tops (t : Shape α) : (tops t.taken).length = t.taken.length := by
  simpa using (congrArg List.length (map_root?_taken t)).symm

/-- No operand is taken out twice. -/
theorem nodup_taken (hnodup : t.nodes.Nodup) : t.taken.Nodup := by
  have hroots : (t.taken.map root?).Nodup := by
    rw [map_root?_taken]
    exact (nodup_tops hnodup).map fun _ _ => Option.some.inj
  exact hroots.of_map

/-- In a list without repetitions, what stands in front of an element. -/
theorem take_of_nodup {β : Type} {l before after : List β} {u : β} (hl : l.Nodup)
    (h : l = before ++ u :: after) {k : Nat} {hk : k < l.length} (hu : l[k] = u) :
    l.take k = before := by
  subst h
  have hlt : before.length < (before ++ u :: after).length := by simp
  have hu' : (before ++ u :: after)[before.length] = u := by simp
  have hindex : (before ++ u :: after)[k] = (before ++ u :: after)[before.length] :=
    hu.trans hu'.symm
  obtain rfl := hl.getElem_inj_iff.mp hindex
  exact List.take_left

/-- **Every tree of nodes is divided** by what is taken out of it. -/
theorem divided (hnodup : t.nodes.Nodup) : t.Divided t.taken := by
  have hbelow := markedBelow_tops hnodup
  have hpart {u : Shape α} (hu : u ∈ t.operands) : u.MarkedBelow (tops t.taken) :=
    (hbelow.operand hu).below
  have hsize {u : Shape α} (hu : u ∈ t :: t.taken) :
      (u.among t.taken).nodes.length = u.weight := by
    obtain rfl | hu := List.mem_cons.mp hu
    · exact length_nodes_part hbelow
    · exact length_nodes_part (hpart (mem_taken.mp hu).1)
  have hown : ((t :: t.taken).flatMap fun u => (u.among t.taken).own (tops t.taken)).Perm
      t.nodes := own_perm hbelow
  have hmarks : ((t :: t.taken).flatMap fun u => (u.among t.taken).marks (tops t.taken)).Perm
      (tops t.taken) := marks_perm hbelow
  constructor
  case mem_iff =>
    intro u
    rw [mem_taken]
    refine and_congr_right fun hu => ?_
    rw [among, length_nodes_part (hpart hu)]
  case nodup => exact nodup_tops hnodup
  case own => exact hown
  case marks => exact hmarks
  case earlier =>
    intro k hk
    have hmem : t.taken[k] ∈ t.taken := List.getElem_mem hk
    obtain ⟨before, after, hsplit⟩ := infix_taken hmem
    have htaken : t.taken = (before ++ t.taken[k].taken) ++ t.taken[k] :: after := by
      simpa using hsplit.symm
    have htake : t.taken.take k = before ++ t.taken[k].taken :=
      take_of_nodup (nodup_taken hnodup) htaken rfl
    have hsubset := (marks_perm (hpart (mem_taken.mp hmem).1)).subset
    rw [htake, tops_append]
    exact fun m hm => List.mem_append_right _ (hsubset (List.mem_append_left _ hm))
  case size_le =>
    intro u hu
    rw [hsize hu]
    exact weight_le u
  case size_sum =>
    have hsum := congrArg₂ (· + ·) hown.length_eq hmarks.length_eq
    rw [List.length_flatMap, List.length_flatMap, ← List.sum_map_add, length_tops] at hsum
    simpa only [← length_nodes_eq] using hsum

end Shape

end Fluxion

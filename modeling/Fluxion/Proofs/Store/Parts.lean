import Fluxion.Proofs.Store.Division
import Fluxion.Store.Text

/-!
# Fluxion.Proofs.Store.Parts

The nodes of a tree that are given labels.

They are those at the top of the parts that are taken out, in the same order, and the sketch of a
node with labels for nodes below it is that of its part.  As long as there are labels enough, every
node has the label of its place in the order.

* `Shape.StandsIn.parts_eq`: the nodes that are given labels;
* `Shape.StandsIn.outlined_eq`: the sketch of a part;
* `Store.label?_eq`: the labels of the nodes.
-/

namespace Fluxion

open Store

variable {α : Type} {s : Store α} {t u : Shape α} {p : Option NodeId} {n m : NodeId}
  {cut : List NodeId}

/-! ## the nodes that are given labels -/

namespace Shape

/-- An operand as it is counted, and what is taken out by then. -/
def sized (s : Store α) (d : Nat) (c : NodeId) : Nat × List NodeId :=
  match s.partsTo d c with
  | (size, parts) => if maxPart < size then (1, parts ++ [c]) else (size, parts)

/-- The parts below a node are those of its children, with the children that are too large. -/
theorem partsTo_succ {c : Cell α} (h : s[n]? = some c) (d : Nat) :
    s.partsTo (d + 1) n = (1 + ((c.children.map (sized s d)).map (·.1)).sum,
      (c.children.map (sized s d)).flatMap (·.2)) := by
  have hunfold : s.partsTo (d + 1) n =
      (1 + (((((s[n]?).map Cell.children).getD []).map (sized s d)).map (·.1)).sum,
        ((((s[n]?).map Cell.children).getD []).map (sized s d)).flatMap (·.2)) := rfl
  rw [hunfold, h]
  rfl

/-- An operand counts for its size, and is taken out if that is too large. -/
theorem sized_operand {d : Nat} (h : ∀ c ∈ t.root?, s.partsTo d c = (t.weight, tops t.taken)) :
    ((t.root?.toList.map (sized s d)).map (·.1)).sum = counted t.weight ∧
      (t.root?.toList.map (sized s d)).flatMap (·.2) = tops (t.taken ++ t.oversized) := by
  cases t with
  | missing => exact ⟨rfl, rfl⟩
  | node m op value freed l r =>
    by_cases hw : maxPart < (node m op value freed l r).weight
    · simp [sized, h m rfl, counted, oversized, hw, tops]
    · simp [sized, h m rfl, counted, oversized, hw]

/-- The nodes that are taken out are those at the top of what is too large. -/
theorem StandsIn.partsTo_eq (h : t.StandsIn s p) (hn : t.root? = some n) {d : Nat}
    (hd : t.nodes.length ≤ d) : s.partsTo d n = (t.weight, tops t.taken) := by
  induction t generalizing n p d with
  | missing => cases hn
  | node k op value freed l r ihl ihr =>
    cases hn
    simp only [nodes, List.length_cons, List.length_append] at hd
    obtain ⟨d, rfl⟩ : ∃ d', d = d' + 1 := ⟨d - 1, by omega⟩
    obtain ⟨hlsize, hltaken⟩ :=
      sized_operand (s := s) (d := d) fun c hc => ihl h.2.1 hc (by omega)
    obtain ⟨hrsize, hrtaken⟩ :=
      sized_operand (s := s) (d := d) fun c hc => ihr h.2.2 hc (by omega)
    rw [partsTo_succ h.1, Cell.children, List.map_append, List.map_append, List.sum_append, hlsize,
      hrsize, List.flatMap_append, hltaken, hrtaken, ← Nat.add_assoc, ← tops_append]
    rfl

/-- The nodes that are given labels are those at the top of what is taken out. -/
theorem StandsIn.parts_eq (h : t.StandsIn s p) (hnodup : t.nodes.Nodup) (hn : t.root? = some n) :
    s.parts n = tops t.taken := by
  have hle := h.length_nodes_le hnodup
  rw [parts, h.partsTo_eq hn (by omega)]

/-! ## what is written for a part -/

/-- What is seen of an operand is what it shows. -/
theorem StandsIn.sketchTo_face (h : t.StandsIn s p) (label : NodeId → Option String) {d : Nat}
    (hd : t.nodes.length ≤ d) : s.sketchTo label d t.root? = (t.face label).sketch := by
  induction t generalizing p d with
  | missing => cases d <;> rfl
  | node n op value freed l r ihl ihr =>
    simp only [nodes, List.length_cons, List.length_append] at hd
    obtain ⟨d, rfl⟩ : ∃ d', d = d' + 1 := ⟨d - 1, by omega⟩
    cases hlabel : label n with
    | some x => simp [sketchTo, face, hlabel, sketch, Sketch.name]
    | none =>
      simp [sketchTo, face, hlabel, h.1, sketch, ihl h.2.1 (d := d) (by omega),
        ihr h.2.2 (d := d) (by omega)]

/-- What stands below a node, with labels, is a part. -/
theorem StandsIn.outlined_eq (h : t.StandsIn s p) (hnodup : t.nodes.Nodup) (hn : t.root? = some n)
    (label : NodeId → Option String) : s.outlined label n = (t.part label).sketch := by
  cases t with
  | missing => cases hn
  | node n op value freed l r =>
    cases hn
    have hle := h.length_nodes_le hnodup
    simp only [nodes, List.length_cons, List.length_append] at hle
    simp only [outlined, h.1, part, sketch]
    rw [h.2.1.sketchTo_face label (d := List.length s) (by omega),
      h.2.2.sketchTo_face label (d := List.length s) (by omega)]

/-- A part of a tree stands where the tree stands. -/
theorem StandsIn.sub (h : t.StandsIn s p) (hu : u ∈ t.subs) : ∃ q, u.StandsIn s q := by
  induction t generalizing p with
  | missing => cases hu
  | node n op value freed l r ihl ihr =>
    simp only [subs, List.mem_cons, List.mem_append] at hu
    obtain rfl | hu | hu := hu
    · exact ⟨p, h⟩
    · exact ihl h.2.1 hu
    · exact ihr h.2.2 hu

theorem nodup_sub (hnodup : t.nodes.Nodup) (hu : u ∈ t.subs) : u.nodes.Nodup := by
  induction t with
  | missing => cases hu
  | node n op value freed l r ihl ihr =>
    have hparts := hnodup
    rw [nodes, List.nodup_cons, List.nodup_append] at hparts
    obtain ⟨-, hl, hr, -⟩ := hparts
    simp only [subs, List.mem_cons, List.mem_append] at hu
    obtain rfl | hu | hu := hu
    · exact hnodup
    · exact ihl hl hu
    · exact ihr hr hu

end Shape

/-! ## labels -/

namespace Shape

/-- The nodes that are cut have the labels in order. -/
theorem labelIn_getElem (hnodup : cut.Nodup) {k : Nat} (hk : k < cut.length) :
    labelIn cut cut[k] = some (labels.getD k "") := by
  have hindex : cut.idxOf? cut[k] = some k := by
    rw [List.idxOf?_eq_some_iff]
    refine ⟨hk, rfl, fun j hj heq => ?_⟩
    have := hnodup.getElem_inj_iff.mp heq
    omega
  simp [labelIn, hindex]

/-- Labels are given in their order. -/
theorem map_labelIn (hnodup : cut.Nodup) (hle : cut.length ≤ labels.length) :
    cut.map (labelIn cut) = (labels.take cut.length).map some := by
  refine List.ext_getElem (by simpa using hle) fun k hk hk' => ?_
  have hk : k < cut.length := by simpa using hk
  have hlt : k < labels.length := by omega
  simp only [List.getElem_map, List.getElem_take, labelIn_getElem hnodup hk]
  rw [List.getD_eq_getElem _ _ hlt]

end Shape

namespace Store

theorem lookup_of_mem {β γ : Type} [BEq β] [LawfulBEq β] {l : List (β × γ)}
    (hnodup : (l.map (·.1)).Nodup) {b : β} {c : γ} (h : (b, c) ∈ l) : l.lookup b = some c := by
  obtain ⟨before, after, rfl⟩ := List.append_of_mem h
  rw [List.lookup_eq_some_iff]
  refine ⟨before, after, rfl, fun q hq => ?_⟩
  rw [List.map_append, List.nodup_append] at hnodup
  have hne := hnodup.2.2 q.1 (List.mem_map_of_mem hq) b (by simp)
  simpa [bne_iff_ne] using hne.symm

/-- The last label of a node is its only one. -/
theorem label?_eq (hnodup : cut.Nodup) (hle : cut.length ≤ labels.length) :
    label? cut = Shape.labelIn cut := by
  funext m
  have hkeys : (cut.zip labels).map (·.1) = cut := List.map_fst_zip hle
  by_cases hm : m ∈ cut
  · obtain ⟨k, hk, rfl⟩ := List.getElem_of_mem hm
    have hlt : k < labels.length := by omega
    rw [Shape.labelIn_getElem hnodup hk, List.getD_eq_getElem _ _ hlt, label?]
    apply lookup_of_mem
    · rw [List.map_reverse, hkeys]
      exact List.nodup_reverse.mpr hnodup
    · rw [List.mem_reverse, ← List.getElem_zip (h := by simpa using ⟨hk, hlt⟩)]
      exact List.getElem_mem _
  · rw [Shape.labelIn_eq_none.mpr hm, label?, List.lookup_eq_none_iff]
    intro q hq
    have hq' : q.1 ∈ cut := by
      rw [← hkeys]
      exact List.mem_map_of_mem (List.mem_reverse.mp hq)
    simp only [bne_iff_ne]
    rintro rfl
    exact hm hq'

/-- The labels of the nodes that are cut are the first ones. -/
theorem map_label? (hnodup : cut.Nodup) (hle : cut.length ≤ labels.length) :
    (cut.map fun m => (label? cut m).getD "") = labels.take cut.length := by
  have hlabels := congrArg (List.map fun o => o.getD "") (Shape.map_labelIn hnodup hle)
  rw [label?_eq hnodup hle]
  simpa [Function.comp_def] using hlabels

end Store

end Fluxion

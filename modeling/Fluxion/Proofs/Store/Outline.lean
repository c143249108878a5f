import Fluxion.Proofs.Expr.Legend
import Fluxion.Proofs.Store.Expression
import Fluxion.Proofs.Store.Parts
import Fluxion.Proofs.Store.Reading

/-!
# Fluxion.Proofs.Store.Outline

What is written of a tree of nodes that is large.

What is written for the tree and for its labels are its parts.  For a tree that stands for an
expression that is the outline of the expression, which takes the same parts out.

* `Store.outline_eq_ok`: the outline is made of the parts;
* `Shape.outlines_outlineFrom`: the outline of an expression is made of the same parts;
* `Store.outline_divided`: the outline of a tree.
-/

namespace Fluxion

open Store

variable {α : Type} {s : Store α} {t u : Shape α} {p : Option NodeId} {n m : NodeId}
  {cut : List NodeId}

/-! ## sketches that are written -/

namespace Sketch

/-- The expression that is written as LaTeX text for a sketch. -/
def expr? (e : Sketch α) : Except NodeError (Expr α) := e.written "is_var" (.ok nothing)

theorem expr?_ofExpr (e : Expr α) : (ofExpr e).expr? = .ok e := by
  unfold expr?
  induction e with
  | num v => rfl
  | var x => rfl
  | bin op a b iha ihb =>
    have hname : op.symbol ≠ Cell.nameOp := by cases op <;> decide
    simp only [ofExpr, binary, written, hname, if_false, BinOp.ofSymbol?_symbol, isMissing_ofExpr,
      iha, ihb, Bool.and_false]
    rfl
  | neg a ih =>
    have hname : Expr.negName ≠ Cell.nameOp := by decide
    have hbinary : BinOp.ofSymbol? Expr.negName = none := by decide
    simp only [ofExpr, negation, written, hname, hbinary, if_false, if_true, ih]
    rfl
  | app f a ih =>
    have hname : f.name ≠ Cell.nameOp := by cases f <;> decide
    have hbinary : BinOp.ofSymbol? f.name = none := by cases f <;> decide
    have hneg : f.name ≠ Expr.negName := by cases f <;> decide
    have hfn : Fn.ofName? f.name = some f := by cases f <;> decide
    simp only [ofExpr, function, written, hname, hbinary, hneg, hfn, if_false, ih]
    rfl

end Sketch

namespace Store

/-! ## the outline of a tree -/

theorem zip_take {β γ : Type} {l : List β} {cs : List γ} {k : Nat} (h : cs.length ≤ k) :
    (l.take k).zip cs = l.zip cs := by
  induction cs generalizing l k with
  | nil => simp
  | cons c cs ih =>
    obtain ⟨k, rfl⟩ := Nat.exists_eq_succ_of_ne_zero (Nat.ne_of_gt (Nat.lt_of_lt_of_le (by simp) h))
    cases l with
    | nil => rfl
    | cons b l => simp [ih (Nat.le_of_succ_le_succ h)]

/-- A list goes with nodes as it goes with the parts below them. -/
theorem forall₂_roots {β : Type} {R : NodeId → β → Prop} {S : Shape α → β → Prop}
    {us : List (Shape α)} {ms : List NodeId} (hroots : us.map Shape.root? = ms.map some)
    (h : ∀ u ∈ us, ∀ m, u.root? = some m → ∀ b, R m b ↔ S u b) {bs : List β} :
    List.Forall₂ R ms bs ↔ List.Forall₂ S us bs := by
  induction us generalizing ms bs with
  | nil =>
    cases ms with
    | nil => simp
    | cons => cases hroots
  | cons u us ih =>
    cases ms with
    | nil => cases hroots
    | cons m ms =>
      obtain ⟨hm, hroots⟩ := List.cons.inj hroots
      rw [List.forall_mem_cons] at h
      cases bs with
      | nil => simp
      | cons b bs => rw [List.forall₂_cons, List.forall₂_cons, h.1 m hm, ih hroots h.2]

/-- Pairs that are made one after the other. -/
theorem mapM_pair_eq_ok {ε β γ δ : Type} {g : β → δ} {f : β → Except ε γ} {l : List β}
    {r : List (δ × γ)} :
    (l.mapM fun b => do return (g b, ← f b)) = .ok r ↔
      ∃ cs, List.Forall₂ (fun b c => f b = .ok c) l cs ∧ r = (l.map g).zip cs := by
  induction l generalizing r with
  | nil =>
    rw [List.mapM_nil, pure_eq_ok]
    simp [eq_comm]
  | cons b l ih =>
    rw [List.mapM_cons]
    constructor
    · intro h
      obtain ⟨d, hd, h⟩ := bind_eq_ok.mp h
      obtain ⟨c, hc, hd⟩ := bind_eq_ok.mp hd
      obtain ⟨ds, hds, h⟩ := bind_eq_ok.mp h
      obtain ⟨cs, hcs, rfl⟩ := ih.mp hds
      cases pure_eq_ok.mp hd
      cases pure_eq_ok.mp h
      exact ⟨c :: cs, .cons hc hcs, rfl⟩
    · rintro ⟨cs, hcs, rfl⟩
      cases hcs with
      | cons hc hcs =>
        rw [hc, ih.mpr ⟨_, hcs, rfl⟩]
        rfl

theorem exists_of_mapM_error {ε β γ : Type} {f : β → Except ε γ} {l : List β} {e : ε}
    (h : l.mapM f = .error e) : ∃ b ∈ l, f b = .error e := by
  induction l with
  | nil => cases h
  | cons b l ih =>
    rw [List.mapM_cons] at h
    obtain h | ⟨c, -, h⟩ := bind_eq_error.mp h
    · exact ⟨b, List.mem_cons_self, h⟩
    · obtain h | ⟨cs, -, h⟩ := bind_eq_error.mp h
      · obtain ⟨b', hb', h⟩ := ih h
        exact ⟨b', List.mem_cons_of_mem b hb', h⟩
      · cases h

/-- What is written for a node, with labels for some of the nodes below it. -/
def text (s : Store α) (parts : List NodeId) (m : NodeId) : Except TexError (Expr α) :=
  (s.outlined (label? parts) m).expr?.mapError .node

theorem text_ne_labels (parts : List NodeId) (m : NodeId) (e : LabelsExhausted) :
    s.text parts m ≠ .error (.labels e) := by
  intro h
  obtain ⟨e', -, h⟩ := mapError_eq_error.mp h
  cases h

/-- The outline, as long as there are enough labels. -/
theorem outline_of_le (h : (s.parts n).length ≤ labels.length) :
    s.outline n = (do
      let root ← s.text (s.parts n) n
      let legend ← (s.parts n).mapM fun m => do
        return ((label? (s.parts n) m).getD "", ← s.text (s.parts n) m)
      return ⟨root, legend⟩) := by
  unfold outline
  rw [if_neg (Nat.not_lt.mpr h)]
  rfl

theorem outline_of_lt (h : labels.length < (s.parts n).length) :
    s.outline n = .error (.labels ⟨⟩) := by
  unfold outline
  rw [if_pos h]
  rfl

/-- There is no other error about labels. -/
theorem outline_eq_labels_iff :
    s.outline n = .error (.labels ⟨⟩) ↔ labels.length < (s.parts n).length := by
  constructor
  · intro h
    by_contra hle
    rw [outline_of_le (Nat.le_of_not_lt hle)] at h
    obtain h | ⟨root, -, h⟩ := bind_eq_error.mp h
    · exact text_ne_labels _ _ _ h
    · obtain h | ⟨legend, -, h⟩ := bind_eq_error.mp h
      · obtain ⟨m, -, h⟩ := exists_of_mapM_error h
        obtain h | ⟨e, -, h⟩ := bind_eq_error.mp h
        · exact text_ne_labels _ _ _ h
        · cases h
      · cases h
  · exact outline_of_lt

section

variable (ht : t.StandsIn s p) (hnodup : t.nodes.Nodup) (hn : t.root? = some n)
include ht hnodup hn

theorem length_parts : (s.parts n).length = t.taken.length := by
  rw [ht.parts_eq hnodup hn, Shape.length_tops]

/-- What is written for the tree, and for a node that is given a label. -/
theorem text_eq_ok (hle : t.taken.length ≤ labels.length) (hu : u ∈ t :: t.taken)
    (hm : u.root? = some m) {e : Expr α} :
    s.text (s.parts n) m = .ok e ↔ (u.among t.taken).sketch.expr? = .ok e := by
  have hsub : u ∈ t.subs := by
    obtain rfl | hu := List.mem_cons.mp hu
    · exact Shape.mem_subs.mpr (.inl ⟨rfl, by rintro rfl; cases hm⟩)
    · exact Shape.mem_subs_of_operands (Shape.mem_taken.mp hu).1
  obtain ⟨q, hstands⟩ := ht.sub hsub
  rw [text, mapError_eq_ok, hstands.outlined_eq (Shape.nodup_sub hnodup hsub) hm,
    ht.parts_eq hnodup hn, label?_eq (Shape.nodup_tops hnodup) (by rwa [Shape.length_tops])]
  rfl

/-- The outline of a tree is made of its parts. -/
theorem outline_eq_ok {o : Outline α} :
    s.outline n = .ok o ↔ t.taken.length ≤ labels.length ∧
      (t.among t.taken).sketch.expr? = .ok o.root ∧
      ∃ es, List.Forall₂ (fun u e => (u.among t.taken).sketch.expr? = .ok e) t.taken es ∧
        o.legend = labels.zip es := by
  have hlength := length_parts ht hnodup hn
  by_cases hle : t.taken.length ≤ labels.length
  · have hroot {e : Expr α} := text_eq_ok ht hnodup hn hle List.mem_cons_self hn (e := e)
    have hparts (es : List (Expr α)) :
        List.Forall₂ (fun m e => s.text (s.parts n) m = .ok e) (s.parts n) es ↔
          List.Forall₂ (fun u e => (u.among t.taken).sketch.expr? = .ok e) t.taken es := by
      have hroots := Shape.map_root?_taken t
      rw [← ht.parts_eq hnodup hn] at hroots
      refine forall₂_roots hroots fun u hu m hm e => ?_
      exact text_eq_ok ht hnodup hn hle (List.mem_cons_of_mem t hu) hm
    have hzip (es : List (Expr α)) :
        ((s.parts n).map fun m => (label? (s.parts n) m).getD "").zip es =
          (labels.take t.taken.length).zip es := by
      rw [ht.parts_eq hnodup hn, map_label? (Shape.nodup_tops hnodup)
        (by rwa [Shape.length_tops]), Shape.length_tops]
    rw [outline_of_le (by omega)]
    constructor
    · intro h
      obtain ⟨root, htext, h⟩ := bind_eq_ok.mp h
      obtain ⟨legend, hlegend, h⟩ := bind_eq_ok.mp h
      cases pure_eq_ok.mp h
      obtain ⟨es, hes, rfl⟩ := mapM_pair_eq_ok.mp hlegend
      have hes' := (hparts es).mp hes
      exact ⟨hle, hroot.mp htext, es, hes',
        (hzip es).trans (zip_take hes'.length_eq.symm.le)⟩
    · rintro ⟨-, hwritten, es, hes, hlegend⟩
      obtain ⟨root, legend⟩ := o
      rw [bind_eq_ok]
      refine ⟨root, hroot.mpr hwritten, ?_⟩
      rw [mapM_pair_eq_ok.mpr ⟨es, (hparts es).mpr hes, rfl⟩, hzip,
        zip_take hes.length_eq.symm.le, ← hlegend]
      rfl
  · rw [outline_of_lt (by omega)]
    simp [hle]

end

end Store

/-! ## trees that stand for expressions -/

namespace Shape

theorem sketch_face_of_some {x : String} (hn : t.root? = some n) {label : NodeId → Option String}
    (h : label n = some x) : (t.face label).sketch = .ofExpr (.var x) := by
  cases t with
  | missing => cases hn
  | node =>
    cases hn
    simp [face, h, sketch, Sketch.ofExpr, Sketch.name]

/-- What is left of an expression is a part of a tree, and the legend has grown by further parts;
or the labels were not enough. -/
def Outlines (cut : List NodeId) (legend : Legend α) (x : Shape α) (ts : List (Shape α)) :
    Except LabelsExhausted (Expr α × Legend α) → Prop
  | .ok (e, legend') => legend.length + ts.length ≤ labels.length ∧ x.sketch = .ofExpr e ∧
      ∃ ds, legend' = legend ++ ds ∧
        List.Forall₂ (fun u d => (u.part (labelIn cut)).sketch = .ofExpr d.2) ts ds
  | .error _ => labels.length < legend.length + ts.length

variable {legend : Legend α} {before after : List NodeId}

theorem labelIn_split (hnodup : cut.Nodup) (h : cut = before ++ m :: after) :
    labelIn cut m = some (labels.getD before.length "") := by
  subst h
  have := labelIn_getElem hnodup (k := before.length) (by simp)
  simpa using this

theorem length_tops_operand (t : Shape α) :
    (tops (t.taken ++ t.oversized)).length = (t.taken ++ t.oversized).length := by
  cases t with
  | missing => rfl
  | node =>
    rw [tops_append, List.length_append, List.length_append, length_tops, oversized]
    split <;> rfl

theorem size_sketch_eq (t : Shape α) : t.sketch.size = t.nodes.length :=
  (size_sketch t).trans t.inOrder_perm.length_eq

/-- What is left of an operand is part of what is left of an operation. -/
theorem Outlines.map {x y : Shape α} {ts : List (Shape α)}
    {r : Except LabelsExhausted (Expr α × Legend α)} (h : Outlines cut legend x ts r)
    {g : Expr α → Expr α} (hg : ∀ e, x.sketch = .ofExpr e → y.sketch = .ofExpr (g e)) :
    Outlines cut legend y ts (r >>= fun q => return (g q.1, q.2)) := by
  cases r with
  | error f => exact h
  | ok q =>
    obtain ⟨hle, hsketch, hds⟩ := h
    exact ⟨hle, hg _ hsketch, hds⟩

/-- The legend had grown before. -/
theorem Outlines.shift {x : Shape α} {ts us : List (Shape α)} {ds : Legend α}
    {r : Except LabelsExhausted (Expr α × Legend α)} (h : Outlines cut (legend ++ ds) x us r)
    (hds : List.Forall₂ (fun u d => (u.part (labelIn cut)).sketch = .ofExpr d.2) ts ds) :
    Outlines cut legend x (ts ++ us) r := by
  have hlength := hds.length_eq
  cases r with
  | error f =>
    change labels.length < _ at h
    change labels.length < _
    rw [List.length_append] at h ⊢
    omega
  | ok q =>
    obtain ⟨hle, hsketch, ds', hlegend, hds'⟩ := h
    rw [List.length_append] at hle
    refine ⟨?_, hsketch, ds ++ ds', ?_, List.rel_append hds hds'⟩
    · rw [List.length_append]
      omega
    · rw [hlegend, List.append_assoc]

/-- An operand is taken out when it is marked. -/
theorem outlines_operand {e : Expr α} (hmarked : t.Marked cut) (hnodup : cut.Nodup)
    (hcut : cut = before ++ tops (t.taken ++ t.oversized) ++ after)
    (hlegend : legend.length = before.length) (he : t.sketch = .ofExpr e)
    (hfrom : ∀ after, cut = before ++ tops t.taken ++ after →
      Outlines cut legend (t.part (labelIn cut)) t.taken (Expr.outlineFrom legend e)) :
    Outlines cut legend (t.face (labelIn cut)) (t.taken ++ t.oversized)
      (Expr.operand legend e) := by
  have ht : t ≠ missing := by
    rintro rfl
    exact Sketch.ofExpr_ne_missing e he.symm
  have h := hfrom (tops t.oversized ++ after) (by simpa [tops_append] using hcut)
  obtain ⟨n, hn⟩ := exists_root_of_ne ht
  have hmem : n ∈ cut ↔ maxPart < t.weight := by
    cases t with
    | missing => cases hn
    | node =>
      cases hn
      exact (marked_node.mp hmarked).1
  rw [Expr.operand]
  cases hr : Expr.outlineFrom legend e with
  | error f =>
    rw [hr] at h
    change labels.length < _
    change labels.length < _ at h
    rw [List.length_append]
    omega
  | ok q =>
    obtain ⟨e', legend'⟩ := q
    rw [hr] at h
    obtain ⟨hle, hsketch, ds, rfl, hds⟩ := h
    have hsize : e'.size = t.weight := by
      rw [← Sketch.size_ofExpr, ← hsketch, size_sketch_eq, length_nodes_part hmarked.below]
    change Outlines cut legend _ _ ((legend ++ ds).take e')
    unfold Legend.take
    rw [hsize]
    by_cases hw : maxPart < t.weight
    · rw [if_pos hw, oversized, if_pos hw]
      have hindex : (legend ++ ds).length = (before ++ tops t.taken).length := by
        rw [List.length_append, List.length_append, length_tops, hlegend, hds.length_eq]
      have hsplit : cut = (before ++ tops t.taken) ++ n :: after := by
        simp [hcut, oversized, hw, tops, hn]
      have hlabel := labelIn_split hnodup hsplit
      rw [← hindex] at hlabel
      cases hnext : labels[(legend ++ ds).length]? with
      | none =>
        change labels.length < _
        rw [List.getElem?_eq_none_iff, List.length_append, ← hds.length_eq] at hnext
        simp only [List.length_append, List.length_cons, List.length_nil]
        omega
      | some label =>
        obtain ⟨hlt, rfl⟩ := List.getElem?_eq_some_iff.mp hnext
        rw [List.getD_eq_getElem _ _ hlt] at hlabel
        rw [List.length_append, ← hds.length_eq] at hlt
        refine ⟨?_, sketch_face_of_some hn hlabel, _, List.append_assoc _ _ _, ?_⟩
        · simp only [List.length_append, List.length_cons, List.length_nil]
          omega
        · exact List.rel_append hds (.cons hsketch .nil)
    · rw [if_neg hw, oversized, if_neg hw, List.append_nil]
      have hface : t.face (labelIn cut) = t.part (labelIn cut) :=
        face_of_notMem fun m hm => by
          cases hn.symm.trans hm
          exact mt hmem.mp hw
      rw [hface]
      exact ⟨hle, hsketch, ds, rfl, hds⟩

/-- **An expression is outlined by the parts of its tree.** -/
theorem outlines_outlineFrom {e : Expr α} (hmarked : t.MarkedBelow cut) (hnodup : cut.Nodup)
    (he : t.sketch = .ofExpr e) (hcut : cut = before ++ tops t.taken ++ after)
    (hlegend : legend.length = before.length) (hle : legend.length ≤ labels.length) :
    Outlines cut legend (t.part (labelIn cut)) t.taken (Expr.outlineFrom legend e) := by
  induction e generalizing t legend before after with
  | num v =>
    obtain ⟨n, freed, l, r, rfl, hl, hr⟩ := exists_node he
    obtain rfl := sketch_eq_missing hl
    obtain rfl := sketch_eq_missing hr
    exact ⟨hle, rfl, [], (List.append_nil _).symm, .nil⟩
  | var x =>
    obtain ⟨n, freed, l, r, rfl, hl, hr⟩ := exists_node he
    obtain rfl := sketch_eq_missing hl
    obtain rfl := sketch_eq_missing hr
    exact ⟨hle, rfl, [], (List.append_nil _).symm, .nil⟩
  | bin op a b iha ihb =>
    obtain ⟨n, freed, l, r, rfl, hl, hr⟩ := exists_node he
    rw [taken, tops_append] at hcut
    have hleft := outlines_operand hmarked.1 hnodup (by simpa using hcut) hlegend hl
      fun _ h => iha hmarked.1.below hl h hlegend hle
    rw [Expr.outlineFrom_bin]
    cases ha : Expr.operand legend a with
    | error f =>
      rw [ha] at hleft
      change labels.length < _ at hleft
      change labels.length < _
      rw [taken, List.length_append]
      omega
    | ok q =>
      rw [ha] at hleft
      obtain ⟨a', legend'⟩ := q
      obtain ⟨hle', hsketch, ds, rfl, hds⟩ := hleft
      have hlength := hds.length_eq
      have hlegend' : (legend ++ ds).length =
          (before ++ tops (l.taken ++ l.oversized)).length := by
        rw [List.length_append, List.length_append, length_tops_operand, hlegend, hlength]
      rw [hlength, ← List.length_append] at hle'
      have hright := outlines_operand hmarked.2 hnodup (by simpa using hcut) hlegend' hr
        fun _ h => ihb hmarked.2.below hr h hlegend' hle'
      refine (hright.map (g := .bin op a') fun b' hb => ?_).shift hds
      simp [part, sketch, hsketch, hb, Sketch.ofExpr, Sketch.binary]
  | neg a ih =>
    obtain ⟨n, freed, l, r, rfl, hl, hr⟩ := exists_node he
    obtain rfl := sketch_eq_missing hl
    rw [Expr.outlineFrom_neg]
    refine (outlines_operand hmarked.2 hnodup hcut hlegend hr
      fun _ h => ih hmarked.2.below hr h hlegend hle).map (g := .neg) fun a' ha => ?_
    simp [part, face, sketch, ha, Sketch.ofExpr, Sketch.negation]
  | app f a ih =>
    obtain ⟨n, freed, l, r, rfl, hl, hr⟩ := exists_node he
    obtain rfl := sketch_eq_missing hl
    rw [Expr.outlineFrom_app]
    refine (outlines_operand hmarked.2 hnodup hcut hlegend hr
      fun _ h => ih hmarked.2.below hr h hlegend hle).map (g := .app f) fun a' ha => ?_
    simp [part, face, sketch, ha, Sketch.ofExpr, Sketch.function]

end Shape

namespace Store

section

variable (ht : t.StandsIn s p) (hnodup : t.nodes.Nodup) (hn : t.root? = some n)
include ht hnodup hn

/-- The outline of a tree that stands for an expression is that of the expression. -/
theorem outline_ofExpr {e : Expr α} (he : t.sketch = .ofExpr e) :
    s.outline n = e.outline.mapError .labels := by
  have hcut : Shape.tops t.taken = [] ++ Shape.tops t.taken ++ [] := by simp
  have houtlines : Shape.Outlines (Shape.tops t.taken) [] (t.among t.taken) t.taken
      (Expr.outlineFrom [] e) :=
    Shape.outlines_outlineFrom (Shape.markedBelow_tops hnodup) (Shape.nodup_tops hnodup) he hcut
      rfl (Nat.zero_le _)
  unfold Expr.outline
  cases hfrom : Expr.outlineFrom [] e with
  | error f =>
    rw [hfrom] at houtlines
    change labels.length < _ at houtlines
    rw [List.length_nil, Nat.zero_add, ← length_parts ht hnodup hn] at houtlines
    exact outline_of_lt houtlines
  | ok q =>
    rw [hfrom] at houtlines
    obtain ⟨root, legend⟩ := q
    obtain ⟨hle, hsketch, ds, hlegend, hds⟩ := houtlines
    rw [List.nil_append] at hlegend
    subst hlegend
    rw [List.length_nil, Nat.zero_add] at hle
    have hempty : Expr.InOrder ([] : Legend α) := rfl
    have horder : legend.map (·.1) = labels.take legend.length :=
      (Expr.restores_outlineFrom hempty hfrom).inOrder
    have hparts : List.Forall₂ (fun u e => (u.among t.taken).sketch.expr? = .ok e) t.taken
        (legend.map (·.2)) :=
      List.forall₂_map_right_iff.mpr (hds.imp fun u d hd => by
        rw [Shape.among, hd, Sketch.expr?_ofExpr])
    have hzip : legend = labels.zip (legend.map (·.2)) := by
      rw [← zip_take (l := labels) (k := legend.length) (by simp), ← horder]
      simpa only [List.unzip_eq_map] using (List.zip_unzip legend).symm
    have hroot : (t.among t.taken).sketch.expr? = .ok root := by
      rw [hsketch, Sketch.expr?_ofExpr]
    exact (outline_eq_ok ht hnodup hn).mpr ⟨hle, hroot, legend.map (·.2), hparts, hzip⟩

end

/-- **The outline of a tree is a division of it.**  Its nodes go to the part at the top and to those
that are too large as operands, of 25 to 49 nodes with the labels in them.  Labels run out exactly
if there are more of these parts than labels; otherwise the parts are written, each under its own
label.  A tree that stands for an expression has the outline of the expression. -/
theorem outline_divided [Arith α] [Numeral α] (ht : t.StandsIn s p) (hnodup : t.nodes.Nodup)
    (hn : t.root? = some n) :
    ∃ parts : List (Shape α), t.Divided parts ∧ parts.map Shape.root? = (s.parts n).map some ∧
      (s.outline n = .error (.labels ⟨⟩) ↔ labels.length < parts.length) ∧
      (∀ o, s.outline n = .ok o → (t.among parts).sketch.expr? = .ok o.root ∧
        ∃ es, List.Forall₂ (fun u e => (u.among parts).sketch.expr? = .ok e) parts es ∧
          o.legend = labels.zip es ∧ o.definitions = labels.zip (es.map Expr.tex)) ∧
      ∀ e, t.sketch = .ofExpr e → s.outline n = e.outline.mapError .labels ∧
        (parts.length ≤ labels.length → ∃ o, s.outline n = .ok o) := by
  refine ⟨t.taken, Shape.divided hnodup, ?_, ?_, fun o ho => ?_,
    fun e he => ⟨outline_ofExpr ht hnodup hn he, fun hle => ?_⟩⟩
  · rw [ht.parts_eq hnodup hn, Shape.map_root?_taken]
  · rw [outline_eq_labels_iff, length_parts ht hnodup hn]
  · obtain ⟨-, hroot, es, hes, hlegend⟩ := (outline_eq_ok ht hnodup hn).mp ho
    refine ⟨hroot, es, hes, hlegend, ?_⟩
    rw [Outline.definitions, hlegend, List.zip_map_right]
    rfl
  · have houtline := outline_ofExpr ht hnodup hn he
    cases hr : e.outline with
    | ok o =>
      rw [hr] at houtline
      exact ⟨o, houtline⟩
    | error f =>
      rw [hr] at houtline
      have hlt := outline_eq_labels_iff.mp houtline
      rw [length_parts ht hnodup hn] at hlt
      omega

/-! ## a tree of negations -/

/-- The nodes of a variable with signs in front. -/
def signs (k : Nat) : Store Float :=
  (List.range (k + 1)).map fun j =>
    ⟨if j = 0 then Cell.nameOp else Expr.negName, if j = 0 then some (.name "x") else none, none,
      if j = 0 then none else some (j - 1), if j = k then none else some (j + 1), false⟩

end Store

/-- A variable with signs in front, as a tree. -/
def Shape.signed : Nat → Shape Float
  | 0 => node 0 Cell.nameOp (some (.name "x")) false missing missing
  | k + 1 => node (k + 1) Expr.negName none false missing (signed k)

namespace Store

theorem root?_signed (k : Nat) : (Shape.signed k).root? = some k := by
  cases k <;> rfl

theorem signed_standsIn {k j : Nat} (h : j ≤ k) :
    (Shape.signed j).StandsIn (signs k) (if j = k then none else some (j + 1)) := by
  induction j with
  | zero => simp [Shape.signed, Shape.StandsIn, signs]
  | succ j ih =>
    have hbelow := ih (by omega)
    rw [if_neg (by omega)] at hbelow
    refine ⟨?_, trivial, hbelow⟩
    have hj : j + 1 < k + 1 := by omega
    simp [signs, hj, root?_signed]

theorem nodes_signed (k : Nat) : (Shape.signed k).nodes = (List.range (k + 1)).reverse := by
  induction k with
  | zero => rfl
  | succ k ih =>
    rw [List.range_succ, List.reverse_append, Shape.signed, Shape.nodes, ih]
    rfl

theorem sketch_signed (k : Nat) :
    (Shape.signed k).sketch = .ofExpr (Expr.neg^[k] (.var "x")) := by
  induction k with
  | zero => rfl
  | succ k ih =>
    rw [Shape.signed, Shape.sketch, ih, Function.iterate_succ_apply']
    rfl

/-- Of thirty signs, six are in front of a label. -/
theorem outline_divided_signs :
    ∃ (u : Shape Float) (o : Outline Float), (Shape.signed 30).Divided [u] ∧
      u.root? = some 24 ∧ (signs 30).outline 30 = .ok o ∧
      (Expr.neg^[30] (.var "x")).outline = .ok o := by
  obtain ⟨parts, hdivided, hparts, -, -, hexpr⟩ := outline_divided
    (signed_standsIn (Nat.le_refl 30)) (by rw [nodes_signed]; simp [List.nodup_range])
    (root?_signed 30)
  have hnodes : (signs 30).parts 30 = [24] := by decide +kernel
  rw [hnodes, List.map_singleton, List.map_eq_singleton_iff] at hparts
  obtain ⟨u, rfl, hu⟩ := hparts
  obtain ⟨houtline, hok⟩ := hexpr _ (sketch_signed 30)
  obtain ⟨o, ho⟩ := hok (by simp [labels])
  exact ⟨u, o, hdivided, hu, ho, mapError_eq_ok.mp (houtline ▸ ho)⟩

end Store

end Fluxion

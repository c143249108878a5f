import Fluxion.Proofs.Except
import Fluxion.Proofs.Number.Lawful
import Fluxion.Proofs.Problem.Line

/-!
# Fluxion.Proofs.Problem.Load

Which texts are problems, and where the others are at fault.

A problem has four lines, each of its form and all about one variable.  The lines are looked at from
the first to the last, so what is said of a line is said under the condition that the lines before
it are right.

* `Problem.contentLines_eq`: the lines that count, with their numbers in the text;
* `Problem.Describes`, `Problem.FirstFault`: problems and faults;
* `Problem.load_iff`: loading answers one or the other.
-/

namespace Fluxion

open Text

variable {cs : List Char}

namespace Text

/-! ## whole numbers -/

/-- Nothing is stripped from a text without white space. -/
theorem strip_eq_self {p : Char → Bool} (h : ∀ c ∈ cs, p c = false) : strip p cs = cs := by
  have hdrop {ds : List Char} (h : ∀ c ∈ ds, p c = false) : ds.dropWhile p = ds := by
    cases ds with
    | nil => rfl
    | cons c ds => exact List.dropWhile_cons_of_neg (by simp [h c List.mem_cons_self])
  rw [strip, dropEnd, hdrop h, hdrop fun c hc => h c (List.mem_reverse.mp hc), List.reverse_reverse]

/-- Digits without underscores are grouped as they should be. -/
theorem DigitsOnly.isGroupedDigits {ds : List Char} (h : DigitsOnly ds) (after : Bool) :
    isGroupedDigits after ds = (after || !ds.isEmpty) := by
  induction ds generalizing after with
  | nil => simp [Text.isGroupedDigits]
  | cons c ds ih =>
      obtain ⟨hc, hds⟩ := List.forall_mem_cons.mp h
      rw [Text.isGroupedDigits, if_pos hc, ih hds]
      simp

/-- The digits of a whole number. -/
def digitCount (cs : List Char) : ℕ := (cs.filter isDigit).length

/-- A whole number is read as such unless it has too many digits. -/
theorem integer_of_wholeText {n : ℤ} (h : WholeText cs n) :
    integer (String.ofList cs) =
      if maxDigits < digitCount cs then .error (.tooManyDigits (digitCount cs)) else .ok n := by
  obtain ⟨sign, ds, w, rfl, hsigns, hds, hlen, rfl⟩ := h.exists_sign Numerals.noSign
  have hlen := hlen []
  rw [List.append_nil] at hlen
  obtain ⟨hne, hdigits⟩ := hds
  have hspace : ∀ c ∈ sign ++ ds, isSpace c = false := by
    intro c hc
    obtain hc | hc := List.mem_append.mp hc
    · have := hsigns c hc
      simp only [isSign, Bool.or_eq_true, beq_iff_eq] at this
      rcases this with rfl | rfl <;> decide
    · have hblank := Lexer.isBlank_of_isDigit (hdigits c hc)
      rw [isBlank, Bool.or_eq_false_iff] at hblank
      exact hblank.1
  have hcount : digitCount (sign ++ ds) = ds.length := by
    have hnone : sign.filter isDigit = [] := List.filter_eq_nil_iff.mpr fun c hc hd => by
      have hsign := hsigns c hc
      rw [not_isSign_of_isDigit hd] at hsign
      cases hsign
    rw [digitCount, List.filter_append, hnone, List.filter_eq_self.mpr hdigits, List.nil_append]
  have hrun : ds.takeWhile (fun c => isDigit c || c == '_') = ds :=
    List.takeWhile_eq_self_iff.mpr fun c hc => by rw [hdigits c hc, Bool.true_or]
  have hgrouped : isGroupedDigits false ds = true := by
    rw [hdigits.isGroupedDigits]
    simpa using hne
  rw [hcount]
  simp only [integer, String.toList_ofList, strip_eq_self hspace, hlen, List.drop_left, hrun,
    List.filter_eq_self.mpr hdigits, hgrouped, Bool.not_true, Bool.false_eq_true, if_false,
    Nat.lt_irrefl]

end Text

namespace Problem

open Pattern

/-! ## the lines that count -/

/-- The lines of a text that are not blank, without white space at their ends, each with its number
in the text. -/
def contents (text : List Char) : List (ℕ × List Char) :=
  ((text.splitOn '\n').zipIdx 1).filterMap fun (line, n) =>
    if trim line = [] then none else some (n, trim line)

theorem modifyHead_nil_append (lines : List (List Char)) :
    lines.modifyHead (([] : List Char).reverse ++ ·) = lines :=
  congrFun List.modifyHead_id lines

/-- Numbered lines are the text split at its line ends, with the numbers in order. -/
theorem numberedFrom_eq (n : ℕ) (line cs : List Char) :
    numberedFrom n line cs =
      (((cs.splitOn '\n').modifyHead (line.reverse ++ ·)).zipIdx n).map Prod.swap := by
  induction cs generalizing n line with
  | nil => simp [numberedFrom]
  | cons c cs ih =>
      rw [numberedFrom]
      by_cases hc : c = '\n'
      · have hsplit : (c :: cs).splitOn '\n' = [] :: cs.splitOn '\n' := by
          simp [List.splitOn, List.splitOnP_cons_eq_if_modifyHead, hc]
        rw [if_pos hc, ih, hsplit, modifyHead_nil_append]
        simp
      · have hsplit : (c :: cs).splitOn '\n' = (cs.splitOn '\n').modifyHead (c :: ·) := by
          simp [List.splitOn, List.splitOnP_cons_eq_if_modifyHead, hc]
        rw [if_neg hc, ih, hsplit, List.modifyHead_modifyHead]
        congr 3
        funext l
        simp

/-- The lines that count are those that are not empty when trimmed. -/
theorem contentLines_eq (cs : List Char) : contentLines cs = contents cs := by
  rw [contentLines, numberedFrom_eq, modifyHead_nil_append, contents, List.map_map, List.filter_map,
    ← List.filterMap_eq_map, ← List.filterMap_eq_filter, List.filterMap_filterMap]
  apply List.filterMap_congr
  rintro ⟨line, n⟩ -
  by_cases h : trim line = [] <;> simp [h]

/-! ## problems and faults -/

variable {α : Type} [Arith α]

/-- The line gives a function of this variable. -/
def FunctionOf (line x e : List Char) : Prop :=
  ∃ x₀ e₀, FunctionForm line x₀ e₀ ∧ trim x₀ = x ∧ x ≠ [] ∧ trim e₀ = e

/-- The line asks for a Taylor series in this variable, of this order. -/
def SeriesOf (line x order : List Char) (center : α) (n : ℤ) : Prop :=
  ∃ y, SeriesForm line center y order n ∧ trim y = x

/-- The line asks for a tangent at a point of this variable. -/
def TangentOf (line x : List Char) (point : α) : Prop := ∃ y, TangentForm line y point ∧ trim y = x

/-- Four lines describe a problem: they are of their forms, about one variable, the order is not
negative, and the range ends after its start. -/
inductive Describes : List (ℕ × List Char) → Problem α → Prop
  | mk {n₁ n₂ n₃ n₄ : ℕ} {l₁ l₂ l₃ l₄ x e order : List Char} {n : ℕ} {center point start stop : α} :
      FunctionOf l₁ x e → SeriesOf l₂ x order center n → TangentOf l₃ x point →
      RangeForm l₄ start stop → Arith.lt start stop = true →
      Describes [(n₁, l₁), (n₂, l₂), (n₃, l₃), (n₄, l₄)] {
        var := String.ofList x
        function := String.ofList e
        seriesAt := center
        seriesOrder := n
        tangentAt := point
        rangeStart := start
        rangeEnd := stop }

/-- The first line is right. -/
def FunctionRight (l₁ : List Char) : Prop := ∃ x e, FunctionOf l₁ x e

/-- The second line is right after the first one. -/
def SeriesRight (α : Type) [Arith α] (l₁ l₂ : List Char) : Prop :=
  ∃ x e order n, ∃ center : α, FunctionOf l₁ x e ∧ SeriesOf l₂ x order center n ∧ 0 ≤ n

/-- The third line is right after the first one. -/
def TangentRight (α : Type) [Arith α] (l₁ l₃ : List Char) : Prop :=
  ∃ x e, ∃ point : α, FunctionOf l₁ x e ∧ TangentOf l₃ x point

/-- The fourth line is right. -/
def RangeRight (α : Type) [Arith α] (l₄ : List Char) : Prop :=
  ∃ start stop : α, RangeForm l₄ start stop ∧ Arith.lt start stop = true

/-- The first line at fault: none if there are too few lines, the fifth if there are too many, and
otherwise the first that is not right. -/
inductive FirstFault (α : Type) [Arith α] : List (ℕ × List Char) → Option ℕ → Prop
  | missing {lines : List (ℕ × List Char)} : lines.length < 4 → FirstFault α lines none
  | extra {l₁ l₂ l₃ l₄ l₅ : ℕ × List Char} {lines : List (ℕ × List Char)} :
      FirstFault α (l₁ :: l₂ :: l₃ :: l₄ :: l₅ :: lines) (some l₅.1)
  | function {l₁ l₂ l₃ l₄ : ℕ × List Char} : ¬ FunctionRight l₁.2 →
      FirstFault α [l₁, l₂, l₃, l₄] (some l₁.1)
  | series {l₁ l₂ l₃ l₄ : ℕ × List Char} : FunctionRight l₁.2 → ¬ SeriesRight α l₁.2 l₂.2 →
      FirstFault α [l₁, l₂, l₃, l₄] (some l₂.1)
  | tangent {l₁ l₂ l₃ l₄ : ℕ × List Char} : SeriesRight α l₁.2 l₂.2 → ¬ TangentRight α l₁.2 l₃.2 →
      FirstFault α [l₁, l₂, l₃, l₄] (some l₃.1)
  | range {l₁ l₂ l₃ l₄ : ℕ × List Char} : SeriesRight α l₁.2 l₂.2 → TangentRight α l₁.2 l₃.2 →
      ¬ RangeRight α l₄.2 → FirstFault α [l₁, l₂, l₃, l₄] (some l₄.1)

/-- The order of the series has more digits than are read. -/
inductive LongOrder (α : Type) [Arith α] : List (ℕ × List Char) → Prop
  | mk {l₁ l₂ l₃ l₄ : ℕ × List Char} {x e order : List Char} {center : α} {n : ℤ} :
      FunctionOf l₁.2 x e → SeriesOf l₂.2 x order center n → maxDigits < digitCount order →
      LongOrder α [l₁, l₂, l₃, l₄]

/-! ## forms have their parts in one way -/

section

variable {line x y e e' order order' : List Char} {v v' w w' : α} {n n' : ℤ}

/-- A line of a function is matched, with its variable and its text when trimmed. -/
theorem FunctionOf.match_eq (h : FunctionOf line x e) :
    ∃ x₀ e₀, functionLine.matchAll line = some (x₀, e₀) ∧ trim x₀ = x ∧ trim e₀ = e := by
  obtain ⟨x₀, e₀, hform, hx, -, he⟩ := h
  obtain ⟨b, hb, hcut⟩ := exists_trimStart e₀
  refine ⟨x₀, trimStart e₀, hform.match_eq, hx, ?_⟩
  rw [← he]
  conv_rhs => rw [hcut, trim_append hb]

/-- A line is that of one function only. -/
theorem FunctionOf.unique (h : FunctionOf line x e) (h' : FunctionOf line y e') :
    x = y ∧ e = e' := by
  obtain ⟨x₀, e₀, hm, rfl, rfl⟩ := h.match_eq
  obtain ⟨y₀, e₁, hm', rfl, rfl⟩ := h'.match_eq
  rw [hm] at hm'
  cases hm'
  exact ⟨rfl, rfl⟩

/-- The order of a series is the text of a whole number. -/
theorem SeriesForm.wholeText (h : SeriesForm line v x order n) : WholeText order n := by
  cases h
  assumption

/-- A line is that of one series only. -/
theorem SeriesForm.unique (h : SeriesForm line v x order n) (h' : SeriesForm line v' y order' n') :
    v = v' ∧ x = y ∧ order = order' ∧ n = n' := by
  obtain ⟨c, hm, rfl⟩ := h.match_eq
  obtain ⟨c', hm', rfl⟩ := h'.match_eq
  rw [hm] at hm'
  cases hm'
  exact ⟨rfl, rfl, rfl, h.wholeText.readInt_eq.symm.trans h'.wholeText.readInt_eq⟩

/-- A line shows one order only. -/
theorem SeriesOf.unique (h : SeriesOf line x order v n) (h' : SeriesOf line y order' v' n') :
    order = order' := by
  obtain ⟨_, hform, -⟩ := h
  obtain ⟨_, hform', -⟩ := h'
  exact (hform.unique hform').2.2.1

/-- A line is that of one tangent only. -/
theorem TangentForm.unique (h : TangentForm line x v) (h' : TangentForm line y v') :
    x = y ∧ v = v' := by
  obtain ⟨p, hm, rfl⟩ := h.match_eq
  obtain ⟨p', hm', rfl⟩ := h'.match_eq
  rw [hm] at hm'
  cases hm'
  exact ⟨rfl, rfl⟩

/-- A line is that of one range only. -/
theorem RangeForm.unique (h : RangeForm line v w) (h' : RangeForm line v' w') :
    v = v' ∧ w = w' := by
  obtain ⟨s, t, hm, rfl, rfl⟩ := h.match_eq
  obtain ⟨s', t', hm', rfl, rfl⟩ := h'.match_eq
  rw [hm] at hm'
  cases hm'
  exact ⟨rfl, rfl⟩

/-- Both ends of a range are texts of numbers. -/
theorem RangeForm.numberText (h : RangeForm line v w) :
    ∃ s t, NumberText s v ∧ NumberText t w := by
  obtain ⟨-, -, -, -, -, -, -, hstart, hstop⟩ := h
  exact ⟨_, _, hstart, hstop⟩

end

/-! ## reading single lines -/

/-- What reading a line answers: a value of some kind, or a fault of this line that excludes all
such values, or an order that is too long. -/
def Settles {β : Type} (n : ℕ) (P : β → Prop) (Wrong Long : Prop) :
    Except ProblemError β → Prop
  | .ok b => P b
  | .error (.mistake _ line) => line = some n ∧ Wrong
  | .error (.order _) => Long

/-- What is read from a line is what the line says. -/
theorem Settles.of_ok {β : Type} {n : ℕ} {P : β → Prop} {Wrong Long : Prop} {b : β}
    {r : Except ProblemError β} (h : Settles n P Wrong Long r) (hr : r = .ok b) : P b := by
  subst hr
  exact h

/-- Reading the line of a function settles what it is. -/
theorem settles_readFunction (l : ℕ × List Char) :
    Settles l.1 (fun r => FunctionOf l.2 r.1 r.2) (¬ FunctionRight l.2) False (readFunction l) := by
  cases h : functionLine.matchAll l.2 with
  | none =>
      have hread : readFunction l = wrong l.1 (.invalid .function l.2) := by
        rw [readFunction, matchLine, h]
        rfl
      rw [hread]
      refine ⟨rfl, ?_⟩
      rintro ⟨x, e, hright⟩
      obtain ⟨x₀, e₀, hmatch, -⟩ := hright.match_eq
      rw [h] at hmatch
      cases hmatch
  | some r =>
      obtain ⟨x₀, e₀⟩ := r
      obtain ⟨e₁, hform, he⟩ := functionForm_of_match h
      by_cases hx : trim x₀ = []
      · have hread : readFunction l = wrong l.1 .noVariable := by
          rw [readFunction, matchLine, h]
          simp [hx, wrong, bind, Except.bind]
        rw [hread]
        refine ⟨rfl, ?_⟩
        rintro ⟨x, e, hright⟩
        obtain ⟨x₁, e₂, hmatch, rfl, -⟩ := hright.match_eq
        rw [h] at hmatch
        cases hmatch
        obtain ⟨_, _, -, -, hne, -⟩ := hright
        exact hne hx
      · have hread : readFunction l = .ok (trim x₀, trim e₀) := by
          rw [readFunction, matchLine, h]
          simp [hx, bind, Except.bind, pure, Except.pure]
        rw [hread]
        exact ⟨x₀, e₁, hform, rfl, hx, he⟩

theorem ok_bind {ε β γ : Type} (b : β) (f : β → Except ε γ) : (.ok b >>= f) = f b := rfl

/-- A line about another variable. -/
theorem requireVar_eq (name : ProblemLine) (n : ℕ) (x y : List Char) :
    requireVar name n x y =
      if trim y = x then .ok () else wrong n (.otherVariable name x (trim y)) := rfl

/-- What a line in the form of a series is read as. -/
theorem readSeries_eq (x : List Char) {l : ℕ × List Char} {c y order : List Char} {n : ℤ}
    (hmatch : seriesLine.matchAll l.2 = some (c, y, order)) (horder : WholeText order n) :
    (readSeries x l : Except ProblemError (α × ℕ)) =
      if trim y = x then
        if maxDigits < digitCount order then .error (.order (.tooManyDigits (digitCount order)))
        else if n < 0 then wrong l.1 (.negativeOrder order)
        else .ok (readSigned c, n.toNat)
      else wrong l.1 (.otherVariable .series x (trim y)) := by
  rw [readSeries, matchLine, hmatch]
  simp only [ok_bind, requireVar_eq, integer_of_wholeText horder]
  split
  case isFalse => rfl
  case isTrue =>
    by_cases hlong : maxDigits < digitCount order
    · rw [if_pos hlong, if_pos hlong]
      rfl
    · rw [if_neg hlong, if_neg hlong]
      by_cases hn : n < 0 <;>
        simp [hn, bind, Except.bind, Except.mapError, wrong, pure, Except.pure]

/-- Reading the line of a series settles what it is, and whether its order is too long. -/
theorem settles_readSeries (x : List Char) (l : ℕ × List Char) :
    Settles l.1
      (fun r => ∃ order, SeriesOf l.2 x order r.1 r.2 ∧ digitCount order ≤ maxDigits)
      (∀ (order : List Char) (center : α) (n : ℤ), SeriesOf l.2 x order center n →
        n < 0 ∧ digitCount order ≤ maxDigits)
      (∃ (order : List Char) (center : α) (n : ℤ), SeriesOf l.2 x order center n ∧
        maxDigits < digitCount order)
      (readSeries x l : Except ProblemError (α × ℕ)) := by
  cases h : seriesLine.matchAll l.2 with
  | none =>
      have hread : (readSeries x l : Except ProblemError (α × ℕ)) =
          wrong l.1 (.invalid .series l.2) := by
        rw [readSeries, matchLine, h]
        rfl
      rw [hread]
      refine ⟨rfl, ?_⟩
      rintro order center n ⟨y, hform, -⟩
      obtain ⟨_, hmatch, -⟩ := hform.match_eq
      rw [h] at hmatch
      cases hmatch
  | some r =>
      obtain ⟨c, y, order⟩ := r
      obtain ⟨n, hform⟩ := seriesForm_of_match (α := α) h
      have hunique {order' : List Char} {center : α} {k : ℤ}
          (hseries : SeriesOf l.2 x order' center k) : trim y = x ∧ order' = order ∧ k = n := by
        obtain ⟨z, hform', hz⟩ := hseries
        obtain ⟨-, rfl, rfl, rfl⟩ := hform.unique hform'
        exact ⟨hz, rfl, rfl⟩
      rw [readSeries_eq x h hform.wholeText]
      split_ifs with hy hlong hn
      · exact ⟨order, _, n, ⟨y, hform, hy⟩, hlong⟩
      · refine ⟨rfl, fun order' center k hseries => ?_⟩
        obtain ⟨-, rfl, rfl⟩ := hunique hseries
        exact ⟨hn, Nat.le_of_not_lt hlong⟩
      · refine ⟨order, ?_, Nat.le_of_not_lt hlong⟩
        rw [Int.toNat_of_nonneg (Int.not_lt.mp hn)]
        exact ⟨y, hform, hy⟩
      · exact ⟨rfl, fun order' center k hseries => absurd (hunique hseries).1 hy⟩

/-- Reading the line of a tangent settles what it is. -/
theorem settles_readTangent (x : List Char) (l : ℕ × List Char) :
    Settles l.1 (fun point => TangentOf l.2 x point) (∀ point : α, ¬ TangentOf l.2 x point) False
      (readTangent x l : Except ProblemError α) := by
  cases h : tangentLine.matchAll l.2 with
  | none =>
      have hread : (readTangent x l : Except ProblemError α) =
          wrong l.1 (.invalid .tangent l.2) := by
        rw [readTangent, matchLine, h]
        rfl
      rw [hread]
      refine ⟨rfl, ?_⟩
      rintro point ⟨y, hform, -⟩
      obtain ⟨_, hmatch, -⟩ := hform.match_eq
      rw [h] at hmatch
      cases hmatch
  | some r =>
      obtain ⟨y, point⟩ := r
      have hform := tangentForm_of_match (α := α) h
      by_cases hy : trim y = x
      · have hread : (readTangent x l : Except ProblemError α) = .ok (readSigned point) := by
          rw [readTangent, matchLine, h]
          simp [requireVar_eq, hy, bind, Except.bind, pure, Except.pure]
        rw [hread]
        exact ⟨y, hform, hy⟩
      · have hread : (readTangent x l : Except ProblemError α) =
            wrong l.1 (.otherVariable .tangent x (trim y)) := by
          rw [readTangent, matchLine, h]
          simp [requireVar_eq, hy, bind, Except.bind, wrong]
        rw [hread]
        refine ⟨rfl, ?_⟩
        rintro point' ⟨z, hform', hz⟩
        obtain ⟨rfl, -⟩ := hform.unique hform'
        exact hy hz

/-- Numbers that are written as such can be compared from either side. -/
def Comparable (α : Type) [Arith α] : Prop := ∀ {s t : List Char} {v w : α}, NumberText s v →
  NumberText t w → Arith.lt v w = !Arith.le w v

/-- Reading the line of a range settles what it is. -/
theorem settles_readRange (hcompare : Comparable α) (l : ℕ × List Char) :
    Settles l.1 (fun r => RangeForm l.2 r.1 r.2 ∧ Arith.lt r.1 r.2 = true) (¬ RangeRight α l.2)
      False (readRange l : Except ProblemError (α × α)) := by
  cases h : rangeLine.matchAll l.2 with
  | none =>
      have hread : (readRange l : Except ProblemError (α × α)) =
          wrong l.1 (.invalid .range l.2) := by
        rw [readRange, matchLine, h]
        rfl
      rw [hread]
      refine ⟨rfl, ?_⟩
      rintro ⟨v, w, hform, -⟩
      obtain ⟨_, _, hmatch, -⟩ := hform.match_eq
      rw [h] at hmatch
      cases hmatch
  | some r =>
      obtain ⟨start, stop⟩ := r
      have hform := rangeForm_of_match (α := α) h
      obtain ⟨_, _, hstart, hstop⟩ := hform.numberText
      have hlt := hcompare hstart hstop
      by_cases hle : Arith.le (readSigned stop : α) (readSigned start) = true
      · have hread : (readRange l : Except ProblemError (α × α)) =
            wrong l.1 (.emptyRange start stop) := by
          rw [readRange, matchLine, h]
          simp [hle, bind, Except.bind, wrong]
        rw [hread]
        refine ⟨rfl, ?_⟩
        rintro ⟨v, w, hform', hlt'⟩
        obtain ⟨rfl, rfl⟩ := hform.unique hform'
        rw [hlt, hle] at hlt'
        cases hlt'
      · have hread : (readRange l : Except ProblemError (α × α)) =
            .ok (readSigned start, readSigned stop) := by
          rw [readRange, matchLine, h]
          simp [hle, bind, Except.bind, pure, Except.pure]
        rw [hread]
        exact ⟨hform, by rw [hlt, Bool.eq_false_iff.mpr hle]; rfl⟩

/-! ## what loading answers -/

/-- What is answered for the lines of a text. -/
inductive Verdict (lines : List (ℕ × List Char)) : Except ProblemError (Problem α) → Prop
  | ok {p : Problem α} : Describes lines p → ¬ LongOrder α lines → Verdict lines (.ok p)
  | mistake {m : ProblemMistake} {line : Option ℕ} : FirstFault α lines line → ¬ LongOrder α lines →
      Verdict lines (.error (.mistake m line))
  | order {e : IntegerError} : LongOrder α lines → Verdict lines (.error (.order e))

section

variable {l₁ l₂ l₃ l₄ : ℕ × List Char} {x e order : List Char} {center point : α} {n : ℤ}
  {err : ProblemError}

/-- A fault in the first line is the first one. -/
theorem verdict_functionFault (h : readFunction l₁ = .error err) :
    Verdict [l₁, l₂, l₃, l₄] (.error err : Except ProblemError (Problem α)) := by
  have hfunction := settles_readFunction l₁
  rw [h] at hfunction
  cases err with
  | order => exact absurd hfunction id
  | mistake m line =>
      obtain ⟨rfl, hwrong⟩ := hfunction
      refine .mistake (.function hwrong) ?_
      rintro ⟨hright, -⟩
      exact hwrong ⟨_, _, hright⟩

/-- An order that can be read is not too long, as the second line has one order only. -/
theorem not_longOrder (hx : FunctionOf l₁.2 x e) (hn : SeriesOf l₂.2 x order center n)
    (hshort : digitCount order ≤ maxDigits) : ¬ LongOrder α [l₁, l₂, l₃, l₄] := by
  rintro ⟨hy, hk, hlong⟩
  obtain ⟨rfl, -⟩ := hx.unique hy
  obtain rfl := hn.unique hk
  exact absurd hshort (Nat.not_le.mpr hlong)

/-- After a right first line a fault in the second one is the first. -/
theorem verdict_seriesFault (hx : FunctionOf l₁.2 x e)
    (h : (readSeries x l₂ : Except ProblemError (α × ℕ)) = .error err) :
    Verdict [l₁, l₂, l₃, l₄] (.error err : Except ProblemError (Problem α)) := by
  have hseries := settles_readSeries (α := α) x l₂
  rw [h] at hseries
  cases err with
  | order =>
      obtain ⟨order, center, n, hn, hlong⟩ := hseries
      exact .order (.mk hx hn hlong)
  | mistake m line =>
      obtain ⟨rfl, hwrong⟩ := hseries
      refine .mistake (.series ⟨x, e, hx⟩ ?_) ?_
      · rintro ⟨y, e', order, n, center, hy, hn, hnonneg⟩
        obtain ⟨rfl, -⟩ := hx.unique hy
        exact absurd (hwrong order center n hn).1 (Int.not_lt.mpr hnonneg)
      · rintro ⟨hy, hn, hlong⟩
        obtain ⟨rfl, -⟩ := hx.unique hy
        exact absurd (hwrong _ _ _ hn).2 (Nat.not_le.mpr hlong)

/-- After two right lines a fault in the third one is the first. -/
theorem verdict_tangentFault (hx : FunctionOf l₁.2 x e) (hseries : SeriesRight α l₁.2 l₂.2)
    (hshort : ¬ LongOrder α [l₁, l₂, l₃, l₄])
    (h : (readTangent x l₃ : Except ProblemError α) = .error err) :
    Verdict [l₁, l₂, l₃, l₄] (.error err : Except ProblemError (Problem α)) := by
  have htangent := settles_readTangent (α := α) x l₃
  rw [h] at htangent
  cases err with
  | order => exact absurd htangent id
  | mistake m line =>
      obtain ⟨rfl, hwrong⟩ := htangent
      refine .mistake (.tangent hseries ?_) hshort
      rintro ⟨y, e', point, hy, hpoint⟩
      obtain ⟨rfl, -⟩ := hx.unique hy
      exact hwrong point hpoint

/-- After three right lines a fault in the fourth one is the first. -/
theorem verdict_rangeFault (hcompare : Comparable α) (hseries : SeriesRight α l₁.2 l₂.2)
    (htangent : TangentRight α l₁.2 l₃.2) (hshort : ¬ LongOrder α [l₁, l₂, l₃, l₄])
    (h : (readRange l₄ : Except ProblemError (α × α)) = .error err) :
    Verdict [l₁, l₂, l₃, l₄] (.error err : Except ProblemError (Problem α)) := by
  have hrange := settles_readRange hcompare l₄
  rw [h] at hrange
  cases err with
  | order => exact absurd hrange id
  | mistake m line =>
      obtain ⟨rfl, hwrong⟩ := hrange
      exact .mistake (.range hseries htangent hwrong) hshort

end

/-- The lines are read in their order, and the first one that fails decides. -/
theorem verdict_ofLines (hcompare : Comparable α) (l₁ l₂ l₃ l₄ : ℕ × List Char) :
    Verdict [l₁, l₂, l₃, l₄] (ofLines l₁ l₂ l₃ l₄ : Except ProblemError (Problem α)) := by
  rw [ofLines]
  cases h₁ : readFunction l₁ with
  | error err => exact verdict_functionFault h₁
  | ok r =>
  obtain ⟨x, e⟩ := r
  have hx : FunctionOf l₁.2 x e := (settles_readFunction l₁).of_ok h₁
  rw [ok_bind]
  dsimp only
  cases h₂ : (readSeries x l₂ : Except ProblemError (α × ℕ)) with
  | error err => exact verdict_seriesFault hx h₂
  | ok r =>
  obtain ⟨center, n⟩ := r
  obtain ⟨order, hn, hdigits⟩ :
      ∃ order, SeriesOf l₂.2 x order center n ∧ digitCount order ≤ maxDigits :=
    (settles_readSeries x l₂).of_ok h₂
  have hseries : SeriesRight α l₁.2 l₂.2 := ⟨x, e, order, n, center, hx, hn, Int.natCast_nonneg n⟩
  have hshort : ¬ LongOrder α [l₁, l₂, l₃, l₄] := not_longOrder hx hn hdigits
  rw [ok_bind]
  dsimp only
  cases h₃ : (readTangent x l₃ : Except ProblemError α) with
  | error err => exact verdict_tangentFault hx hseries hshort h₃
  | ok point =>
  have hpoint : TangentOf l₃.2 x point := (settles_readTangent x l₃).of_ok h₃
  rw [ok_bind]
  cases h₄ : (readRange l₄ : Except ProblemError (α × α)) with
  | error err => exact verdict_rangeFault hcompare hseries ⟨x, e, point, hx, hpoint⟩ hshort h₄
  | ok r =>
  obtain ⟨start, stop⟩ := r
  obtain ⟨hform, hlt⟩ := (settles_readRange hcompare l₄).of_ok h₄
  rw [ok_bind]
  exact .ok (.mk hx hn hpoint hform hlt) hshort

/-- Loading a text answers what its lines say. -/
theorem verdict_load (hcompare : Comparable α) (text : String) :
    Verdict (contents text.toList) (load text : Except ProblemError (Problem α)) := by
  have hfew {lines : List (ℕ × List Char)} {m : ProblemMistake} (h : lines.length < 4) :
      Verdict lines (.error (.mistake m none) : Except ProblemError (Problem α)) := by
    refine .mistake (.missing h) ?_
    rintro ⟨-, -, -⟩
    exact absurd h (by simp)
  rw [load, contentLines_eq]
  match contents text.toList with
  | [] | [_] | [_, _] | [_, _, _] => exact hfew (by simp)
  | [l₁, l₂, l₃, l₄] => exact verdict_ofLines hcompare l₁ l₂ l₃ l₄
  | _ :: _ :: _ :: _ :: _ :: _ => exact .mistake .extra nofun

/-! ## problems and faults exclude each other -/

section

variable {lines : List (ℕ × List Char)} {line line' : Option ℕ} {p q : Problem α}

/-- Lines describe one problem at most. -/
theorem Describes.unique (h : Describes lines p) (h' : Describes lines q) : p = q := by
  obtain ⟨hx, hn, hpoint, hrange, -⟩ := h
  obtain ⟨hx', hn', hpoint', hrange', -⟩ := h'
  obtain ⟨rfl, rfl⟩ := hx.unique hx'
  obtain ⟨y, hn, hy⟩ := hn
  obtain ⟨y', hn', -⟩ := hn'
  obtain ⟨rfl, -, -, hk⟩ := hn.unique hn'
  obtain rfl := Int.ofNat_inj.mp hk
  obtain ⟨z, hpoint, -⟩ := hpoint
  obtain ⟨z', hpoint', -⟩ := hpoint'
  obtain ⟨-, rfl⟩ := hpoint.unique hpoint'
  obtain ⟨rfl, rfl⟩ := hrange.unique hrange'
  rfl

/-- Lines that describe a problem have no fault. -/
theorem Describes.not_firstFault (h : Describes lines p) : ¬ FirstFault α lines line := by
  obtain ⟨hx, hn, hpoint, hrange, hlt⟩ := h
  intro hfault
  cases hfault with
  | missing hlen => exact absurd hlen (by simp)
  | function hwrong => exact hwrong ⟨_, _, hx⟩
  | series _ hwrong => exact hwrong ⟨_, _, _, _, _, hx, hn, Int.natCast_nonneg _⟩
  | tangent _ hwrong => exact hwrong ⟨_, _, _, hx, hpoint⟩
  | range _ _ hwrong => exact hwrong ⟨_, _, hrange, hlt⟩

/-- The line of a series can be right only after a right first line. -/
theorem SeriesRight.functionRight {l₁ l₂ : List Char} (h : SeriesRight α l₁ l₂) :
    FunctionRight l₁ := by
  obtain ⟨x, e, _, _, _, hx, -⟩ := h
  exact ⟨x, e, hx⟩

/-- There is one first fault. -/
theorem FirstFault.unique (h : FirstFault α lines line) (h' : FirstFault α lines line') :
    line = line' := by
  cases h with
  | missing hlen =>
      cases h' with
      | missing => rfl
      | extra | function | series | tangent | range => exact absurd hlen (by simp)
  | extra =>
      cases h' with
      | missing hlen => exact absurd hlen (by simp)
      | extra => rfl
  | function hwrong =>
      cases h' with
      | missing hlen => exact absurd hlen (by simp)
      | function => rfl
      | series hright => exact absurd hright hwrong
      | tangent hright | range hright => exact absurd hright.functionRight hwrong
  | series hright hwrong =>
      cases h' with
      | missing hlen => exact absurd hlen (by simp)
      | function hwrong' => exact absurd hright hwrong'
      | series => rfl
      | tangent hright' | range hright' => exact absurd hright' hwrong
  | tangent hright hwrong =>
      cases h' with
      | missing hlen => exact absurd hlen (by simp)
      | function hwrong' => exact absurd hright.functionRight hwrong'
      | series _ hwrong' => exact absurd hright hwrong'
      | tangent => rfl
      | range _ hright' => exact absurd hright' hwrong
  | range hright htangent hwrong =>
      cases h' with
      | missing hlen => exact absurd hlen (by simp)
      | function hwrong' => exact absurd hright.functionRight hwrong'
      | series _ hwrong' => exact absurd hright hwrong'
      | tangent _ hwrong' => exact absurd htangent hwrong'
      | range => rfl

end

/-! ## double precision numbers -/

/-- Finite numbers in double precision are compared one way or the other. -/
theorem comparable_float : Comparable Float := by
  have hnumber {s : List Char} {v : Float} (h : NumberText s v) :
      Binary64.parts v ≠ .notANumber := by
    cases h with
    | plain hv | plus hv =>
        obtain ⟨-, -⟩ := hv
        exact Binary64.parts_ofDecimal_ne_notANumber _ _
    | minus hv =>
        obtain ⟨-, -⟩ := hv
        exact Binary64.parts_neg_ne_notANumber (Binary64.parts_ofDecimal_ne_notANumber _ _)
  intro s t v w hv hw
  exact Binary64.lt_eq_not_le (hnumber hv) (hnumber hw)

/-- **Problems are loaded, and faults are reported where they are.**  A text is loaded as a problem
exactly if its four lines describe that problem, and otherwise the first line at fault is reported,
unless the order of the series is too long to be read. -/
theorem load_iff (text : String) :
    (∀ p : Problem Float, load text = .ok p ↔
      Describes (contents text.toList) p ∧ ¬ LongOrder Float (contents text.toList)) ∧
    (∀ line, (∃ m, (load text : Except ProblemError (Problem Float)) = .error (.mistake m line)) ↔
      FirstFault Float (contents text.toList) line ∧ ¬ LongOrder Float (contents text.toList)) ∧
    ((∃ e, (load text : Except ProblemError (Problem Float)) = .error (.order e)) ↔
      LongOrder Float (contents text.toList)) := by
  have hverdict := verdict_load comparable_float text
  generalize (load text : Except ProblemError (Problem Float)) = r at hverdict
  cases hverdict with
  | ok hp hshort =>
      refine ⟨fun q => ⟨?_, ?_⟩, fun line => ⟨?_, ?_⟩, ?_, ?_⟩
      · intro h
        cases h
        exact ⟨hp, hshort⟩
      · exact fun hq => congrArg Except.ok (hp.unique hq.1)
      · exact fun ⟨_, h⟩ => nomatch h
      · exact fun h => absurd h.1 hp.not_firstFault
      · exact fun ⟨_, h⟩ => nomatch h
      · exact fun h => absurd h hshort
  | @mistake m line hfault hshort =>
      refine ⟨fun q => ⟨?_, ?_⟩, fun line' => ⟨?_, ?_⟩, ?_, ?_⟩
      · exact fun h => nomatch h
      · exact fun hq => absurd hfault hq.1.not_firstFault
      · rintro ⟨m', h⟩
        cases h
        exact ⟨hfault, hshort⟩
      · rintro ⟨hfault', -⟩
        obtain rfl := hfault.unique hfault'
        exact ⟨m, rfl⟩
      · exact fun ⟨_, h⟩ => nomatch h
      · exact fun h => absurd h hshort
  | @order e hlong =>
      refine ⟨fun q => ⟨?_, ?_⟩, fun line => ⟨?_, ?_⟩, ?_, ?_⟩
      · exact fun h => nomatch h
      · exact fun hq => absurd hlong hq.2
      · exact fun ⟨_, h⟩ => nomatch h
      · exact fun h => absurd hlong h.2
      · exact fun _ => hlong
      · exact fun _ => ⟨e, rfl⟩

/-- A problem whose order has an opening bracket only. -/
def unpairedBracketText : String :=
  "$f(x) = x$\nTaylor series at 0 to $x^\x7b3$\nTangent at $x=1$\nPlot in range [-2, 2]\n"

/-- The brackets around the order need not come in pairs. -/
theorem load_unpairedBracket :
    ∃ p : Problem Float, load unpairedBracketText = .ok p ∧ p.seriesOrder = 3 := by
  have h : (load unpairedBracketText : Except ProblemError (Problem Float)).toOption.any
      (fun p => p.seriesOrder == 3) = true := by decide +kernel
  obtain ⟨p, hp, horder⟩ := exists_ok_of_any h
  exact ⟨p, hp, eq_of_beq horder⟩

end Problem

end Fluxion

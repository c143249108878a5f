import Fluxion.Proofs.Infix.Read
import Fluxion.Proofs.Number.Numeral

/-!
# Fluxion.Proofs.Infix.Transcript

What the infix text of an expression is read as.

The transcript of an expression is the expression with its numbers as the decimals that are
written, a negation in front of those below zero, and with the functions that plotting tools lack
expressed by others (`Expr.transcript`).  The text of every part is read as one operand, so the text
of the whole is read as the transcript, under plain names.

* `Infix.reads_infixCall`: the text of a function;
* `Infix.reads_infixText`: the text of an expression;
* `Infix.read_infixText`: what is read, and which expressions have the same text.
-/

namespace Fluxion

open Binary64 Numeral

namespace Infix

/-! ## names -/

/-- An expression of infix notation under other names. -/
def mapNames (g : String → String) : Infix → Infix
  | number m e => number m e
  | pi => pi
  | var x => var (g x)
  | bin op a b => bin op (a.mapNames g) (b.mapNames g)
  | neg a => neg (a.mapNames g)
  | call f a => call f (a.mapNames g)

@[simp] theorem names_mapNames (g : String → String) (a : Infix) :
    (a.mapNames g).names = a.names.map g := by
  induction a with
  | number m e => rfl
  | pi => rfl
  | var x => rfl
  | bin op a b iha ihb => rw [mapNames, names, iha, ihb, names, List.map_append]
  | neg a ih => exact ih
  | call f a ih => exact ih

/-- Names that stay apart keep expressions apart. -/
theorem mapNames_injOn {g : String → String} {s : Set String} (hg : s.InjOn g) :
    Set.InjOn (mapNames g) {a | ∀ x ∈ a.names, x ∈ s} := by
  intro a ha b hb h
  induction a generalizing b with
  | number m e =>
      cases b with
      | number => simpa only [mapNames] using h
      | _ => exact nomatch h
  | pi =>
      cases b with
      | pi => rfl
      | _ => exact nomatch h
  | var x =>
      cases b with
      | var y =>
          have hx : x ∈ s := ha x (List.mem_singleton_self x)
          have hy : y ∈ s := hb y (List.mem_singleton_self y)
          rw [hg hx hy (var.inj h)]
      | _ => exact nomatch h
  | bin op a₁ a₂ ih₁ ih₂ =>
      cases b with
      | bin op' b₁ b₂ =>
          rw [mapNames, mapNames, bin.injEq] at h
          obtain ⟨rfl, h₁, h₂⟩ := h
          rw [ih₁ (fun x hx => ha x (List.mem_append_left _ hx))
              (fun x hx => hb x (List.mem_append_left _ hx)) h₁,
            ih₂ (fun x hx => ha x (List.mem_append_right _ hx))
              (fun x hx => hb x (List.mem_append_right _ hx)) h₂]
      | _ => exact nomatch h
  | neg a ih =>
      cases b with
      | neg b =>
          rw [mapNames, mapNames, neg.injEq] at h
          have hsame : a = b := ih ha hb h
          rw [hsame]
      | _ => exact nomatch h
  | call f a ih =>
      cases b with
      | call f' b =>
          rw [mapNames, mapNames, call.injEq] at h
          have hsame : a = b := ih ha hb h.2
          rw [h.1, hsame]
      | _ => exact nomatch h

/-! ## functions -/

/-- A function of an operand: the cotangent as the inverse of the tangent, and the inverse cosine
and cotangent as complements to a right angle. -/
def ofFn : Fn → Infix → Infix
  | .cot, a => bin .div (number 1 0) (call .tan a)
  | .arccos, a => bin .sub (bin .div pi (number 2 0)) (call .arcsin a)
  | .arccot, a => bin .sub (bin .div pi (number 2 0)) (call .arctan a)
  | f, a => call f a

theorem mapNames_ofFn (g : String → String) (f : Fn) (a : Infix) :
    (ofFn f a).mapNames g = ofFn f (a.mapNames g) := by
  cases f <;> rfl

@[simp] theorem names_ofFn (f : Fn) (a : Infix) : (ofFn f a).names = a.names := by
  cases f <;> rfl

theorem toList_bracketed (s : String) : (Expr.bracketed s).toList = parens s.toList := by
  rw [Expr.bracketed, String.toList_append, String.toList_append, List.append_assoc]
  rfl

section

variable {text : List Char} {x s : String} {f : Fn} {a : Infix} {ws : List Waiting}

/-- The sign of a quotient without blanks around it. -/
theorem readOn_slash {b : Infix} {ws' : List Waiting}
    (hsettle : settle (taking .div) a ws = (b, ws')) (cs : List Char) :
    readOn (some a) ws ('/' :: cs) = readOn none (.bin .div b :: ws') cs := by
  have hslash : lexeme? (['/'] ++ cs) = some (some (.sign .div), ['/'].length) := rfl
  exact readOn_sign (List.cons_ne_nil _ _) hslash hsettle

/-- The inverse of a function's value. -/
theorem reads_inverse (hfn : function? x = some f) (hx : isIdentifier x = true)
    (h : Reads text a) : Reads (parens ("1/".toList ++ (x.toList ++ parens text)))
      (bin .div (number 1 0) (call f a)) := by
  apply reads_parens
  intro rest ws
  let one : Infix := number 1 0
  have hopen : settle (taking .div) one (.bracket none :: ws) = (one, .bracket none :: ws) := rfl
  have hclose : settle 0 (call f a) (.bin .div one :: .bracket none :: ws) =
      (bin .div one (call f a), .bracket none :: ws) := rfl
  let value := x.toList ++ parens text ++ ')' :: rest
  have hone : readOn none (.bracket none :: ws) (['1'] ++ '/' :: value) =
      readOn (some one) (.bracket none :: ws) ('/' :: value) :=
    readOn_number rfl (List.cons_ne_nil _ _) (boundary_slash value)
  calc readOn none (.bracket none :: ws) ("1/".toList ++ (x.toList ++ parens text) ++ ')' :: rest)
      = readOn (some one) (.bracket none :: ws) ('/' :: value) := hone
    _ = readOn (some (call f a)) (.bin .div one :: .bracket none :: ws) (')' :: rest) := by
        rw [readOn_slash hopen]
        exact h.call hfn hx _ _ (boundary_close rest)
    _ = readOn (some (bin .div one (call f a))) ws rest := readOn_close hclose rest

/-- What a function's value leaves of a right angle. -/
theorem reads_complement (hfn : function? x = some f) (hx : isIdentifier x = true)
    (h : Reads text a) : Reads (parens ("pi/2 - ".toList ++ (x.toList ++ parens text)))
      (bin .sub (bin .div pi (number 2 0)) (call f a)) := by
  apply reads_parens
  intro rest ws
  let two : Infix := number 2 0
  let angle : Infix := bin .div pi two
  have hopen : settle (taking .div) pi (.bracket none :: ws) = (pi, .bracket none :: ws) := rfl
  have hangle : settle (taking .sub) two (.bin .div pi :: .bracket none :: ws) =
      (angle, .bracket none :: ws) := rfl
  have hclose : settle 0 (call f a) (.bin .sub angle :: .bracket none :: ws) =
      (bin .sub angle (call f a), .bracket none :: ws) := rfl
  let value := x.toList ++ parens text ++ ')' :: rest
  have htwo : readOn none (.bin .div pi :: .bracket none :: ws)
        (['2'] ++ ' ' :: '-' :: ' ' :: value) =
      readOn (some two) (.bin .div pi :: .bracket none :: ws) (' ' :: '-' :: ' ' :: value) :=
    readOn_number rfl (List.cons_ne_nil _ _) (boundary_blank ('-' :: ' ' :: value))
  calc readOn none (.bracket none :: ws)
        ("pi/2 - ".toList ++ (x.toList ++ parens text) ++ ')' :: rest)
      = readOn (some pi) (.bracket none :: ws) ('/' :: '2' :: ' ' :: '-' :: ' ' :: value) :=
        reads_pi _ _ (boundary_slash _)
    _ = readOn (some two) (.bin .div pi :: .bracket none :: ws) (' ' :: '-' :: ' ' :: value) := by
        rw [readOn_slash hopen]
        exact htwo
    _ = readOn none (.bin .sub angle :: .bracket none :: ws) value :=
        readOn_spaced .sub hangle value
    _ = readOn (some (call f a)) (.bin .sub angle :: .bracket none :: ws) (')' :: rest) :=
        h.call hfn hx _ _ (boundary_close rest)
    _ = readOn (some (bin .sub angle (call f a))) ws rest := readOn_close hclose rest

/-- The text of a function is read as the function. -/
theorem reads_infixCall (f : Fn) (h : Reads s.toList a) :
    Reads (Expr.infixCall f s).toList (ofFn f a) := by
  cases f <;> simp only [Expr.infixCall, String.toList_append, toList_bracketed]
  case cot => exact reads_inverse (x := "tan") rfl rfl h
  case arccos => exact reads_complement (x := "asin") rfl rfl h
  case arccot => exact reads_complement (x := "atan") rfl rfl h
  all_goals exact h.call rfl rfl

end

end Infix

/-! ## numbers -/

namespace Numeral

/-- The decimal in the text of a number, without its sign. -/
def decimal {α : Type} [Arith α] [Numeral α] (v : α) : ℕ × ℤ :=
  Text.readNumber ((plain v).toList.dropWhile (· == '-'))

variable {v : Float}

theorem exists_decimal (hv : Arith.finite v = true) :
    ∃ w : Written, w.WellFormed ∧ (plain v).toList = signText v ++ w.chars ∧
      decimal v = Text.readNumber w.chars ∧
      Digits.IsRounding 12 |value v| ((decimal v).1 * 10 ^ (decimal v).2) := by
  obtain ⟨m, hden, hvalue, w, hw, htext, hsame⟩ := exists_signed hv
  have hhead : w.chars.dropWhile (· == '-') = w.chars := by
    rw [List.dropWhile_eq_self_iff]
    intro hpos hminus
    have hmem : w.chars[0] ∈ w.whole.head? := by
      rw [← hw.head?_chars, List.head?_eq_getElem?, List.getElem?_eq_getElem hpos]
      rfl
    have hdigit := hw.whole _ (List.mem_of_head? hmem)
    rw [beq_iff_eq.mp hminus] at hdigit
    exact absurd hdigit (by decide)
  have hdrop : (plain v).toList.dropWhile (· == '-') = w.chars := by
    rw [htext, signText]
    split
    · exact hhead
    · exact hhead
  have hdecimal : decimal v = Text.readNumber w.chars := by rw [decimal, hdrop]
  refine ⟨w, hw, htext, hdecimal, ?_⟩
  rw [Written.value, Nat.cast_ofNat] at hsame
  rw [hdecimal, hw.readNumber_chars, hsame, ← hvalue]
  exact Digits.isRounding_rounded hden (by decide)

end Numeral

namespace Expr

variable {α : Type} [Arith α] [Numeral α]

/-! ## expressions -/

/-- An expression as its infix text has it. -/
def transcript : Expr α → Infix
  | num v =>
    let d : Infix := .number (decimal v).1 (decimal v).2
    if Arith.nonneg v then d else .neg d
  | var x => .var x
  | bin op a b => .bin op a.transcript b.transcript
  | neg a => .neg a.transcript
  | app f a => .ofFn f a.transcript

theorem names_transcript (e : Expr α) : e.transcript.names = e.names := by
  induction e with
  | num v =>
      rw [transcript]
      split <;> rfl
  | var x => rfl
  | bin op a b iha ihb => rw [transcript, Infix.names, iha, ihb, names]
  | neg a ih => rw [transcript, Infix.names, ih, names]
  | app f a ih => rw [transcript, Infix.names_ofFn, ih, names]

end Expr

namespace Infix

variable {e e' : Expr Float}

/-- A finite number is read as its decimal, which is negated if the number is below zero. -/
theorem reads_num {v : Float} (hv : Arith.finite v = true) :
    Reads (Expr.num v).infixText.toList (Expr.num v).transcript := by
  obtain ⟨w, hw, htext, hdecimal, -⟩ := exists_decimal hv
  have hne : w.chars ≠ [] := List.append_ne_nil_of_left_ne_nil hw.nonempty _
  have hdigits := Reads.number hw.numberLength_chars hne
  rw [Expr.infixText, Expr.transcript, hdecimal]
  by_cases hnonneg : Arith.nonneg v = true
  · rw [signText, if_pos hnonneg, List.nil_append] at htext
    rw [if_pos hnonneg, if_pos hnonneg, htext]
    exact hdigits
  · rw [signText, if_neg hnonneg, List.singleton_append] at htext
    rw [if_neg hnonneg, if_neg hnonneg, toList_bracketed, htext]
    exact hdigits.neg

theorem mapNames_transcript_num (g : String → String) (v : Float) :
    (Expr.num v).transcript.mapNames g = (Expr.num v).transcript := by
  rw [Expr.transcript]
  split <;> rfl

/-- The text of an expression is read as its transcript, under plain names. -/
theorem reads_infixText (hv : ∀ v ∈ e.numbers, Arith.finite v = true)
    (hx : ∀ x ∈ e.names, isIdentifier (plainName x) = true ∧ plainName x ∉ reserved) :
    Reads e.infixText.toList (e.transcript.mapNames plainName) := by
  induction e with
  | num v =>
      rw [mapNames_transcript_num]
      exact reads_num (hv v (List.mem_singleton_self v))
  | var x =>
      obtain ⟨hname, hfree⟩ := hx x (List.mem_singleton_self x)
      exact Reads.name hname hfree
  | bin op a b iha ihb =>
      have ha := iha (fun v h => hv v (List.mem_append_left _ h))
        (fun x h => hx x (List.mem_append_left _ h))
      have hb := ihb (fun v h => hv v (List.mem_append_right _ h))
        (fun x h => hx x (List.mem_append_right _ h))
      rw [Expr.infixText, toList_bracketed]
      simp only [String.toList_append, List.append_assoc]
      exact ha.bin op hb
  | neg a ih =>
      rw [Expr.infixText, toList_bracketed, String.toList_append]
      exact (ih hv hx).neg
  | app f a ih =>
      rw [Expr.infixText, Expr.transcript, mapNames_ofFn]
      exact reads_infixCall f (ih hv hx)

/-- Names that keep apart in infix text: without backslashes they are identifiers, distinct, and
none of them means something else. -/
structure PlainNames (names : List String) : Prop where
  identifier : ∀ x ∈ names, isIdentifier (plainName x) = true
  free : ∀ x ∈ names, plainName x ∉ reserved
  distinct : Set.InjOn plainName {x | x ∈ names}

/-- **Infix text is read as what it was written for.**  Let the numbers of an expression be finite
and its names keep apart.  Then its text is read, as the transcript of the expression under plain
names; the decimals there are the magnitudes of its numbers, rounded to twelve digits; and another
such expression in these names has the same text only if it has the same transcript. -/
theorem read_infixText {names : List String} (hnames : PlainNames names)
    (hv : ∀ v ∈ e.numbers, Arith.finite v = true) (he : ∀ x ∈ e.names, x ∈ names) :
    read e.infixText = some (e.transcript.mapNames plainName) ∧
    (∀ v ∈ e.numbers, Digits.IsRounding 12 |value v| ((decimal v).1 * 10 ^ (decimal v).2)) ∧
    ∀ e' : Expr Float, (∀ v ∈ e'.numbers, Arith.finite v = true) → (∀ x ∈ e'.names, x ∈ names) →
      e'.infixText = e.infixText → e'.transcript = e.transcript := by
  have hread {t : Expr Float} (hv : ∀ v ∈ t.numbers, Arith.finite v = true)
      (ht : ∀ x ∈ t.names, x ∈ names) :
      read t.infixText = some (t.transcript.mapNames plainName) := by
    apply Reads.read_eq
    exact reads_infixText hv fun x hx => ⟨hnames.identifier x (ht x hx), hnames.free x (ht x hx)⟩
  refine ⟨hread hv he, ?_, ?_⟩
  · intro v hmem
    obtain ⟨-, -, -, -, hrounding⟩ := exists_decimal (hv v hmem)
    exact hrounding
  · intro e' hv' he' htext
    have hsame := hread hv' he'
    rw [htext, hread hv he, Option.some_inj] at hsame
    apply mapNames_injOn hnames.distinct _ _ hsame.symm
    · intro x hx
      rw [Expr.names_transcript] at hx
      exact he' x hx
    · intro x hx
      rw [Expr.names_transcript] at hx
      exact he x hx

/-- A negative factor and a negated one are written alike. -/
theorem read_infixText_factor :
    ∃ e e' : Expr Float, e = .bin .mul (.num (-2.5)) (.app .arccos (.var "\\alpha")) ∧
      e' = .bin .mul (.neg (.num 2.5)) (.app .arccos (.var "\\alpha")) ∧
      PlainNames ["\\alpha"] ∧ (∀ v ∈ e.numbers, Arith.finite v = true) ∧
      e.infixText = "((-2.5) * (pi/2 - asin(alpha)))" ∧
      read e.infixText = some (.bin .mul (.neg (.number 25 (-1)))
        (.bin .sub (.bin .div .pi (.number 2 0)) (.call .arcsin (.var "alpha")))) ∧
      e'.transcript = e.transcript := by
  let e : Expr Float := .bin .mul (.num (-2.5)) (.app .arccos (.var "\\alpha"))
  let e' : Expr Float := .bin .mul (.neg (.num 2.5)) (.app .arccos (.var "\\alpha"))
  have hnames : PlainNames ["\\alpha"] := by
    refine ⟨by decide, by decide, ?_⟩
    intro x hx y hy _
    rw [List.mem_singleton.mp hx, List.mem_singleton.mp hy]
  have hfinite : ∀ v ∈ e.numbers, Arith.finite v = true := by decide +kernel
  have hfinite' : ∀ v ∈ e'.numbers, Arith.finite v = true := by decide +kernel
  have hmem : ∀ x ∈ e.names, x ∈ ["\\alpha"] := by decide
  have hmem' : ∀ x ∈ e'.names, x ∈ ["\\alpha"] := by decide
  obtain ⟨hread, -, halike⟩ := read_infixText hnames hfinite hmem
  have hsame : e'.infixText = e.infixText := by decide +kernel
  refine ⟨e, e', rfl, rfl, hnames, hfinite, ?_, ?_, halike e' hfinite' hmem' hsame⟩
  · decide +kernel
  · rw [hread]
    decide +kernel

end Infix

end Fluxion

import Fluxion.Proofs.Formula.Read

/-!
# Fluxion.Proofs.Formula.FirstFault

A mistake in the grammar is reported at the first token that cannot stand where it stands.

A rule of the grammar looks at the tokens that it takes and at the symbol of the next one, and at
nothing behind.  So what it does to tokens it does to all tokens that agree with them so far
(`Reads`): it takes the same phrase, or it is stuck at the same place.  In the second case the
tokens before that place can be completed to a phrase of the rule.

* `Phrase.reads_sum`: this for sums, and with them for all rules;
* `Formula.read_error_first`: what it says of the texts that are no formulas.
-/

namespace Fluxion

open Grammar

variable {α : Type}

namespace Phrase

/-! ## tokens that agree up to the next symbol -/

/-- Two lists of tokens begin with the same symbol, or both are empty. -/
def SameHead (ts us : List (Token α)) : Prop := (symbols ts).head? = (symbols us).head?

theorem SameHead.refl (ts : List (Token α)) : SameHead ts ts := rfl

/-- Only no tokens agree with no tokens. -/
theorem SameHead.eq_nil {us : List (Token α)} (h : SameHead [] us) : us = [] := by
  cases us with
  | nil => rfl
  | cons u us => exact nomatch h

/-- Tokens that agree with some begin with the same symbol. -/
theorem SameHead.eq_cons {t : Token α} {ts us : List (Token α)} (h : SameHead (t :: ts) us) :
    ∃ u us', us = u :: us' ∧ u.symbol = t.symbol := by
  cases us with
  | nil => exact nomatch h
  | cons u us => exact ⟨u, us, rfl, (Option.some.inj h).symm⟩

/-- Tokens agree behind the same ones. -/
theorem SameHead.append (taken : List (Token α)) {rest rest' : List (Token α)}
    (h : SameHead rest rest') : SameHead (taken ++ rest) (taken ++ rest') := by
  cases taken with
  | nil => exact h
  | cons t taken => rfl

/-! ## what a rule does to all tokens that agree -/

/-- A rule that reads an expression from the front of tokens. -/
abbrev Reader (α : Type) : Type := List (Token α) → Except GrammarFault (Expr α × List (Token α))

/-- A fault found in front of tokens. -/
def StopsAt (us : List (Token α)) (r : Except GrammarFault (Expr α × List (Token α))) : Prop :=
  ∃ fault, r = .error fault ∧ fault.unread = us.length

/-- What a rule for the phrases `P` does to tokens, and to all that agree with them up to the symbol
after those that it takes. -/
inductive Reads (P : List (Symbol α) → Prop) (read : Reader α) : List (Token α) → Prop where
  /-- it takes a phrase -/
  | phrase (taken : List (Token α)) {rest : List (Token α)} {e : Expr α} (hP : P (symbols taken))
      (h : ∀ us, SameHead rest us → read (taken ++ us) = .ok (e, us)) : Reads P read (taken ++ rest)
  /-- it is stuck after tokens that something without names would complete to a phrase -/
  | stuck (before : List (Token α)) {left : List (Token α)} (more : List (Symbol α))
      (hmore : more.filterMap Symbol.name? = []) (hP : P (symbols before ++ more))
      (h : ∀ us, SameHead left us → StopsAt us (read (before ++ us))) : Reads P read (before ++ left)

namespace Reads

variable {P P' : List (Symbol α) → Prop} {read read' : Reader α} {ts : List (Token α)} {e : Expr α}

/-- Less may be said of what a rule takes. -/
theorem imp (h : Reads P read ts) (hP : ∀ l, P l → P' l) : Reads P' read ts := by
  cases h with
  | phrase taken hl h => exact .phrase taken (hP _ hl) h
  | stuck before more hmore hl h => exact .stuck before more hmore (hP _ hl) h

/-- Rules that do the same to tokens that agree. -/
theorem congr (h : Reads P read ts) (hread : ∀ us, SameHead ts us → read' us = read us) :
    Reads P read' ts := by
  cases h with
  | phrase taken hl h =>
      apply Reads.phrase taken hl
      intro us hus
      rw [hread _ (hus.append taken), h us hus]
  | stuck before more hmore hl h =>
      apply Reads.stuck before more hmore hl
      intro us hus
      rw [hread _ (hus.append before)]
      exact h us hus

/-- Nothing is taken. -/
theorem done (hP : P []) (h : ∀ us, SameHead ts us → read us = .ok (e, us)) : Reads P read ts :=
  phrase [] hP h

/-- The rule is stuck at once. -/
theorem here (more : List (Symbol α)) (hmore : more.filterMap Symbol.name? = []) (hP : P more)
    (h : ∀ us, SameHead ts us → StopsAt us (read us)) : Reads P read ts :=
  stuck [] more hmore hP h

/-- A token is taken before the others. -/
theorem cons {t : Token α} (read' : Reader α) (hread : ∀ us, read (t :: us) = read' us)
    (h : Reads (fun l => P (t.symbol :: l)) read' ts) : Reads P read (t :: ts) := by
  cases h with
  | phrase taken hl h =>
      apply Reads.phrase (t :: taken) hl
      intro us hus
      rw [List.cons_append, hread, h us hus]
  | stuck before more hmore hl h =>
      apply Reads.stuck (t :: before) more hmore hl
      intro us hus
      rw [List.cons_append, hread]
      exact h us hus

/-- One phrase is read after another.  Where the first is stuck, what completes it must be
completed further to a phrase of the whole. -/
theorem bind (next : Expr α → Reader α) (h : Reads P read ts)
    (hnext : ∀ l e rest, read ts = .ok (e, rest) → rest <:+ ts → P l →
      Reads (fun l' => P' (l ++ l')) (next e) rest)
    (hstuck : ∀ l, P l → ∃ more, more.filterMap Symbol.name? = [] ∧ P' (l ++ more)) :
    Reads P' (fun us => read us >>= fun q => next q.1 q.2) ts := by
  cases h with
  | stuck before more hmore hl h =>
      obtain ⟨more', hmore', hl'⟩ := hstuck _ hl
      have hnames : (more ++ more').filterMap Symbol.name? = [] := by
        rw [List.filterMap_append, hmore, hmore', List.append_nil]
      apply Reads.stuck before (more ++ more') hnames (by rwa [List.append_assoc] at hl')
      intro us hus
      obtain ⟨fault, hfault, hlen⟩ := h us hus
      exact ⟨fault, by rw [hfault]; rfl, hlen⟩
  | @phrase taken rest e hl h =>
      have hsecond := hnext _ e rest (h rest (.refl rest)) (List.suffix_append taken rest) hl
      cases hsecond with
      | phrase taken' hl' h' =>
          rw [← List.append_assoc]
          apply Reads.phrase (taken ++ taken') (by rwa [symbols_append])
          intro us hus
          simp only [List.append_assoc, h _ (hus.append taken')]
          exact h' us hus
      | stuck before' more hmore hl' h' =>
          rw [← List.append_assoc]
          apply Reads.stuck (taken ++ before') more hmore (by rwa [symbols_append, List.append_assoc])
          intro us hus
          simp only [List.append_assoc, h _ (hus.append before')]
          exact h' us hus

end Reads

/-! ## the rules -/

/-- Symbols of some derivation. -/
def Derives {D : Type} (yield : D → List (Symbol α)) (l : List (Symbol α)) : Prop :=
  ∃ d, yield d = l

/-- Taking an exponent after a group. -/
def bareExponent (stop : Nat) (e : Expr α) : Reader α
  | [] => .ok (e, [])
  | t :: rest =>
    match t.symbol with
    | .caret => do
      let q ← bare (power stop rest)
      return (.bin .pow e q.1, q.2)
    | _ => .ok (e, t :: rest)

variable (stop : Nat)

/-- A power is a group with what may follow it. -/
theorem bare_power_eq (ts : List (Token α)) :
    bare (power stop ts) = bare (group stop ts) >>= fun q => bareExponent stop q.1 q.2 := by
  rw [bare_power]
  cases bare (group stop ts) with
  | error fault => rfl
  | ok q =>
      obtain ⟨e, rest⟩ := q
      cases rest with
      | nil => rfl
      | cons t rest => rfl

variable {stop}

/-- A closing bracket is looked for at one token. -/
theorem reads_close (b : Bracket) (o : Place) (e : Expr α) (ts : List (Token α)) :
    Reads (fun l => l = [b.closing]) (bareClose stop b o e) ts := by
  have hmore : [(b.closing : Symbol α)].filterMap Symbol.name? = [] := by cases b <;> rfl
  cases ts with
  | nil =>
      apply Reads.here [b.closing] hmore (P := fun l => l = [b.closing]) rfl
      intro us hus
      rw [hus.eq_nil]
      exact ⟨_, rfl, rfl⟩
  | cons t rest =>
      by_cases ht : Bracket.closedBy? t.symbol = some b
      · apply Reads.cons (fun us => .ok (e, us))
        · intro us
          rw [bareClose, if_pos ht]
        · exact .done (by rw [Bracket.closedBy?_eq_some.mp ht]) fun us _ => rfl
      · apply Reads.here [b.closing] hmore (P := fun l => l = [b.closing]) rfl
        intro us hus
        obtain ⟨u, us, rfl, hu⟩ := hus.eq_cons
        rw [bareClose, hu, if_neg ht]
        exact ⟨_, rfl, rfl⟩

/-- A number stands for an operand that is missing. -/
theorem reads_atom (v : α) (ts : List (Token α)) :
    Reads (Derives fun a : Atom α => [a.symbol]) (fun us => bare (atom stop us)) ts := by
  have hstuck (h : ∀ us, SameHead ts us → StopsAt us (bare (atom stop us))) :
      Reads (Derives fun a : Atom α => [a.symbol]) (fun us => bare (atom stop us)) ts :=
    .here [.number v] rfl ⟨.number v, rfl⟩ h
  cases ts with
  | nil =>
      apply hstuck
      intro us hus
      rw [hus.eq_nil]
      exact ⟨_, rfl, rfl⟩
  | cons t rest =>
      cases hs : t.symbol with
      | number w =>
          apply Reads.cons (fun us => .ok (.num w, us))
          · intro us
            simp [atom, hs, bare, Except.map]
          · exact .done ⟨.number w, by rw [hs]; rfl⟩ fun us _ => rfl
      | name x =>
          apply Reads.cons (fun us => .ok (.var x, us))
          · intro us
            simp [atom, hs, bare, Except.map]
          · exact .done ⟨.name x, by rw [hs]; rfl⟩ fun us _ => rfl
      | _ =>
          apply hstuck
          intro us hus
          obtain ⟨u, us, rfl, hu⟩ := hus.eq_cons
          rw [hs] at hu
          simp [StopsAt, atom, hu, bare, Except.map, Symbol.isCloser]

/-- Tokens after others are known words like these. -/
theorem wordsKnown_of_suffix {ts rest : List (Token α)} (hw : Formula.WordsKnown ts)
    (h : rest <:+ ts) : Formula.WordsKnown rest := fun t ht => hw t (h.subset ht)

/-- The part of a fraction in its brackets. -/
def partYield (s : Sum α) : List (Symbol α) := .openCurly :: (s.yield ++ [.closeCurly])

/-- What is inside a bracket, and the bracket that closes it. -/
theorem reads_inside (b : Bracket) (o : Place) {ts : List (Token α)}
    (h : Reads (Derives Sum.yield) (fun us => bare (sum stop us)) ts) :
    Reads (Derives fun s : Sum α => s.yield ++ [b.closing])
      (fun us => bare (sum stop us) >>= fun q => bareClose stop b o q.1 q.2) ts := by
  apply h.bind (bareClose stop b o)
  · intro l e rest _ _ hderived
    obtain ⟨s, rfl⟩ := hderived
    apply (reads_close b o e rest).imp
    intro l' hl'
    exact ⟨s, by rw [hl']⟩
  · intro l hderived
    obtain ⟨s, rfl⟩ := hderived
    exact ⟨[b.closing], by cases b <;> rfl, s, rfl⟩

mutual

/-- A sum is read from all tokens that agree, or stuck at the same place. -/
theorem reads_sum (v : α) (ts : List (Token α)) (hw : Formula.WordsKnown ts) :
    Reads (Derives Sum.yield) (fun us => bare (sum stop us)) ts := by
  refine Reads.congr ?_ fun us _ => bare_sum stop us
  apply (reads_product v ts hw).bind (fun e us => bare (sumTail stop e us))
  · intro l e rest hr hrest hderived
    obtain ⟨p, rfl⟩ := hderived
    have := bare_lt hr
    apply (reads_sumTail v e rest (wordsKnown_of_suffix hw hrest)).imp
    intro l' hderived
    obtain ⟨t, rfl⟩ := hderived
    exact ⟨⟨p, t⟩, by rw [Sum.yield]⟩
  · intro l hderived
    obtain ⟨p, rfl⟩ := hderived
    exact ⟨[], rfl, ⟨p, .nil⟩, by rw [Sum.yield, SumTail.yield]⟩
termination_by (ts.length, 5)

/-- Terms that follow are read from all tokens that agree, or stuck at the same place. -/
theorem reads_sumTail (v : α) (left : Expr α) (ts : List (Token α)) (hw : Formula.WordsKnown ts) :
    Reads (Derives SumTail.yield) (fun us => bare (sumTail stop left us)) ts := by
  have hnil : Derives SumTail.yield ([] : List (Symbol α)) := ⟨.nil, by rw [SumTail.yield]⟩
  match ts with
  | [] =>
      apply Reads.done hnil
      intro us hus
      rw [hus.eq_nil, bare_sumTail_nil]
  | t :: rest =>
      cases hs : additive? t.symbol with
      | none =>
          apply Reads.done hnil
          intro us hus
          obtain ⟨u, us, rfl, hu⟩ := hus.eq_cons
          rw [bare_sumTail_cons, hu, hs]
      | some op =>
          have hrest := wordsKnown_of_suffix hw (List.suffix_cons t rest)
          apply Reads.cons
          · intro us
            rw [bare_sumTail_cons, hs]
          apply (reads_product v rest hrest).bind
            (fun e us => bare (sumTail stop (.bin op left e) us))
          · intro l e rest' hr hrest' hderived
            obtain ⟨p, rfl⟩ := hderived
            have := bare_lt hr
            apply (reads_sumTail v (.bin op left e) rest' (wordsKnown_of_suffix hrest hrest')).imp
            intro l' hderived
            obtain ⟨t', rfl⟩ := hderived
            obtain ⟨sign, hsign, -⟩ := additive?_eq_some.mp hs
            exact ⟨.cons sign p t', by rw [SumTail.yield, hsign]⟩
          · intro l hderived
            obtain ⟨p, rfl⟩ := hderived
            obtain ⟨sign, hsign, -⟩ := additive?_eq_some.mp hs
            exact ⟨[], rfl, .cons sign p .nil, by
              rw [SumTail.yield, SumTail.yield, hsign]⟩
termination_by (ts.length, 0)

/-- A product is read from all tokens that agree, or stuck at the same place. -/
theorem reads_product (v : α) (ts : List (Token α)) (hw : Formula.WordsKnown ts) :
    Reads (Derives Product.yield) (fun us => bare (product stop us)) ts := by
  refine Reads.congr ?_ fun us _ => bare_product stop us
  apply (reads_unary v ts hw).bind (fun e us => bare (productTail stop e us))
  · intro l e rest hr hrest hderived
    obtain ⟨u, rfl⟩ := hderived
    have := bare_lt hr
    apply (reads_productTail v e rest (wordsKnown_of_suffix hw hrest)).imp
    intro l' hderived
    obtain ⟨t, rfl⟩ := hderived
    exact ⟨⟨u, t⟩, by rw [Product.yield]⟩
  · intro l hderived
    obtain ⟨u, rfl⟩ := hderived
    exact ⟨[], rfl, ⟨u, .nil⟩, by rw [Product.yield, ProductTail.yield]⟩
termination_by (ts.length, 4)

/-- Factors that follow are read from all tokens that agree, or stuck at the same place. -/
theorem reads_productTail (v : α) (left : Expr α) (ts : List (Token α)) (hw : Formula.WordsKnown ts) :
    Reads (Derives ProductTail.yield) (fun us => bare (productTail stop left us)) ts := by
  have hnil : Derives ProductTail.yield ([] : List (Symbol α)) :=
    ⟨.nil, by rw [ProductTail.yield]⟩
  match ts with
  | [] =>
      apply Reads.done hnil
      intro us hus
      rw [hus.eq_nil, bare_productTail_nil]
  | t :: rest =>
      cases hs : t.symbol with
      | dot =>
          have hrest := wordsKnown_of_suffix hw (List.suffix_cons t rest)
          apply Reads.cons
          · intro us
            rw [bare_productTail_cons, hs]
          apply (reads_unary v rest hrest).bind
            (fun e us => bare (productTail stop (.bin .mul left e) us))
          · intro l e rest' hr hrest' hderived
            obtain ⟨u, rfl⟩ := hderived
            have := bare_lt hr
            apply (reads_productTail v (.bin .mul left e) rest'
              (wordsKnown_of_suffix hrest hrest')).imp
            intro l' hderived
            obtain ⟨t', rfl⟩ := hderived
            exact ⟨.cons u t', by rw [ProductTail.yield, hs]⟩
          · intro l hderived
            obtain ⟨u, rfl⟩ := hderived
            exact ⟨[], rfl, .cons u .nil, by
              rw [ProductTail.yield, ProductTail.yield, hs]⟩
      | _ =>
          apply Reads.done hnil
          intro us hus
          obtain ⟨u, us, rfl, hu⟩ := hus.eq_cons
          rw [bare_productTail_cons, hu, hs]
termination_by (ts.length, 0)

/-- A factor is read from all tokens that agree, or stuck at the same place. -/
theorem reads_unary (v : α) (ts : List (Token α)) (hw : Formula.WordsKnown ts) :
    Reads (Derives Unary.yield) (fun us => bare (unary stop us)) ts := by
  have hpower : Reads (Derives Unary.yield) (fun us => bare (power stop us)) ts := by
    apply (reads_power v ts hw).imp
    intro l hderived
    obtain ⟨p, rfl⟩ := hderived
    exact ⟨.fraction (.power p), by rw [Unary.yield, Fraction.yield]⟩
  match ts with
  | [] =>
      apply hpower.congr
      intro us hus
      rw [hus.eq_nil, bare_unary_nil]
  | t :: rest =>
      have hrest := wordsKnown_of_suffix hw (List.suffix_cons t rest)
      cases hs : t.symbol with
      | minus =>
          apply Reads.cons
          · intro us
            rw [bare_unary_cons, hs]
          apply (reads_unary v rest hrest).bind (fun e us => .ok (.neg e, us))
          · intro l e rest' _ _ hderived
            obtain ⟨u, rfl⟩ := hderived
            exact .done ⟨.negation u, by rw [Unary.yield, hs, List.append_nil]⟩ fun us _ => rfl
          · intro l hderived
            obtain ⟨u, rfl⟩ := hderived
            exact ⟨[], rfl, .negation u, by rw [Unary.yield, hs, List.append_nil]⟩
      | function name =>
          obtain ⟨f, rfl⟩ := hw t List.mem_cons_self name hs
          have hname : Fn.ofName? f.name = some f := ofName?_eq_some.mpr rfl
          apply Reads.cons fun us => bare (unary stop us) >>= fun q => .ok (.app f q.1, q.2)
          · intro us
            rw [bare_unary_cons, hs]
            simp only [hname]
            rfl
          apply (reads_unary v rest hrest).bind (fun e us => .ok (.app f e, us))
          · intro l e rest' _ _ hderived
            obtain ⟨u, rfl⟩ := hderived
            exact .done ⟨.function f u, by rw [Unary.yield, hs, List.append_nil]⟩ fun us _ => rfl
          · intro l hderived
            obtain ⟨u, rfl⟩ := hderived
            exact ⟨[], rfl, .function f u, by rw [Unary.yield, hs, List.append_nil]⟩
      | fraction =>
          apply Reads.cons
          · intro us
            rw [bare_unary_cons, hs]
          apply (reads_fractionPart v rest hrest).bind (fun e us =>
            bare (fractionPart stop us) >>= fun q => .ok (.bin .div e q.1, q.2))
          · intro l e rest' hr hrest' hderived
            obtain ⟨a, rfl⟩ := hderived
            have := bare_lt hr
            apply (reads_fractionPart v rest' (wordsKnown_of_suffix hrest hrest')).bind
              (fun e' us => .ok (.bin .div e e', us))
            · intro l e rest' _ _ hderived
              obtain ⟨b, rfl⟩ := hderived
              exact .done ⟨.fraction (.parts a b), by
                simp [Unary.yield, Fraction.yield, partYield, hs]⟩ fun us _ => rfl
            · intro l hderived
              obtain ⟨b, rfl⟩ := hderived
              exact ⟨[], rfl, .fraction (.parts a b), by
                simp [Unary.yield, Fraction.yield, partYield, hs]⟩
          · intro l hderived
            obtain ⟨a, rfl⟩ := hderived
            have hb : (Sum.mk ⟨.fraction (.power (.base (.atom (.number v)))), .nil⟩ .nil).yield =
                [.number v] := rfl
            exact ⟨[.openCurly, .number v, .closeCurly], rfl, .fraction (.parts a _), by
              rw [Unary.yield, Fraction.yield, hb, hs]
              simp [partYield]⟩
      | _ =>
          apply hpower.congr
          intro us hus
          obtain ⟨u, us, rfl, hu⟩ := hus.eq_cons
          rw [bare_unary_cons, hu, hs]
termination_by (ts.length, 3)

/-- A part of a fraction is read from all tokens that agree, or stuck at the same place. -/
theorem reads_fractionPart (v : α) (ts : List (Token α)) (hw : Formula.WordsKnown ts) :
    Reads (Derives partYield) (fun us => bare (fractionPart stop us)) ts := by
  have hstuck (h : ∀ us, SameHead ts us → StopsAt us (bare (fractionPart stop us))) :
      Reads (Derives partYield) (fun us => bare (fractionPart stop us)) ts :=
    .here [.openCurly, .number v, .closeCurly] rfl
      ⟨⟨⟨.fraction (.power (.base (.atom (.number v)))), .nil⟩, .nil⟩, rfl⟩ h
  match ts with
  | [] =>
      apply hstuck
      intro us hus
      rw [hus.eq_nil, bare_fractionPart_nil]
      exact ⟨_, rfl, rfl⟩
  | t :: rest =>
      cases hs : t.symbol with
      | openCurly =>
          apply Reads.cons
          · intro us
            rw [bare_fractionPart_cons, hs]
          have hrest := wordsKnown_of_suffix hw (List.suffix_cons t rest)
          apply (reads_inside .curly (.ofToken t) (reads_sum v rest hrest)).imp
          intro l hderived
          obtain ⟨s, rfl⟩ := hderived
          exact ⟨s, by rw [hs, partYield]; rfl⟩
      | _ =>
          apply hstuck
          intro us hus
          obtain ⟨u, us, rfl, hu⟩ := hus.eq_cons
          rw [bare_fractionPart_cons, hu, hs]
          exact ⟨_, rfl, rfl⟩
termination_by (ts.length, 0)

/-- A power is read from all tokens that agree, or stuck at the same place. -/
theorem reads_power (v : α) (ts : List (Token α)) (hw : Formula.WordsKnown ts) :
    Reads (Derives Power.yield) (fun us => bare (power stop us)) ts := by
  refine Reads.congr ?_ fun us _ => bare_power_eq stop us
  apply (reads_group v ts hw).bind (bareExponent stop)
  · intro l e rest hr hrest hderived
    obtain ⟨g, rfl⟩ := hderived
    have hbase : Derives Power.yield (g.yield ++ []) :=
      ⟨.base g, by rw [Power.yield, List.append_nil]⟩
    have := bare_lt hr
    match rest with
    | [] =>
        apply Reads.done hbase
        intro us hus
        rw [hus.eq_nil, bareExponent]
    | t :: rest' =>
        have hlt : rest'.length < ts.length := by
          rw [List.length_cons] at this
          omega
        cases hs : t.symbol with
        | caret =>
            apply Reads.cons
            · intro us
              rw [bareExponent, hs]
            have hrest' := wordsKnown_of_suffix hw ((List.suffix_cons t rest').trans hrest)
            apply (reads_power v rest' hrest').bind (fun e' us => .ok (.bin .pow e e', us))
            · intro l e rest _ _ hderived
              obtain ⟨p, rfl⟩ := hderived
              exact .done ⟨.exponent g p, by rw [Power.yield, hs, List.append_nil]⟩ fun us _ => rfl
            · intro l hderived
              obtain ⟨p, rfl⟩ := hderived
              exact ⟨[], rfl, .exponent g p, by rw [Power.yield, hs, List.append_nil]⟩
        | _ =>
            apply Reads.done hbase
            intro us hus
            obtain ⟨u, us, rfl, hu⟩ := hus.eq_cons
            rw [bareExponent, hu, hs]
  · intro l hderived
    obtain ⟨g, rfl⟩ := hderived
    exact ⟨[], rfl, .base g, by rw [Power.yield, List.append_nil]⟩
termination_by (ts.length, 2)

/-- A group is read from all tokens that agree, or stuck at the same place. -/
theorem reads_group (v : α) (ts : List (Token α)) (hw : Formula.WordsKnown ts) :
    Reads (Derives Grammar.Group.yield) (fun us => bare (group stop us)) ts := by
  have hatom : Reads (Derives Grammar.Group.yield) (fun us => bare (atom stop us)) ts := by
    apply (reads_atom v ts).imp
    intro l hderived
    obtain ⟨a, rfl⟩ := hderived
    exact ⟨.atom a, by rw [Group.yield]⟩
  match ts with
  | [] =>
      apply hatom.congr
      intro us hus
      rw [hus.eq_nil, bare_group_nil]
  | t :: rest =>
      cases hb : Bracket.openedBy? t.symbol with
      | none =>
          apply hatom.congr
          intro us hus
          obtain ⟨u, us, rfl, hu⟩ := hus.eq_cons
          rw [bare_group_cons, hu, hb]
      | some b =>
          apply Reads.cons
          · intro us
            rw [bare_group_cons, hb]
          have hrest := wordsKnown_of_suffix hw (List.suffix_cons t rest)
          apply (reads_inside b (.ofToken t) (reads_sum v rest hrest)).imp
          intro l hderived
          obtain ⟨s, rfl⟩ := hderived
          exact ⟨.bracket b s, by rw [Group.yield, Bracket.openedBy?_eq_some.mp hb]⟩
termination_by (ts.length, 1)

end

end Phrase

/-! ## lists of symbols with their end -/

/-- Symbols and the mark of their end. -/
def closed (l : List (Symbol α)) : List (Option (Symbol α)) := l.map some ++ [none]

/-- Symbols, perhaps with their end, that are the beginning of a sum. -/
def Viable (l : List (Option (Symbol α))) : Prop := ∃ d : Grammar.Sum α, l <+: closed d.yield

theorem closed_cons (s : Symbol α) (l : List (Symbol α)) : closed (s :: l) = some s :: closed l :=
  rfl

/-- Symbols begin a closed row exactly if they begin the row. -/
theorem prefix_closed {l m : List (Symbol α)} : l.map some <+: closed m ↔ l <+: m := by
  induction l generalizing m with
  | nil => simp
  | cons s l ih =>
      cases m with
      | nil => simp [closed]
      | cons s' m => rw [closed_cons, List.map_cons, List.cons_prefix_cons, List.cons_prefix_cons,
          ih, Option.some_inj]

/-- A closed row begins another one only if it is the same. -/
theorem closed_prefix_closed {l m : List (Symbol α)} : closed l <+: closed m ↔ l = m := by
  induction l generalizing m with
  | nil => cases m <;> simp [closed]
  | cons s l ih =>
      cases m with
      | nil => simp [closed]
      | cons s' m => rw [closed_cons, closed_cons, List.cons_prefix_cons, ih, Option.some_inj,
          List.cons.injEq]

/-- What begins the symbols of a sum can be completed. -/
theorem viable_of_prefix {l : List (Symbol α)} {d : Grammar.Sum α} (h : l <+: d.yield) {k : Nat}
    (hk : k ≤ l.length) : Viable ((closed l).take k) := by
  have htake : (closed l).take k = (l.take k).map some := by
    rw [closed, List.take_append_of_le_length (by rwa [List.length_map]), List.map_take]
  exact ⟨d, by rw [htake]; exact prefix_closed.mpr ((List.take_prefix k l).trans h)⟩

/-! ## where the reading of all tokens stops -/

open Phrase (SameHead StopsAt bare)

/-- Tokens of given symbols. -/
def tokensOf (l : List (Symbol α)) : List (Token α) := l.map fun s => ⟨s, "", 0⟩

@[simp] theorem symbols_tokensOf (l : List (Symbol α)) : symbols (tokensOf l) = l := by
  simp [symbols, tokensOf, Function.comp_def]

/-- If tokens are no expression, those before the fault can be completed to one, by something
without names, and no tokens that agree with them up to the next symbol are one. -/
theorem Expr.ofTokens_stuck (v : α) {ts : Tokens α} (hw : Formula.WordsKnown ts.tokens)
    {fault : GrammarFault} (h : Expr.ofTokens ts = .error fault) :
    ∃ before left more, ts.tokens = before ++ left ∧ fault.unread = left.length ∧
      more.filterMap Symbol.name? = [] ∧ (∃ d : Grammar.Sum α, d.yield = symbols before ++ more) ∧
      ∀ us, SameHead left us → ∀ e, Expr.ofTokens ⟨before ++ us, ts.stop⟩ ≠ .ok e := by
  obtain ⟨ts, stop⟩ := ts
  rw [Expr.ofTokens_eq] at h
  have hreads : Phrase.Reads _ (fun us => bare (Phrase.sum stop us)) ts :=
    Phrase.reads_sum v ts hw
  cases hreads with
  | stuck before more hmore hP hstop =>
      rename_i left
      obtain ⟨fault', hfault, hunread⟩ := hstop left (.refl left)
      simp only [hfault, Except.error.injEq] at h
      obtain rfl := h
      refine ⟨before, left, more, rfl, hunread, hmore, hP, ?_⟩
      intro us hus e he
      obtain ⟨fault', hfault, -⟩ := hstop us hus
      rw [Expr.ofTokens_eq] at he
      simp only [hfault, reduceCtorEq] at he
  | phrase taken hP hread =>
      rename_i rest e
      have hrest := hread rest (.refl rest)
      cases rest with
      | nil => simp only [hrest, reduceCtorEq] at h
      | cons t rest =>
          have hunread : fault.unread = (t :: rest).length := by
            simp only [hrest] at h
            split at h <;> exact (congrArg GrammarFault.unread (Except.error.inj h)).symm
          obtain ⟨d, hd⟩ := hP
          refine ⟨taken, t :: rest, [], rfl, hunread, rfl, ⟨d, by rw [hd, List.append_nil]⟩, ?_⟩
          intro us hus e' he'
          obtain ⟨u, us, rfl, -⟩ := hus.eq_cons
          rw [Expr.ofTokens_eq] at he'
          simp only [hread _ hus] at he'
          split at he' <;> exact nomatch he'

/-- No sum begins with tokens up to the one, or the end, where the reading of them stops. -/
theorem not_viable_of_stuck {before left : List (Token α)} {stop : Nat}
    (h : ∀ us, SameHead left us → ∀ e, Expr.ofTokens ⟨before ++ us, stop⟩ ≠ .ok e) :
    ¬Viable ((closed (symbols (before ++ left))).take (before.length + 1)) := by
  intro ⟨d, hd⟩
  have hnone (us : List (Token α)) (hus : SameHead left us) : d.yield ≠ symbols (before ++ us) :=
    fun hyield => h us hus d.denote (Expr.ofTokens_of_derivation hyield)
  cases left with
  | nil =>
      have hall : (closed (symbols (before ++ []))).take (before.length + 1) =
          closed (symbols before) := by
        rw [List.append_nil, List.take_of_length_le]
        simp [closed, symbols]
      rw [hall, closed_prefix_closed] at hd
      exact hnone [] (.refl []) (by rw [List.append_nil, hd])
  | cons t rest =>
      have hsplit : closed (symbols (before ++ t :: rest)) =
          (symbols before ++ [t.symbol]).map some ++ closed (symbols rest) := by
        simp [closed, symbols_append]
      have hlen : ((symbols before ++ [t.symbol]).map some).length = before.length + 1 := by
        simp [symbols]
      rw [hsplit, List.take_left' hlen, prefix_closed] at hd
      obtain ⟨l, hl⟩ := hd
      apply hnone (t :: tokensOf l) rfl
      rw [← hl, symbols_append, symbols_cons, symbols_tokensOf]
      simp

namespace Formula

/-! ## the first name too many -/

/-- A name is refused if it is new and the table is full. -/
theorem add_error {names : Names} {x : String} {e : NamesFull} (h : names.add x = .error e) :
    x ∉ names ∧ maxNames ≤ names.length := by
  unfold Names.add at h
  split at h
  · exact nomatch h
  · rename_i hx
    split at h
    · rename_i hfull
      exact ⟨fun hmem => hx (List.contains_iff_mem.mpr hmem), hfull⟩
    · exact nomatch h

/-- The name that is refused is the first one that finds the table full and is not in it. -/
theorem namesOf_eq_error {ts : List (Token α)} {names : Names} {e : ReadError} (hn : names.Nodup)
    (hle : names.length ≤ maxNames) (h : namesOf names ts = .error e) :
    ∃ before t after x, ts = before ++ t :: after ∧ t.symbol = .name x ∧
      e = .namesFull ⟨⟩ t.text t.pos ∧ x ∉ names.toFinset ∪ distinctNames before ∧
      (names.toFinset ∪ distinctNames before).card = maxNames := by
  induction ts generalizing names with
  | nil => exact nomatch h
  | cons t ts ih =>
      cases hname : t.symbol.name? with
      | none =>
          rw [namesOf_of_other hname] at h
          obtain ⟨before, u, after, x, rfl, hu, he, hx, hcard⟩ := ih hn hle h
          rw [← distinctNames_of_other hname before] at hx hcard
          exact ⟨t :: before, u, after, x, rfl, hu, he, hx, hcard⟩
      | some x =>
          have hs : t.symbol = .name x := Symbol.name?_eq_some.mp hname
          have hadd := add_spec x hn hle
          rw [namesOf, hs] at h
          cases hr : names.add x with
          | error e' =>
              simp only [hr, Except.error.injEq] at h
              obtain ⟨hx, hfull⟩ := add_error hr
              have hempty : names.toFinset ∪ distinctNames ([] : List (Token α)) =
                  names.toFinset := Finset.union_empty _
              refine ⟨[], t, ts, x, rfl, hs, h.symm, ?_, ?_⟩
              · rw [hempty, List.mem_toFinset]
                exact hx
              · rw [hempty, List.toFinset_card_of_nodup hn]
                exact Nat.le_antisymm hle hfull
          | ok names' =>
              simp only [hr] at h hadd
              obtain ⟨hn', hle', hset⟩ := hadd
              obtain ⟨before, u, after, y, rfl, hu, he, hy, hcard⟩ := ih hn' hle' h
              have hunion : names'.toFinset ∪ distinctNames before =
                  names.toFinset ∪ distinctNames (t :: before) := by
                rw [hset, distinctNames_of_name hs, Finset.insert_union, Finset.union_insert]
              rw [hunion] at hy hcard
              exact ⟨t :: before, u, after, y, rfl, hu, he, hy, hcard⟩

end Formula

/-! ## where a mistake is reported -/

/-- The positions of all tokens, with the end. -/
def Tokens.positions (ts : Tokens α) : List Nat := ts.tokens.map (·.pos) ++ [ts.stop]

/-- The place behind some tokens is that of the next one, or the end. -/
theorem Tokens.positions_getElem? {ts : Tokens α} {before left : List (Token α)}
    (h : ts.tokens = before ++ left) :
    ts.positions[before.length]? = some (Place.first ts.stop left).pos := by
  have hplaces : ts.positions = ts.places.map Place.pos := by
    simp [Tokens.positions, Tokens.places, Place.ofToken]
  have hcurrent : ts.current? left.length = some (Place.first ts.stop left) :=
    Tokens.current?_of_suffix ⟨before, h.symm⟩
  have hbefore : ts.tokens.length - left.length = before.length := by
    rw [h, List.length_append, Nat.add_sub_cancel]
  rw [Tokens.current?, hbefore] at hcurrent
  rw [hplaces, List.getElem?_map, hcurrent]
  rfl

/-- The position that an error reports, unless it is about the name of a function. -/
def ReadError.pos? : ReadError → Option Nat
  | lexical e => some e.pos
  | grammar e => e.found?.map Place.pos
  | namesFull _ _ pos => some pos

namespace Formula

/-- The tokens before number `k` go on as a formula, and no sum begins like those up to number `k`,
or like all of them and the end. -/
structure FirstFault (ts : Tokens α) (k : Nat) : Prop where
  continues : ∃ d : Grammar.Sum α, (symbols ts.tokens).take k <+: d.yield ∧
    (d.yield.filterMap Symbol.name?).toFinset.card ≤ maxNames
  blocked : ¬Viable ((closed (symbols ts.tokens)).take (k + 1))

/-- Token number `k` is the first one with a name for which there is no place, and up to it the
tokens are the beginning of a sum. -/
structure FirstNameTooMany (ts : Tokens α) (k : Nat) : Prop where
  name : ∃ x, (symbols ts.tokens)[k]? = some (.name x) ∧ x ∉ distinctNames (ts.tokens.take k)
  full : (distinctNames (ts.tokens.take k)).card = maxNames
  viable : Viable ((closed (symbols ts.tokens)).take (k + 1))

/-- Where reading is stuck for all that agrees, there is the first fault. -/
theorem firstFault_of_stuck {ts : Tokens α} {before left : List (Token α)} {more : List (Symbol α)}
    (hts : ts.tokens = before ++ left) (hmore : more.filterMap Symbol.name? = [])
    (hd : ∃ d : Grammar.Sum α, d.yield = symbols before ++ more)
    (hstuck : ∀ us, SameHead left us → ∀ e, Expr.ofTokens ⟨before ++ us, ts.stop⟩ ≠ .ok e)
    (hnames : ∃ names, namesOf [] before = .ok names) : FirstFault ts before.length := by
  obtain ⟨d, hd⟩ := hd
  have hdistinct : (d.yield.filterMap Symbol.name?).toFinset = distinctNames before := by
    rw [hd, List.filterMap_append, hmore, List.append_nil, distinctNames]
  constructor
  · refine ⟨d, ?_, ?_⟩
    · rw [hts, symbols_append, hd, List.take_left' (by rw [symbols, List.length_map])]
      exact List.prefix_append _ _
    · rw [hdistinct]
      exact (namesOf_isOk_iff before).mp hnames
  · rw [hts]
    exact not_viable_of_stuck hstuck

/-- A full table is reported at the first name too many. -/
theorem firstNameTooMany_of_namesOf {ts : Tokens α} {us : List (Token α)} (more : List (Token α))
    {e : ReadError} (hts : ts.tokens = us ++ more) (hd : ∃ d : Grammar.Sum α, symbols us <+: d.yield)
    (h : namesOf [] us = .error e) :
    ∃ k p, FirstNameTooMany ts k ∧ e.pos? = some p ∧ ts.positions[k]? = some p ∧
      (Failure.ofRead e).kind = .tooManyVariables := by
  obtain ⟨before, t, after, x, rfl, ht, rfl, hx, hcard⟩ :=
    namesOf_eq_error List.nodup_nil (Nat.zero_le _) h
  rw [List.toFinset_nil, Finset.empty_union] at hx hcard
  have hsplit : ts.tokens = before ++ t :: (after ++ more) := by
    rw [hts, List.append_assoc, List.cons_append]
  obtain ⟨d, hd⟩ := hd
  refine ⟨before.length, t.pos, ⟨⟨x, ?_, ?_⟩, ?_, ?_⟩, rfl, Tokens.positions_getElem? hsplit, rfl⟩
  · simp [hsplit, symbols, ht]
  · rwa [hsplit, List.take_left]
  · rwa [hsplit, List.take_left]
  · have hle : before.length + 1 ≤ (symbols (before ++ t :: after)).length := by
      simp [symbols]
    have htake : (closed (symbols ts.tokens)).take (before.length + 1) =
        (closed (symbols (before ++ t :: after))).take (before.length + 1) := by
      simp only [hts, closed, symbols_append, List.map_append, List.append_assoc, symbols_cons,
        List.map_cons, List.cons_append]
      rw [List.take_append, List.take_append]
      simp [symbols]
    rw [htake]
    exact viable_of_prefix hd hle

/-- The token, or the end, at which tokens are refused. -/
theorem ofTokens_error_first (v : α) {ts : Tokens α} (hw : WordsKnown ts.tokens) {e : ReadError}
    (h : ofTokens ts = .error e) :
    ∃ k p, e.pos? = some p ∧ ts.positions[k]? = some p ∧
      ((Failure.ofRead e).kind ∈ [.grouping, .trailingInput, .unexpectedToken] ∧ FirstFault ts k ∨
        (Failure.ofRead e).kind = .tooManyVariables ∧ FirstNameTooMany ts k) := by
  cases hr : Expr.ofTokens ts with
  | ok root =>
      rw [ofTokens_of_expr hr] at h
      obtain ⟨d, hd, -⟩ := Expr.ofTokens_eq_ok.mp hr
      cases hn : namesOf [] ts.tokens with
      | ok names =>
          rw [hn] at h
          cases h
      | error e' =>
          rw [hn] at h
          obtain rfl := Except.error.inj h
          obtain ⟨k, p, hk, hpos, hp, hkind⟩ := firstNameTooMany_of_namesOf []
            (List.append_nil _).symm ⟨d, by rw [hd]⟩ hn
          exact ⟨k, p, hpos, hp, .inr ⟨hkind, hk⟩⟩
  | error fault =>
      rw [ofTokens_of_fault hr] at h
      obtain ⟨before, left, more, hts, hunread, hmore, ⟨d, hd⟩, hstuck⟩ :=
        Expr.ofTokens_stuck v hw hr
      have htake : ts.tokens.take (ts.tokens.length - fault.unread) = before := by
        rw [hts, hunread, List.length_append, Nat.add_sub_cancel, List.take_left]
      rw [htake] at h
      cases hn : namesOf [] before with
      | error e' =>
          rw [hn] at h
          obtain rfl := Except.error.inj h
          obtain ⟨k, p, hk, hpos, hp, hkind⟩ := firstNameTooMany_of_namesOf left hts
            ⟨d, by rw [hd]; exact List.prefix_append _ _⟩ hn
          exact ⟨k, p, hpos, hp, .inr ⟨hkind, hk⟩⟩
      | ok names =>
          rw [hn] at h
          obtain rfl := Except.error.inj h
          cases Expr.foundIn_of_ofTokens hr with
          | @place left' e hleft hfound =>
              obtain rfl : left' = left :=
                (List.suffix_of_suffix_length_le hleft ⟨before, hts.symm⟩ hunread.le).eq_of_length
                  hunread
              have hfirst : FirstFault ts before.length :=
                firstFault_of_stuck hts hmore ⟨d, hd⟩ hstuck ⟨names, hn⟩
              refine ⟨before.length, _, ?_, Tokens.positions_getElem? hts, .inl ⟨?_, hfirst⟩⟩
              · rw [ReadError.pos?, hfound]
                rfl
              · cases e with
                | noFunction name => cases hfound
                | _ => simp [Failure.ofRead]
          | word hleft ht hsymbol hname =>
              obtain ⟨f, rfl⟩ := hw _ ht _ hsymbol
              rw [Phrase.ofName?_eq_some.mpr rfl] at hname
              cases hname

/-- **A mistake is reported where it is.**  If the tokens of a text are no formula, the position is
that of a token or of the end.  For a mistake in the grammar, the tokens before it are the beginning
of a formula, and those up to it the beginning of none.  For too many names, it is the first token
with one name more than there is place for, and the tokens up to it are the beginning of a sum. -/
theorem read_error_first [Arith α] {text : String} {ts : Tokens α}
    (htext : tokenize text.toList = .ok ts) (hw : WordsKnown ts.tokens) {e : ReadError}
    (h : (read text : Except ReadError (Formula α)) = .error e) :
    ∃ k p, e.pos? = some p ∧ ts.positions[k]? = some p ∧
      ((Failure.ofRead e).kind ∈ [.grouping, .trailingInput, .unexpectedToken] ∧ FirstFault ts k ∨
        (Failure.ofRead e).kind = .tooManyVariables ∧ FirstNameTooMany ts k) := by
  unfold read at h
  rw [htext] at h
  exact ofTokens_error_first Arith.zero hw h

/-- The tokens of `\frac{x+}{y}`. -/
def openSumTokens : Tokens Float where
  tokens := [⟨.fraction, "\\frac", 0⟩, ⟨.openCurly, "\x7b", 5⟩, ⟨.name "x", "x", 6⟩,
    ⟨.plus, "+", 7⟩, ⟨.closeCurly, "\x7d", 8⟩, ⟨.openCurly, "\x7b", 9⟩, ⟨.name "y", "y", 10⟩,
    ⟨.closeCurly, "\x7d", 11⟩]
  stop := 12

/-- The first bracket that closes stands where a product is missing. -/
theorem read_openSum :
    ∃ e : ReadError, read (α := Float) "\\frac\x7bx+\x7d\x7by\x7d" = .error e ∧ e.pos? = some 8 ∧
      FirstFault openSumTokens 4 := by
  have htext : tokenize (α := Float) "\\frac\x7bx+\x7d\x7by\x7d".toList = .ok openSumTokens := by
    cbv
  have hread : read (α := Float) "\\frac\x7bx+\x7d\x7by\x7d" =
      .error (.grammar (.unmatched ⟨some "\x7d", 8⟩)) := by cbv
  have hw : WordsKnown openSumTokens.tokens := by
    intro t ht name hs
    simp only [openSumTokens, List.mem_cons, List.not_mem_nil, or_false] at ht
    obtain rfl | rfl | rfl | rfl | rfl | rfl | rfl | rfl := ht
    all_goals cases hs
  have hfour : ∀ k < openSumTokens.positions.length, openSumTokens.positions[k]? = some 8 → k = 4 := by
    decide
  obtain ⟨k, p, hpos, hp, hcases⟩ := read_error_first htext hw hread
  obtain rfl := Option.some.inj hpos
  obtain rfl := hfour k (List.getElem?_eq_some_iff.mp hp).1 hp
  obtain ⟨-, hfirst⟩ | ⟨hkind, -⟩ := hcases
  · exact ⟨_, hread, rfl, hfirst⟩
  · cases hkind

end Formula

end Fluxion

import Fluxion.Proofs.Formula.Grammar

/-!
# Fluxion.Proofs.Formula.Phrase

The rules that read tokens, against the grammar.
-/

namespace Fluxion

/-- The token at which a mistake in the grammar was found. -/
def GrammarError.found? : GrammarError → Option Place
  | unmatched p | unclosed _ _ p | trailing p | noBracket _ p | noOperand p => some p
  | noFunction _ => none

namespace Phrase

variable {α : Type}

/-! ## the rules without their proofs -/

/-- A phrase read without the proof that it is shorter. -/
def bare {n : Nat} (r : Except GrammarFault (Phrase α n)) :
    Except GrammarFault (Expr α × List (Token α)) := r.map fun p => (p.expr, p.rest)

/-- Closing a group. -/
def bareClose (stop : Nat) (bracket : Bracket) (opening : Place) (e : Expr α) :
    List (Token α) → Except GrammarFault (Expr α × List (Token α))
  | t :: rest =>
    if Bracket.closedBy? t.symbol = some bracket then .ok (e, rest)
    else .error ⟨.unclosed bracket opening (.ofToken t), (t :: rest).length⟩
  | [] => .error ⟨.unclosed bracket opening ⟨none, stop⟩, 0⟩

/-- A symbol is an operation of sums exactly if it is that of a sign. -/
theorem additive?_eq_some {s : Symbol α} {op : BinOp} :
    additive? s = some op ↔ ∃ sign : Grammar.Sign, s = sign.symbol ∧ sign.op = op := by
  constructor
  · intro h
    cases s <;> simp only [additive?, reduceCtorEq, Option.some.injEq] at h
    · exact ⟨.plus, rfl, h⟩
    · exact ⟨.minus, rfl, h⟩
  · intro hderived
    obtain ⟨sign, rfl, rfl⟩ := hderived
    cases sign <;> rfl

/-- A name is that of a function exactly if the function bears it. -/
theorem ofName?_eq_some {name : String} {f : Fn} : Fn.ofName? name = some f ↔ name = f.name := by
  constructor
  · intro h
    have hname := List.find?_some (p := fun f : Fn => f.name == name) h
    exact (eq_of_beq hname).symm
  · intro hderived
    obtain rfl := hderived
    cases f <;> rfl

variable (stop : Nat)

/-- A closing bracket is looked for behind a phrase. -/
theorem bare_close {n : Nat} (b : Bracket) (o : Place) (p : Phrase α n) :
    bare (close stop b o p) = bareClose stop b o p.expr p.rest := by
  obtain ⟨e, rest, hlt⟩ := p
  cases rest with
  | nil => rfl
  | cons t rest =>
      by_cases h : Bracket.closedBy? t.symbol = some b
      · simp [close, bareClose, h, bare, Except.map]
      · simp [close, bareClose, h, bare, Except.map]

/-- A sum is a product and the terms that follow it. -/
theorem bare_sum (ts : List (Token α)) :
    bare (sum stop ts) = (do
      let q ← bare (product stop ts)
      bare (sumTail stop q.1 q.2)) := by
  rw [sum]
  cases product stop ts with
  | error e => rfl
  | ok p =>
      simp only [bare, Except.map, bind, Except.bind]
      cases sumTail stop p.expr p.rest with
      | error e => rfl
      | ok q => rfl

theorem bare_sumTail_nil (left : Expr α) : bare (sumTail stop left []) = .ok (left, []) := by
  rw [sumTail]
  rfl

/-- Terms follow if the next symbol is a sign. -/
theorem bare_sumTail_cons (left : Expr α) (t : Token α) (rest : List (Token α)) :
    bare (sumTail stop left (t :: rest)) =
      match additive? t.symbol with
      | some op => do
        let q ← bare (product stop rest)
        bare (sumTail stop (.bin op left q.1) q.2)
      | none => .ok (left, t :: rest) := by
  rw [sumTail]
  cases additive? t.symbol with
  | none => rfl
  | some op =>
      cases product stop rest with
      | error e => rfl
      | ok p =>
          simp only [bare, Except.map, bind, Except.bind]
          cases sumTail stop (.bin op left p.expr) p.rest with
          | error e => rfl
          | ok q => rfl

/-- A product is a factor and the factors that follow it. -/
theorem bare_product (ts : List (Token α)) :
    bare (product stop ts) = (do
      let q ← bare (unary stop ts)
      bare (productTail stop q.1 q.2)) := by
  rw [product]
  cases unary stop ts with
  | error e => rfl
  | ok p =>
      simp only [bare, Except.map, bind, Except.bind]
      cases productTail stop p.expr p.rest with
      | error e => rfl
      | ok q => rfl

theorem bare_productTail_nil (left : Expr α) :
    bare (productTail stop left []) = .ok (left, []) := by
  rw [productTail]
  rfl

/-- Factors follow if the next symbol is a dot. -/
theorem bare_productTail_cons (left : Expr α) (t : Token α) (rest : List (Token α)) :
    bare (productTail stop left (t :: rest)) =
      match t.symbol with
      | .dot => do
        let q ← bare (unary stop rest)
        bare (productTail stop (.bin .mul left q.1) q.2)
      | _ => .ok (left, t :: rest) := by
  rw [productTail]
  cases t.symbol with
  | dot =>
      cases unary stop rest with
      | error e => rfl
      | ok p =>
          simp only [bare, Except.map, bind, Except.bind]
          cases productTail stop (.bin .mul left p.expr) p.rest with
          | error e => rfl
          | ok q => rfl
  | _ => rfl

theorem bare_unary_nil : bare (unary stop ([] : List (Token α))) = bare (power stop []) := by
  rw [unary]

/-- The first symbol tells a negation, a function and a fraction from a power. -/
theorem bare_unary_cons (t : Token α) (rest : List (Token α)) :
    bare (unary stop (t :: rest)) =
      match t.symbol with
      | .minus => do
        let q ← bare (unary stop rest)
        return (.neg q.1, q.2)
      | .function name => do
        let q ← bare (unary stop rest)
        match Fn.ofName? name with
        | some f => return (.app f q.1, q.2)
        | none => .error ⟨.noFunction name, q.2.length⟩
      | .fraction => do
        let q ← bare (fractionPart stop rest)
        let r ← bare (fractionPart stop q.2)
        return (.bin .div q.1 r.1, r.2)
      | _ => bare (power stop (t :: rest)) := by
  rw [unary]
  cases t.symbol with
  | minus =>
      cases unary stop rest with
      | error e => rfl
      | ok p => rfl
  | function name =>
      cases unary stop rest with
      | error e => rfl
      | ok p =>
          simp only [bare, Except.map, bind, Except.bind]
          cases Fn.ofName? name with
          | none => rfl
          | some f => rfl
  | fraction =>
      cases fractionPart stop rest with
      | error e => rfl
      | ok p =>
          simp only [bare, Except.map, bind, Except.bind]
          cases fractionPart stop p.rest with
          | error e => rfl
          | ok q => rfl
  | _ => rfl

theorem bare_fractionPart_nil :
    bare (fractionPart stop ([] : List (Token α))) = .error ⟨.noBracket .curly ⟨none, stop⟩, 0⟩ := by
  rw [fractionPart]
  rfl

/-- A part of a fraction stands in curly brackets. -/
theorem bare_fractionPart_cons (t : Token α) (rest : List (Token α)) :
    bare (fractionPart stop (t :: rest)) =
      match t.symbol with
      | .openCurly => do
        let q ← bare (sum stop rest)
        bareClose stop .curly (.ofToken t) q.1 q.2
      | _ => .error ⟨.noBracket .curly (.ofToken t), rest.length + 1⟩ := by
  rw [fractionPart]
  cases t.symbol with
  | openCurly =>
      cases sum stop rest with
      | error e => rfl
      | ok p =>
          have h := bare_close stop .curly (.ofToken t) p
          simp only [bare, Except.map, bind, Except.bind] at h ⊢
          rw [← h]
          cases close stop .curly (.ofToken t) p with
          | error e => rfl
          | ok q => rfl
  | _ => rfl

/-- A power is a group, with an exponent if the next symbol says so. -/
theorem bare_power (ts : List (Token α)) :
    bare (power stop ts) = (do
      let q ← bare (group stop ts)
      match q.2 with
      | [] => return q
      | t :: rest =>
        match t.symbol with
        | .caret => do
          let r ← bare (power stop rest)
          return (.bin .pow q.1 r.1, r.2)
        | _ => return q) := by
  rw [power]
  cases group stop ts with
  | error e => rfl
  | ok p =>
      obtain ⟨e, rest, hlt⟩ := p
      cases rest with
      | nil => rfl
      | cons t rest =>
          simp only [bare, Except.map, bind, Except.bind]
          cases ht : t.symbol with
          | caret =>
              cases power stop rest with
              | error e => rfl
              | ok q => rfl
          | _ => rfl

theorem bare_group_nil : bare (group stop ([] : List (Token α))) = bare (atom stop []) := by
  rw [group]

/-- A group is what stands in brackets, or an atom. -/
theorem bare_group_cons (t : Token α) (rest : List (Token α)) :
    bare (group stop (t :: rest)) =
      match Bracket.openedBy? t.symbol with
      | some b => do
        let q ← bare (sum stop rest)
        bareClose stop b (.ofToken t) q.1 q.2
      | none => bare (atom stop (t :: rest)) := by
  rw [group]
  cases Bracket.openedBy? t.symbol with
  | none => rfl
  | some b =>
      cases sum stop rest with
      | error e => rfl
      | ok p =>
          have h := bare_close stop b (.ofToken t) p
          simp only [bare, Except.map, bind, Except.bind] at h ⊢
          rw [← h]
          cases close stop b (.ofToken t) p with
          | error e => rfl
          | ok q => rfl

/-! ## what a rule makes of tokens -/

/-- Symbols and an expression that belong to one derivation. -/
def Via {D : Type} (yield : D → List (Symbol α)) (denote : D → Expr α) (l : List (Symbol α))
    (e : Expr α) : Prop := ∃ d, yield d = l ∧ denote d = e

/-- A fault found in reading tokens, in front of those that are left: at the place of the first of
them, or of the end, unless it is about the name of a function. -/
inductive FoundIn (stop : Nat) (ts : List (Token α)) : GrammarFault → Prop where
  | place {left : List (Token α)} {e : GrammarError} (hleft : left <:+ ts)
      (hfound : e.found? = some (Place.first stop left)) : FoundIn stop ts ⟨e, left.length⟩
  | word {left : List (Token α)} {t : Token α} {name : String} (hleft : left <:+ ts) (ht : t ∈ ts)
      (hsymbol : t.symbol = .function name) (hname : Fn.ofName? name = none) :
      FoundIn stop ts ⟨.noFunction name, left.length⟩

variable {stop}

/-- A fault at the first of the tokens. -/
theorem FoundIn.here {ts : List (Token α)} {e : GrammarError}
    (hfound : e.found? = some (Place.first stop ts)) : FoundIn stop ts ⟨e, ts.length⟩ :=
  .place List.suffix_rfl hfound

/-- A fault among the last tokens is one among more of them. -/
theorem FoundIn.mono {ts us : List (Token α)} {fault : GrammarFault} (h : FoundIn stop ts fault)
    (hts : ts <:+ us) : FoundIn stop us fault := by
  cases h with
  | place hleft hfound => exact .place (hleft.trans hts) hfound
  | word hleft ht hsymbol hname => exact .word (hleft.trans hts) (hts.subset ht) hsymbol hname

/-- What reading a phrase from the front of tokens makes of them: the tokens taken are the symbols
of the expression by some derivation, or a fault is found among the tokens. -/
def Sound (stop : Nat) (ts : List (Token α)) (Derives : List (Symbol α) → Expr α → Prop) :
    Except GrammarFault (Expr α × List (Token α)) → Prop
  | .ok (e, rest) => ∃ taken, ts = taken ++ rest ∧ Derives (symbols taken) e
  | .error fault => FoundIn stop ts fault

variable {ts rest : List (Token α)} {D D' : List (Symbol α) → Expr α → Prop} {e : Expr α}
  {r : Except GrammarFault (Expr α × List (Token α))}

/-- A rule that is sound for a phrase is so for what holds of all such phrases. -/
theorem Sound.imp (h : Sound stop ts D r) (hD : ∀ l e, D l e → D' l e) : Sound stop ts D' r := by
  cases r with
  | error fault => exact h
  | ok q =>
      obtain ⟨taken, hts, hd⟩ := h
      exact ⟨taken, hts, hD _ _ hd⟩

/-- Nothing is read. -/
theorem Sound.done (h : D [] e) : Sound stop ts D (.ok (e, ts)) := ⟨[], rfl, h⟩

/-- A token is read before the others. -/
theorem Sound.cons {t : Token α} (h : Sound stop ts (fun l => D (t.symbol :: l)) r) :
    Sound stop (t :: ts) D r := by
  cases r with
  | error fault => exact FoundIn.mono h (List.suffix_cons t ts)
  | ok q =>
      obtain ⟨taken, rfl, hd⟩ := h
      exact ⟨t :: taken, rfl, hd⟩

/-- One phrase is read after another. -/
theorem Sound.bind {f : Expr α × List (Token α) → Except GrammarFault (Expr α × List (Token α))}
    (h : Sound stop ts D r)
    (hf : ∀ l e rest, r = .ok (e, rest) → D l e →
      Sound stop rest (fun l' => D' (l ++ l')) (f (e, rest))) :
    Sound stop ts D' (r >>= f) := by
  cases r with
  | error fault => exact h
  | ok q =>
      obtain ⟨e, rest⟩ := q
      obtain ⟨taken, rfl, hd⟩ := h
      have hnext := hf _ e rest rfl hd
      change Sound stop (taken ++ rest) D' (f (e, rest))
      cases hq : f (e, rest) with
      | error fault =>
          rw [hq] at hnext
          exact FoundIn.mono hnext (List.suffix_append taken rest)
      | ok q' =>
          rw [hq] at hnext
          obtain ⟨taken', rfl, hd'⟩ := hnext
          exact ⟨taken ++ taken', (List.append_assoc _ _ _).symm, by rw [symbols_append]; exact hd'⟩

/-- A phrase takes at least one token. -/
theorem bare_lt {n : Nat} {r : Except GrammarFault (Phrase α n)} (h : bare r = .ok (e, rest)) :
    rest.length < n := by
  cases r with
  | error fault => exact nomatch h
  | ok p =>
      have hrest : p.rest = rest := congrArg Prod.snd (Except.ok.inj h)
      exact hrest ▸ p.shorter

/-- A bracket is closed by its closing symbol only. -/
theorem sound_close (b : Bracket) (o : Place) :
    Sound stop rest (fun l e' => l = [b.closing] ∧ e' = e) (bareClose stop b o e rest) := by
  cases rest with
  | nil => exact FoundIn.here rfl
  | cons t rest =>
      rw [bareClose]
      by_cases h : Bracket.closedBy? t.symbol = some b
      · rw [if_pos h]
        exact ⟨[t], rfl, congrArg (fun s => [s]) (Bracket.closedBy?_eq_some.mp h), rfl⟩
      · rw [if_neg h]
        exact .place List.suffix_rfl rfl

/-- What is read as an atom is one. -/
theorem sound_atom (ts : List (Token α)) :
    Sound stop ts (Via (fun a => [a.symbol]) Grammar.Atom.denote) (bare (atom stop ts)) := by
  cases ts with
  | nil => exact FoundIn.here rfl
  | cons t rest =>
      rw [atom]
      cases hs : t.symbol with
      | number v => exact ⟨[t], rfl, .number v, by simp [Grammar.Atom.symbol, hs], rfl⟩
      | name x => exact ⟨[t], rfl, .name x, by simp [Grammar.Atom.symbol, hs], rfl⟩
      | _ => exact FoundIn.here rfl

/-! ## soundness -/

open Grammar

/-- A function is read after its operand has been; a word that is no function's name is found out
then. -/
theorem sound_function {t : Token α} {name : String} (hs : t.symbol = .function name)
    (h : Sound stop rest (Via Unary.yield Unary.denote) r) :
    Sound stop (t :: rest) (Via Unary.yield Unary.denote) (do
      let q ← r
      match Fn.ofName? name with
      | some f => return (.app f q.1, q.2)
      | none => .error ⟨.noFunction name, q.2.length⟩) := by
  cases r with
  | error fault => exact FoundIn.mono h (List.suffix_cons t rest)
  | ok q =>
      obtain ⟨e, rest'⟩ := q
      obtain ⟨taken, rfl, u, hu, rfl⟩ := h
      change Sound stop (t :: (taken ++ rest')) _ (match Fn.ofName? name with
        | some f => .ok (.app f u.denote, rest')
        | none => .error ⟨.noFunction name, rest'.length⟩)
      cases hname : Fn.ofName? name with
      | none =>
          have hsuffix : rest' <:+ t :: (taken ++ rest') :=
            (List.suffix_append taken rest').trans (List.suffix_cons t _)
          exact .word hsuffix List.mem_cons_self hs hname
      | some f =>
          have hf : name = f.name := ofName?_eq_some.mp hname
          exact ⟨t :: taken, rfl, .function f u, by rw [Unary.yield, hu, symbols_cons, hs, hf],
            by rw [Unary.denote]⟩

mutual

/-- What is read as a sum is one, and it denotes what was read. -/
theorem sound_sum (ts : List (Token α)) :
    Sound stop ts (Via Sum.yield Sum.denote) (bare (sum stop ts)) := by
  rw [bare_sum]
  apply (sound_product ts).bind
  intro l e rest hr hderived
  obtain ⟨p, rfl, rfl⟩ := hderived
  have := bare_lt hr
  apply (sound_sumTail p.denote rest).imp
  intro l' e' hderived
  obtain ⟨t, rfl, rfl⟩ := hderived
  exact ⟨⟨p, t⟩, by rw [Sum.yield], by rw [Sum.denote]⟩
termination_by (ts.length, 5)

/-- What is read as terms that follow is a row of terms. -/
theorem sound_sumTail (left : Expr α) (ts : List (Token α)) :
    Sound stop ts (Via SumTail.yield (SumTail.denote left)) (bare (sumTail stop left ts)) := by
  match ts with
  | [] =>
      rw [bare_sumTail_nil]
      exact .done ⟨.nil, by rw [SumTail.yield], by rw [SumTail.denote]⟩
  | t :: rest =>
      rw [bare_sumTail_cons]
      cases hs : additive? t.symbol with
      | none => exact .done ⟨.nil, by rw [SumTail.yield], by rw [SumTail.denote]⟩
      | some op =>
          obtain ⟨s, hsign, rfl⟩ := additive?_eq_some.mp hs
          apply Sound.cons
          apply (sound_product rest).bind
          intro l e rest' hr hderived
          obtain ⟨p, rfl, rfl⟩ := hderived
          have := bare_lt hr
          apply (sound_sumTail (.bin s.op left p.denote) rest').imp
          intro l' e' hderived
          obtain ⟨t', rfl, rfl⟩ := hderived
          exact ⟨.cons s p t', by rw [SumTail.yield, hsign], by rw [SumTail.denote]⟩
termination_by (ts.length, 0)

/-- What is read as a product is one. -/
theorem sound_product (ts : List (Token α)) :
    Sound stop ts (Via Product.yield Product.denote) (bare (product stop ts)) := by
  rw [bare_product]
  apply (sound_unary ts).bind
  intro l e rest hr hderived
  obtain ⟨u, rfl, rfl⟩ := hderived
  have := bare_lt hr
  apply (sound_productTail u.denote rest).imp
  intro l' e' hderived
  obtain ⟨t, rfl, rfl⟩ := hderived
  exact ⟨⟨u, t⟩, by rw [Product.yield], by rw [Product.denote]⟩
termination_by (ts.length, 4)

/-- What is read as factors that follow is a row of factors. -/
theorem sound_productTail (left : Expr α) (ts : List (Token α)) :
    Sound stop ts (Via ProductTail.yield (ProductTail.denote left))
      (bare (productTail stop left ts)) := by
  match ts with
  | [] =>
      rw [bare_productTail_nil]
      exact .done ⟨.nil, by rw [ProductTail.yield], by rw [ProductTail.denote]⟩
  | t :: rest =>
      rw [bare_productTail_cons]
      cases hs : t.symbol with
      | dot =>
          apply Sound.cons
          apply (sound_unary rest).bind
          intro l e rest' hr hderived
          obtain ⟨u, rfl, rfl⟩ := hderived
          have := bare_lt hr
          apply (sound_productTail (.bin .mul left u.denote) rest').imp
          intro l' e' hderived
          obtain ⟨t', rfl, rfl⟩ := hderived
          exact ⟨.cons u t', by rw [ProductTail.yield, hs], by rw [ProductTail.denote]⟩
      | _ => exact .done ⟨.nil, by rw [ProductTail.yield], by rw [ProductTail.denote]⟩
termination_by (ts.length, 0)

/-- What is read as a factor is one. -/
theorem sound_unary (ts : List (Token α)) :
    Sound stop ts (Via Unary.yield Unary.denote) (bare (unary stop ts)) := by
  match ts with
  | [] =>
      rw [bare_unary_nil]
      apply (sound_power []).imp
      intro l e hderived
      obtain ⟨p, rfl, rfl⟩ := hderived
      exact ⟨.fraction (.power p), by rw [Unary.yield, Fraction.yield],
        by rw [Unary.denote, Fraction.denote]⟩
  | t :: rest =>
      have hpower : Sound stop (t :: rest) (Via Unary.yield Unary.denote)
          (bare (power stop (t :: rest))) := by
        apply (sound_power (t :: rest)).imp
        intro l e hderived
        obtain ⟨p, rfl, rfl⟩ := hderived
        exact ⟨.fraction (.power p), by rw [Unary.yield, Fraction.yield],
          by rw [Unary.denote, Fraction.denote]⟩
      rw [bare_unary_cons]
      cases hs : t.symbol with
      | minus =>
          apply Sound.cons
          apply (sound_unary rest).bind
          intro l e rest' _ hderived
          obtain ⟨u, rfl, rfl⟩ := hderived
          exact .done ⟨.negation u, by rw [Unary.yield, hs, List.append_nil], by rw [Unary.denote]⟩
      | function name =>
          exact sound_function hs (sound_unary rest)
      | fraction =>
          apply Sound.cons
          apply (sound_fractionPart rest).bind
          intro l e rest' hr hderived
          obtain ⟨a, rfl, rfl⟩ := hderived
          have := bare_lt hr
          apply (sound_fractionPart rest').bind
          intro l e rest' _ hderived
          obtain ⟨b, rfl, rfl⟩ := hderived
          apply Sound.done
          exact ⟨.fraction (.parts a b), by simp [Unary.yield, Fraction.yield, hs],
            by rw [Unary.denote, Fraction.denote]⟩
      | _ => exact hpower
termination_by (ts.length, 3)

/-- What is read as a part of a fraction is a sum in curly brackets. -/
theorem sound_fractionPart (ts : List (Token α)) :
    Sound stop ts (Via (fun s => .openCurly :: (s.yield ++ [.closeCurly])) Sum.denote)
      (bare (fractionPart stop ts)) := by
  match ts with
  | [] =>
      rw [bare_fractionPart_nil]
      exact FoundIn.here rfl
  | t :: rest =>
      rw [bare_fractionPart_cons]
      cases hs : t.symbol with
      | openCurly =>
          apply Sound.cons
          apply (sound_sum rest).bind
          intro l e rest' _ hderived
          obtain ⟨s, rfl, rfl⟩ := hderived
          apply (sound_close .curly (.ofToken t)).imp
          intro l e hderived
          obtain ⟨rfl, rfl⟩ := hderived
          exact ⟨s, by rw [hs]; rfl, rfl⟩
      | _ => exact FoundIn.here rfl
termination_by (ts.length, 0)

/-- What is read as a power is one. -/
theorem sound_power (ts : List (Token α)) :
    Sound stop ts (Via Power.yield Power.denote) (bare (power stop ts)) := by
  rw [bare_power]
  apply (sound_group ts).bind
  intro l e rest hr hderived
  obtain ⟨g, rfl, rfl⟩ := hderived
  have hbase : Sound stop rest (fun l => Via Power.yield Power.denote (g.yield ++ l))
      (.ok (g.denote, rest)) :=
    .done ⟨.base g, by rw [Power.yield, List.append_nil], by rw [Power.denote]⟩
  have := bare_lt hr
  match rest with
  | [] => exact hbase
  | t :: rest' =>
      have hlt : rest'.length < ts.length := by
        rw [List.length_cons] at this
        omega
      cases hs : t.symbol with
      | caret =>
          simp only [hs]
          apply Sound.cons
          apply (sound_power rest').bind
          intro l e rest _ hderived
          obtain ⟨p, rfl, rfl⟩ := hderived
          exact .done ⟨.exponent g p, by rw [Power.yield, List.append_nil, hs],
            by rw [Power.denote]⟩
      | _ =>
          simp only [hs]
          exact hbase
termination_by (ts.length, 2)

/-- What is read as a group is one. -/
theorem sound_group (ts : List (Token α)) :
    Sound stop ts (Via Group.yield Group.denote) (bare (group stop ts)) := by
  have hatom : Sound stop ts (Via Group.yield Group.denote) (bare (atom stop ts)) := by
    apply (sound_atom ts).imp
    intro l e hderived
    obtain ⟨a, rfl, rfl⟩ := hderived
    exact ⟨.atom a, by rw [Group.yield], by rw [Group.denote]⟩
  match ts with
  | [] =>
      rw [bare_group_nil]
      exact hatom
  | t :: rest =>
      rw [bare_group_cons]
      cases hb : Bracket.openedBy? t.symbol with
      | none => exact hatom
      | some b =>
          apply Sound.cons
          apply (sound_sum rest).bind
          intro l e rest' _ hderived
          obtain ⟨s, rfl, rfl⟩ := hderived
          apply (sound_close b (.ofToken t)).imp
          intro l e hderived
          obtain ⟨rfl, rfl⟩ := hderived
          exact ⟨.bracket b s, by rw [Group.yield, Bracket.openedBy?_eq_some.mp hb],
            by rw [Group.denote]⟩
termination_by (ts.length, 1)

end

/-! ## completeness -/

/-- No term follows where a sum may end. -/
theorem sumTail_of_ends (left : Expr α) (h : Ends 1 (symbols ts)) :
    bare (sumTail stop left ts) = .ok (left, ts) := by
  cases ts with
  | nil => exact bare_sumTail_nil stop left
  | cons t rest =>
      rw [bare_sumTail_cons]
      cases hs : additive? t.symbol with
      | none => rfl
      | some op =>
          obtain ⟨s, hsign, -⟩ := additive?_eq_some.mp hs
          simp [hsign] at h

/-- No factor follows where a product may end. -/
theorem productTail_of_ends (left : Expr α) (h : Ends 2 (symbols ts)) :
    bare (productTail stop left ts) = .ok (left, ts) := by
  cases ts with
  | nil => exact bare_productTail_nil stop left
  | cons t rest =>
      rw [bare_productTail_cons]
      cases hs : t.symbol with
      | dot => simp [hs, binding] at h
      | _ => rfl

/-- Without an exponent a power is a group. -/
theorem power_of_ends (h : Ends 3 (symbols rest)) (hg : bare (group stop ts) = .ok (e, rest)) :
    bare (power stop ts) = .ok (e, rest) := by
  rw [bare_power, hg]
  cases rest with
  | nil => rfl
  | cons t rest =>
      change (match t.symbol with | .caret => _ | _ => _) = _
      cases hs : t.symbol with
      | caret => simp [hs, binding] at h
      | _ => rfl

/-- A closing symbol closes its bracket. -/
theorem complete_close (stop : Nat) (b : Bracket) (o : Place) {t : Token α}
    (ht : t.symbol = b.closing) :
    bareClose stop b o e (t :: rest) = .ok (e, rest) := by
  rw [bareClose, if_pos (Bracket.closedBy?_eq_some.mpr ht)]

/-- A sum in curly brackets is read as a part of a fraction. -/
theorem complete_fractionPart {o c : Token α} (ho : o.symbol = .openCurly)
    (hs : bare (sum stop ts) = .ok (e, c :: rest)) (hc : c.symbol = .closeCurly) :
    bare (fractionPart stop (o :: ts)) = .ok (e, rest) := by
  rw [bare_fractionPart_cons, ho, hs]
  exact complete_close stop .curly _ hc

/-- A sum in brackets is read as a group. -/
theorem complete_bracket {b : Bracket} {o c : Token α} (ho : o.symbol = b.opening)
    (hs : bare (sum stop ts) = .ok (e, c :: rest)) (hc : c.symbol = b.closing) :
    bare (group stop (o :: ts)) = .ok (e, rest) := by
  rw [bare_group_cons, Bracket.openedBy?_eq_some.mpr ho, hs]
  exact complete_close stop b _ hc

/-- Reading an operand that begins like a group is reading a power. -/
theorem unary_of_begins {s : Symbol α} {l : List (Symbol α)} (h : symbols ts = s :: l)
    (hs : beginsGroup s = true) : bare (unary stop ts) = bare (power stop ts) := by
  obtain ⟨t, rest, rfl, ht, -⟩ := symbols_eq_cons h
  rw [bare_unary_cons, ht]
  cases s with
  | number | name | openParen | openCurly => rfl
  | _ => cases hs

/-- An atom is read as a group. -/
theorem complete_atom (a : Atom α) (ts : List (Token α)) {r : List (Symbol α)}
    (h : symbols ts = a.symbol :: r) :
    ∃ rest, bare (group stop ts) = .ok (a.denote, rest) ∧ symbols rest = r := by
  obtain ⟨t, rest, rfl, ht, hrest⟩ := symbols_eq_cons h
  cases a with
  | number v => exact ⟨rest, by rw [bare_group_cons, atom, ht]; rfl, hrest⟩
  | name x => exact ⟨rest, by rw [bare_group_cons, atom, ht]; rfl, hrest⟩

mutual

/-- The symbols of a sum are read as that sum, up to where it may end. -/
theorem complete_sum (d : Sum α) (ts : List (Token α)) {r : List (Symbol α)}
    (h : symbols ts = d.yield ++ r) (hr : Ends 1 r) :
    ∃ rest, bare (sum stop ts) = .ok (d.denote, rest) ∧ symbols rest = r := by
  obtain ⟨p, t⟩ := d
  rw [Sum.yield, List.append_assoc] at h
  obtain ⟨mid, hp, hmid⟩ := complete_product p ts h (t.ends hr)
  obtain ⟨rest, ht, hrest⟩ := complete_sumTail t p.denote mid hmid hr
  rw [bare_sum, hp, Sum.denote]
  exact ⟨rest, ht, hrest⟩
termination_by structural d

/-- The symbols of terms that follow are read as those terms. -/
theorem complete_sumTail (d : SumTail α) (left : Expr α) (ts : List (Token α))
    {r : List (Symbol α)} (h : symbols ts = d.yield ++ r) (hr : Ends 1 r) :
    ∃ rest, bare (sumTail stop left ts) = .ok (d.denote left, rest) ∧ symbols rest = r := by
  match d with
  | .nil =>
      rw [SumTail.yield, List.nil_append] at h
      rw [← h] at hr
      exact ⟨ts, by rw [sumTail_of_ends left hr, SumTail.denote], h⟩
  | .cons s p t =>
      rw [SumTail.yield, List.cons_append, List.append_assoc] at h
      obtain ⟨sign, ts', rfl, hsign, hts⟩ := symbols_eq_cons h
      have hop := additive?_eq_some.mpr ⟨s, hsign, rfl⟩
      obtain ⟨mid, hp, hmid⟩ := complete_product p ts' hts (t.ends hr)
      obtain ⟨rest, ht, hrest⟩ := complete_sumTail t (.bin s.op left p.denote) mid hmid hr
      rw [bare_sumTail_cons, hop, hp, SumTail.denote]
      exact ⟨rest, ht, hrest⟩
termination_by structural d

/-- The symbols of a product are read as that product. -/
theorem complete_product (d : Product α) (ts : List (Token α)) {r : List (Symbol α)}
    (h : symbols ts = d.yield ++ r) (hr : Ends 2 r) :
    ∃ rest, bare (product stop ts) = .ok (d.denote, rest) ∧ symbols rest = r := by
  obtain ⟨u, t⟩ := d
  rw [Product.yield, List.append_assoc] at h
  obtain ⟨mid, hu, hmid⟩ := complete_unary u ts h (t.ends hr)
  obtain ⟨rest, ht, hrest⟩ := complete_productTail t u.denote mid hmid hr
  rw [bare_product, hu, Product.denote]
  exact ⟨rest, ht, hrest⟩
termination_by structural d

/-- The symbols of factors that follow are read as those factors. -/
theorem complete_productTail (d : ProductTail α) (left : Expr α) (ts : List (Token α))
    {r : List (Symbol α)} (h : symbols ts = d.yield ++ r) (hr : Ends 2 r) :
    ∃ rest, bare (productTail stop left ts) = .ok (d.denote left, rest) ∧ symbols rest = r := by
  match d with
  | .nil =>
      rw [ProductTail.yield, List.nil_append] at h
      rw [← h] at hr
      exact ⟨ts, by rw [productTail_of_ends left hr, ProductTail.denote], h⟩
  | .cons u t =>
      rw [ProductTail.yield, List.cons_append, List.append_assoc] at h
      obtain ⟨dot, ts', rfl, hdot, hts⟩ := symbols_eq_cons h
      obtain ⟨mid, hu, hmid⟩ := complete_unary u ts' hts (t.ends hr)
      obtain ⟨rest, ht, hrest⟩ := complete_productTail t (.bin .mul left u.denote) mid hmid hr
      rw [bare_productTail_cons, hdot, ProductTail.denote]
      exact ⟨rest, by rw [hu]; exact ht, hrest⟩
termination_by structural d

/-- The symbols of a factor are read as that factor. -/
theorem complete_unary (d : Unary α) (ts : List (Token α)) {r : List (Symbol α)}
    (h : symbols ts = d.yield ++ r) (hr : Ends 3 r) :
    ∃ rest, bare (unary stop ts) = .ok (d.denote, rest) ∧ symbols rest = r := by
  match d with
  | .negation u =>
      rw [Unary.yield, List.cons_append] at h
      obtain ⟨t, ts', rfl, ht, hts⟩ := symbols_eq_cons h
      obtain ⟨rest, hu, hrest⟩ := complete_unary u ts' hts hr
      rw [bare_unary_cons, ht, Unary.denote]
      exact ⟨rest, by rw [hu]; rfl, hrest⟩
  | .function f u =>
      rw [Unary.yield, List.cons_append] at h
      obtain ⟨t, ts', rfl, ht, hts⟩ := symbols_eq_cons h
      obtain ⟨rest, hu, hrest⟩ := complete_unary u ts' hts hr
      have hname : Fn.ofName? f.name = some f := ofName?_eq_some.mpr rfl
      rw [bare_unary_cons, ht, Unary.denote]
      exact ⟨rest, by simp only [hu, hname, bind, Except.bind, pure, Except.pure], hrest⟩
  | .fraction q =>
      rw [Unary.yield] at h
      rw [Unary.denote]
      exact complete_fraction q ts h hr
termination_by structural d

/-- The symbols of a fraction are read as that fraction. -/
theorem complete_fraction (d : Fraction α) (ts : List (Token α)) {r : List (Symbol α)}
    (h : symbols ts = d.yield ++ r) (hr : Ends 3 r) :
    ∃ rest, bare (unary stop ts) = .ok (d.denote, rest) ∧ symbols rest = r := by
  match d with
  | .parts a b =>
      simp only [Fraction.yield, List.cons_append, List.append_assoc, List.nil_append] at h
      obtain ⟨t, ts₁, rfl, ht, h₁⟩ := symbols_eq_cons h
      obtain ⟨o, ts₂, rfl, ho, h₂⟩ := symbols_eq_cons h₁
      obtain ⟨ts₃, ha, h₃⟩ := complete_sum a ts₂ h₂ (by simp [binding])
      obtain ⟨c, ts₄, rfl, hc, h₄⟩ := symbols_eq_cons h₃
      obtain ⟨o', ts₅, rfl, ho', h₅⟩ := symbols_eq_cons h₄
      obtain ⟨ts₆, hb, h₆⟩ := complete_sum b ts₅ h₅ (by simp [binding])
      obtain ⟨c', rest, rfl, hc', hrest⟩ := symbols_eq_cons h₆
      have hnum := complete_fractionPart ho ha hc
      have hden := complete_fractionPart ho' hb hc'
      rw [bare_unary_cons, ht, Fraction.denote]
      exact ⟨rest, by simp only [hnum, hden, bind, Except.bind, pure, Except.pure], hrest⟩
  | .power p =>
      rw [Fraction.yield] at h
      obtain ⟨s, l, hp, hs⟩ := p.begins
      rw [Fraction.denote, unary_of_begins (by rw [h, hp, List.cons_append]) hs]
      exact complete_power p ts h hr
termination_by structural d

/-- The symbols of a power are read as that power. -/
theorem complete_power (d : Power α) (ts : List (Token α)) {r : List (Symbol α)}
    (h : symbols ts = d.yield ++ r) (hr : Ends 3 r) :
    ∃ rest, bare (power stop ts) = .ok (d.denote, rest) ∧ symbols rest = r := by
  match d with
  | .base g =>
      rw [Power.yield] at h
      obtain ⟨rest, hg, rfl⟩ := complete_group g ts h
      rw [Power.denote]
      exact ⟨rest, power_of_ends hr hg, rfl⟩
  | .exponent g p =>
      rw [Power.yield, List.append_assoc, List.cons_append] at h
      obtain ⟨mid, hg, hmid⟩ := complete_group g ts h
      obtain ⟨t, ts', rfl, ht, hts⟩ := symbols_eq_cons hmid
      obtain ⟨rest, hp, hrest⟩ := complete_power p ts' hts hr
      rw [bare_power, hg, Power.denote]
      exact ⟨rest, by simp only [bind, Except.bind, ht, hp, pure, Except.pure], hrest⟩
termination_by structural d

/-- The symbols of a group are read as that group, whatever follows. -/
theorem complete_group (d : Grammar.Group α) (ts : List (Token α)) {r : List (Symbol α)}
    (h : symbols ts = d.yield ++ r) :
    ∃ rest, bare (group stop ts) = .ok (d.denote, rest) ∧ symbols rest = r := by
  match d with
  | .bracket b s =>
      rw [Group.yield, List.cons_append, List.append_assoc] at h
      obtain ⟨t, ts', rfl, ht, hts⟩ := symbols_eq_cons h
      obtain ⟨mid, hs, hmid⟩ := complete_sum s ts' hts (by simp)
      obtain ⟨c, rest, rfl, hc, hrest⟩ := symbols_eq_cons hmid
      rw [Group.denote]
      exact ⟨rest, complete_bracket ht hs hc, hrest⟩
  | .atom a =>
      rw [Group.yield] at h
      rw [Group.denote]
      exact complete_atom a ts h
termination_by structural d

end

end Phrase

end Fluxion

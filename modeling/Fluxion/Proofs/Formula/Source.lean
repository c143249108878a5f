import Fluxion.Proofs.Expr.Hereditary
import Fluxion.Proofs.Expr.Weight
import Fluxion.Proofs.Formula.Read
import Fluxion.Proofs.Token.Origin

/-!
# Fluxion.Proofs.Formula.Source

What a formula that is read from text is made of.

The numbers and names of an expression are those of the symbols that it was read from.  In a text
these stand for decimals and for names.  So a property that a whole has if its operands have it
holds of a formula that is read, if it holds of decimals and of the names in the table.

* `Grammar.Sum.holds_denote`: properties of what a derivation denotes;
* `Formula.holds_read`: properties of a formula that is read;
* `Formula.allProper_read`: its numbers are proper.
-/

namespace Fluxion

variable {α : Type}

namespace Grammar

/-! ## derivations -/

variable {P : Expr α → Prop}

/-- A property holds of the numbers and names among symbols. -/
def AtomsHold (P : Expr α → Prop) (l : List (Symbol α)) : Prop :=
  ∀ a : Atom α, a.symbol ∈ l → P a.denote

/-- Something holds of the atoms of two rows of symbols if it does of those of each. -/
theorem atomsHold_append {l m : List (Symbol α)} :
    AtomsHold P (l ++ m) ↔ AtomsHold P l ∧ AtomsHold P m := by
  simp only [AtomsHold, List.mem_append]
  constructor
  · intro h
    exact ⟨fun a ha => h a (.inl ha), fun a ha => h a (.inr ha)⟩
  · rintro ⟨hl, hm⟩ a (ha | ha)
    · exact hl a ha
    · exact hm a ha

theorem AtomsHold.tail {s : Symbol α} {l : List (Symbol α)} (h : AtomsHold P (s :: l)) :
    AtomsHold P l := fun a ha => h a (List.mem_cons_of_mem s ha)

mutual

/-- What holds of atoms and is kept by operations holds of what a sum denotes. -/
theorem Sum.holds_denote (hP : Expr.Partwise P) (d : Sum α) (h : AtomsHold P d.yield) :
    P d.denote := by
  match d with
  | ⟨p, t⟩ =>
      rw [Sum.yield] at h
      obtain ⟨hp, ht⟩ := atomsHold_append.mp h
      exact t.holds_denote hP (p.holds_denote hP hp) ht
termination_by structural d

/-- It holds of a sum with the terms that follow. -/
theorem SumTail.holds_denote (hP : Expr.Partwise P) (d : SumTail α) {left : Expr α}
    (hleft : P left) (h : AtomsHold P d.yield) : P (d.denote left) := by
  match d with
  | .nil => exact hleft
  | .cons s p t =>
      rw [SumTail.yield] at h
      obtain ⟨hp, ht⟩ := atomsHold_append.mp h.tail
      exact t.holds_denote hP (hP.bin.mpr ⟨hleft, p.holds_denote hP hp⟩) ht
termination_by structural d

/-- It holds of what a product denotes. -/
theorem Product.holds_denote (hP : Expr.Partwise P) (d : Product α)
    (h : AtomsHold P d.yield) : P d.denote := by
  match d with
  | ⟨u, t⟩ =>
      rw [Product.yield] at h
      obtain ⟨hu, ht⟩ := atomsHold_append.mp h
      exact t.holds_denote hP (u.holds_denote hP hu) ht
termination_by structural d

/-- It holds of a product with the factors that follow. -/
theorem ProductTail.holds_denote (hP : Expr.Partwise P) (d : ProductTail α) {left : Expr α}
    (hleft : P left) (h : AtomsHold P d.yield) : P (d.denote left) := by
  match d with
  | .nil => exact hleft
  | .cons u t =>
      rw [ProductTail.yield] at h
      obtain ⟨hu, ht⟩ := atomsHold_append.mp h.tail
      exact t.holds_denote hP (hP.bin.mpr ⟨hleft, u.holds_denote hP hu⟩) ht
termination_by structural d

/-- It holds of what a factor denotes. -/
theorem Unary.holds_denote (hP : Expr.Partwise P) (d : Unary α) (h : AtomsHold P d.yield) :
    P d.denote := by
  match d with
  | .negation u =>
      rw [Unary.yield] at h
      exact hP.neg.mpr (u.holds_denote hP h.tail)
  | .function f u =>
      rw [Unary.yield] at h
      exact hP.app.mpr (u.holds_denote hP h.tail)
  | .fraction q =>
      rw [Unary.yield] at h
      exact q.holds_denote hP h
termination_by structural d

/-- It holds of what a fraction denotes. -/
theorem Fraction.holds_denote (hP : Expr.Partwise P) (d : Fraction α)
    (h : AtomsHold P d.yield) : P d.denote := by
  match d with
  | .parts a b =>
      rw [Fraction.yield] at h
      obtain ⟨ha, hb⟩ := atomsHold_append.mp h.tail.tail
      exact hP.bin.mpr ⟨a.holds_denote hP ha,
        b.holds_denote hP (atomsHold_append.mp hb.tail.tail).1⟩
  | .power p =>
      rw [Fraction.yield] at h
      exact p.holds_denote hP h
termination_by structural d

/-- It holds of what a power denotes. -/
theorem Power.holds_denote (hP : Expr.Partwise P) (d : Power α) (h : AtomsHold P d.yield) :
    P d.denote := by
  match d with
  | .base g =>
      rw [Power.yield] at h
      exact g.holds_denote hP h
  | .exponent g p =>
      rw [Power.yield] at h
      obtain ⟨hg, hp⟩ := atomsHold_append.mp h
      exact hP.bin.mpr ⟨g.holds_denote hP hg, p.holds_denote hP hp.tail⟩
termination_by structural d

/-- It holds of what a group denotes. -/
theorem Group.holds_denote (hP : Expr.Partwise P) (d : Group α) (h : AtomsHold P d.yield) :
    P d.denote := by
  match d with
  | .bracket b s =>
      rw [Group.yield] at h
      exact s.holds_denote hP (atomsHold_append.mp h.tail).1
  | .atom a =>
      rw [Group.yield] at h
      exact h a List.mem_cons_self
termination_by structural d

end

end Grammar

/-! ## text -/

variable [Arith α]

theorem Lexer.symbol?_eq_number {kind : Lexer.Kind} {text : List Char} {v : α}
    (h : Lexer.symbol? text kind = some (.number v)) : ∃ m e, v = Arith.ofDecimal m e := by
  cases kind with
  | number => exact ⟨_, _, (Symbol.number.inj (Option.some.inj h)).symm⟩
  | _ => exact nomatch h

/-- A number among the tokens of a text is the one nearest to a decimal. -/
theorem Lexer.exists_decimal_of_mem {text : List Char} {ts : Tokens α}
    (h : tokenize text = .ok ts) {t : Token α} (ht : t ∈ ts.tokens) {v : α}
    (hv : t.symbol = .number v) : ∃ m e, v = Arith.ofDecimal m e := by
  have htokens := tokensFrom_of_tokenize h
  obtain ⟨before, rest, kind, n, -, -, hat⟩ := readAt_of_mem htokens ht
  exact symbol?_eq_number (hat.symbol.trans (congrArg some hv))

namespace Formula

/-- A formula that is read comes from the tokens of its text. -/
theorem ofTokens_of_read {text : String} {f : Formula α} (h : read text = .ok f) :
    ∃ ts : Tokens α, tokenize text.toList = .ok ts ∧ ofTokens ts = .ok f := by
  obtain ⟨ts, htext, hts⟩ := bind_eq_ok.mp h
  exact ⟨ts, mapError_eq_ok.mp htext, hts⟩

/-- The tokens of a formula that is read, its derivation and its table. -/
theorem tokens_of_read {text : String} {f : Formula α} (h : read text = .ok f) :
    ∃ ts : Tokens α, tokenize text.toList = .ok ts ∧
      (∃ d : Grammar.Sum α, d.yield = symbols ts.tokens ∧ d.denote = f.root) ∧
      f.vars.Nodup ∧ f.vars.length ≤ maxNames ∧ f.vars.toFinset = distinctNames ts.tokens := by
  obtain ⟨ts, htext, hts⟩ := ofTokens_of_read h
  obtain ⟨hroot, hnames⟩ := ofTokens_eq_ok.mp hts
  have htable := namesOf_spec ts.tokens List.nodup_nil (Nat.zero_le maxNames)
  rw [hnames, List.toFinset_nil, Finset.empty_union] at htable
  exact ⟨ts, htext, Expr.ofTokens_eq_ok.mp hroot, htable⟩

/-- A property that a whole has if its operands have it holds of a formula that is read, if it holds
of decimals and of the names in the table. -/
theorem holds_read {P : Expr α → Prop} (hP : Expr.Partwise P) {text : String} {f : Formula α}
    (h : read text = .ok f) (hnumber : ∀ m e, P (.num (Arith.ofDecimal m e)))
    (hname : ∀ x ∈ f.vars, Lexer.IsName α x → P (.var x)) : P f.root := by
  obtain ⟨ts, htext, ⟨d, hd, hroot⟩, -, -, hvars⟩ := tokens_of_read h
  rw [← hroot]
  apply d.holds_denote hP
  intro a ha
  rw [hd] at ha
  obtain ⟨t, ht, hs⟩ := List.mem_map.mp ha
  cases a with
  | number v =>
      obtain ⟨m, e, rfl⟩ := Lexer.exists_decimal_of_mem htext ht hs
      exact hnumber m e
  | name x =>
      have hmem : x ∈ f.vars.toFinset := by
        rw [hvars, distinctNames, List.mem_toFinset, List.mem_filterMap]
        exact ⟨_, ha, rfl⟩
      exact hname x (List.mem_toFinset.mp hmem) (Lexer.isName_of_mem htext ht hs)

/-- If decimals are proper, so are the numbers of a formula that is read. -/
theorem allProper_read (hdecimal : ∀ m e, Arith.Proper (Arith.ofDecimal m e : α))
    {text : String} {f : Formula α} (h : read text = .ok f) : f.root.AllProper :=
  holds_read ⟨Iff.rfl, Iff.rfl, Iff.rfl⟩ h hdecimal fun _ _ _ => trivial

end Formula

end Fluxion

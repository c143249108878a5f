import Fluxion.Proofs.Formula.Read
import Fluxion.Proofs.Token.Spacing

/-!
# Fluxion.Proofs.Formula.Spacing

Formulas do not depend on the white space between their tokens.

The rules of the grammar look at symbols; texts and positions of tokens only go into errors.  So
tokens of the same symbols are the same expression, or a mistake of the same kind is found with as
many of them unread (`Phrase.Alike`), and the table of names is the same too.

* `Phrase.alike_sum`: this for sums, and with them for all rules;
* `Formula.ofTokens_congr`: formulas of tokens;
* `Formula.read_respaced`: formulas of texts.
-/

namespace Fluxion

variable {α : Type}

/-- The kind of failure that an error is. -/
def ReadError.kind (e : ReadError) : FailureKind := (Failure.ofRead e).kind

theorem length_eq_of_symbols {ts us : List (Token α)} (h : symbols ts = symbols us) :
    ts.length = us.length := by
  simpa [symbols] using congrArg List.length h

theorem eq_nil_of_symbols {us : List (Token α)} (h : symbols ([] : List (Token α)) = symbols us) :
    us = [] :=
  List.length_eq_zero_iff.mp (length_eq_of_symbols h).symm

/-- The same symbols come from tokens that agree one by one. -/
theorem eq_cons_of_symbols {t : Token α} {ts us : List (Token α)}
    (h : symbols (t :: ts) = symbols us) :
    ∃ u us', us = u :: us' ∧ u.symbol = t.symbol ∧ symbols ts = symbols us' := by
  obtain ⟨u, us', rfl, hu, hus⟩ := symbols_eq_cons h.symm
  exact ⟨u, us', rfl, hu, hus.symm⟩

namespace Phrase

/-- Readings of tokens with the same symbols: the same expression and the same symbols left, or
errors of the same kind at the same place. -/
inductive Alike : Except GrammarFault (Expr α × List (Token α)) →
    Except GrammarFault (Expr α × List (Token α)) → Prop where
  | ok (e : Expr α) {ts us : List (Token α)} (h : symbols ts = symbols us) :
      Alike (.ok (e, ts)) (.ok (e, us))
  | error {f g : GrammarFault}
      (hkind : (ReadError.grammar f.error).kind = (ReadError.grammar g.error).kind)
      (hunread : f.unread = g.unread) : Alike (.error f) (.error g)

variable {r r' : Except GrammarFault (Expr α × List (Token α))} {stop stop' : Nat}

/-- One phrase is read after another. -/
theorem Alike.bind {f g : Expr α × List (Token α) → Except GrammarFault (Expr α × List (Token α))}
    (h : Alike r r')
    (hf : ∀ e ts us, r = .ok (e, ts) → symbols ts = symbols us → Alike (f (e, ts)) (g (e, us))) :
    Alike (r >>= f) (r' >>= g) := by
  cases h with
  | ok e h => exact hf e _ _ rfl h
  | error hkind hunread => exact .error hkind hunread

/-- A closing bracket is found or missed alike. -/
theorem alike_close (b : Bracket) (o o' : Place) (e : Expr α) {ts us : List (Token α)}
    (h : symbols ts = symbols us) :
    Alike (bareClose stop b o e ts) (bareClose stop' b o' e us) := by
  cases ts with
  | nil =>
    obtain rfl := eq_nil_of_symbols h
    exact .error rfl rfl
  | cons t ts =>
    obtain ⟨u, us, rfl, hu, hus⟩ := eq_cons_of_symbols h
    simp only [bareClose, hu]
    split
    · exact .ok e hus
    · exact .error rfl (congrArg (· + 1) (length_eq_of_symbols hus))

/-- Atoms are read alike from tokens with the same symbols. -/
theorem alike_atom {ts us : List (Token α)} (h : symbols ts = symbols us) :
    Alike (bare (atom stop ts)) (bare (atom stop' us)) := by
  cases ts with
  | nil =>
    obtain rfl := eq_nil_of_symbols h
    exact .error rfl rfl
  | cons t ts =>
    obtain ⟨u, us, rfl, hu, hus⟩ := eq_cons_of_symbols h
    have hlength : ts.length + 1 = us.length + 1 :=
      congrArg (· + 1) (length_eq_of_symbols hus)
    simp only [atom, hu]
    cases t.symbol with
    | number v => exact .ok _ hus
    | name x => exact .ok _ hus
    | _ => exact .error rfl hlength

mutual

/-- Sums are read alike from tokens with the same symbols. -/
theorem alike_sum {ts us : List (Token α)} (h : symbols ts = symbols us) :
    Alike (bare (sum stop ts)) (bare (sum stop' us)) := by
  rw [bare_sum, bare_sum]
  refine (alike_product h).bind fun e rest rest' hr hrest => ?_
  have := bare_lt hr
  exact alike_sumTail e hrest
termination_by (ts.length, 5)

/-- Terms that follow are read alike from tokens with the same symbols. -/
theorem alike_sumTail (left : Expr α) {ts us : List (Token α)} (h : symbols ts = symbols us) :
    Alike (bare (sumTail stop left ts)) (bare (sumTail stop' left us)) := by
  match ts with
  | [] =>
    obtain rfl := eq_nil_of_symbols h
    rw [bare_sumTail_nil, bare_sumTail_nil]
    exact .ok left rfl
  | t :: ts =>
    obtain ⟨u, us, rfl, hu, hus⟩ := eq_cons_of_symbols h
    rw [bare_sumTail_cons, bare_sumTail_cons, hu]
    cases additive? t.symbol with
    | none => exact .ok left h
    | some op =>
      refine (alike_product hus).bind fun e rest rest' hr hrest => ?_
      have := bare_lt hr
      exact alike_sumTail _ hrest
termination_by (ts.length, 0)

/-- Products are read alike from tokens with the same symbols. -/
theorem alike_product {ts us : List (Token α)} (h : symbols ts = symbols us) :
    Alike (bare (product stop ts)) (bare (product stop' us)) := by
  rw [bare_product, bare_product]
  refine (alike_unary h).bind fun e rest rest' hr hrest => ?_
  have := bare_lt hr
  exact alike_productTail e hrest
termination_by (ts.length, 4)

/-- Factors that follow are read alike from tokens with the same symbols. -/
theorem alike_productTail (left : Expr α) {ts us : List (Token α)} (h : symbols ts = symbols us) :
    Alike (bare (productTail stop left ts)) (bare (productTail stop' left us)) := by
  match ts with
  | [] =>
    obtain rfl := eq_nil_of_symbols h
    rw [bare_productTail_nil, bare_productTail_nil]
    exact .ok left rfl
  | t :: ts =>
    obtain ⟨u, us, rfl, hu, hus⟩ := eq_cons_of_symbols h
    rw [bare_productTail_cons, bare_productTail_cons, hu]
    cases t.symbol with
    | dot =>
      refine (alike_unary hus).bind fun e rest rest' hr hrest => ?_
      have := bare_lt hr
      exact alike_productTail _ hrest
    | _ => exact .ok left h
termination_by (ts.length, 0)

/-- Factors are read alike from tokens with the same symbols. -/
theorem alike_unary {ts us : List (Token α)} (h : symbols ts = symbols us) :
    Alike (bare (unary stop ts)) (bare (unary stop' us)) := by
  match ts with
  | [] =>
    obtain rfl := eq_nil_of_symbols h
    rw [bare_unary_nil, bare_unary_nil]
    exact alike_power rfl
  | t :: ts =>
    obtain ⟨u, us, rfl, hu, hus⟩ := eq_cons_of_symbols h
    have hpower : Alike (bare (power stop (t :: ts))) (bare (power stop' (u :: us))) :=
      alike_power h
    rw [bare_unary_cons, bare_unary_cons, hu]
    cases t.symbol with
    | minus =>
      exact (alike_unary hus).bind fun e rest rest' _ hrest => .ok _ hrest
    | function name =>
      refine (alike_unary hus).bind fun e rest rest' _ hrest => ?_
      cases Fn.ofName? name with
      | none => exact .error rfl (length_eq_of_symbols hrest)
      | some f => exact .ok _ hrest
    | fraction =>
      refine (alike_fractionPart hus).bind fun e rest rest' hr hrest => ?_
      have := bare_lt hr
      exact (alike_fractionPart hrest).bind fun e rest rest' _ hrest => .ok _ hrest
    | _ => exact hpower
termination_by (ts.length, 3)

/-- Parts of fractions are read alike from tokens with the same symbols. -/
theorem alike_fractionPart {ts us : List (Token α)} (h : symbols ts = symbols us) :
    Alike (bare (fractionPart stop ts)) (bare (fractionPart stop' us)) := by
  match ts with
  | [] =>
    obtain rfl := eq_nil_of_symbols h
    rw [bare_fractionPart_nil, bare_fractionPart_nil]
    exact .error rfl rfl
  | t :: ts =>
    obtain ⟨u, us, rfl, hu, hus⟩ := eq_cons_of_symbols h
    rw [bare_fractionPart_cons, bare_fractionPart_cons, hu]
    cases t.symbol with
    | openCurly =>
      exact (alike_sum hus).bind fun e rest rest' _ hrest => alike_close .curly _ _ e hrest
    | _ => exact .error rfl (congrArg (· + 1) (length_eq_of_symbols hus))
termination_by (ts.length, 0)

/-- Powers are read alike from tokens with the same symbols. -/
theorem alike_power {ts us : List (Token α)} (h : symbols ts = symbols us) :
    Alike (bare (power stop ts)) (bare (power stop' us)) := by
  rw [bare_power, bare_power]
  refine (alike_group h).bind fun e rest rest' hr hrest => ?_
  have hlt := bare_lt hr
  match rest with
  | [] =>
    obtain rfl := eq_nil_of_symbols hrest
    exact .ok e rfl
  | t :: rest =>
    obtain ⟨u, rest', rfl, hu, hus⟩ := eq_cons_of_symbols hrest
    have : rest.length < ts.length := by
      rw [List.length_cons] at hlt
      omega
    simp only [hu]
    cases t.symbol with
    | caret => exact (alike_power hus).bind fun e rest rest' _ hrest => .ok _ hrest
    | _ => exact .ok e hrest
termination_by (ts.length, 2)

/-- Groups are read alike from tokens with the same symbols. -/
theorem alike_group {ts us : List (Token α)} (h : symbols ts = symbols us) :
    Alike (bare (group stop ts)) (bare (group stop' us)) := by
  match ts with
  | [] =>
    obtain rfl := eq_nil_of_symbols h
    rw [bare_group_nil, bare_group_nil]
    exact alike_atom rfl
  | t :: ts =>
    obtain ⟨u, us, rfl, hu, hus⟩ := eq_cons_of_symbols h
    rw [bare_group_cons, bare_group_cons, hu]
    cases Bracket.openedBy? t.symbol with
    | none => exact alike_atom h
    | some b =>
      exact (alike_sum hus).bind fun e rest rest' _ hrest => alike_close b _ _ e hrest
termination_by (ts.length, 1)

end

end Phrase

namespace Expr

/-- What all tokens are as an expression: the same one, or errors of the same kind in the same
place. -/
theorem ofTokens_alike {ts us : Tokens α} (h : symbols ts.tokens = symbols us.tokens) :
    (∃ e, ofTokens ts = .ok e ∧ ofTokens us = .ok e) ∨
    ∃ f g, ofTokens ts = .error f ∧ ofTokens us = .error g ∧
      (ReadError.grammar f.error).kind = (ReadError.grammar g.error).kind ∧
      f.unread = g.unread := by
  have hsum : Phrase.Alike (Phrase.bare (Phrase.sum ts.stop ts.tokens))
      (Phrase.bare (Phrase.sum us.stop us.tokens)) := Phrase.alike_sum h
  rw [ofTokens_eq, ofTokens_eq]
  generalize Phrase.bare (Phrase.sum ts.stop ts.tokens) = r at hsum
  generalize Phrase.bare (Phrase.sum us.stop us.tokens) = r' at hsum
  cases hsum with
  | error hkind hunread => exact .inr ⟨_, _, rfl, rfl, hkind, hunread⟩
  | @ok e rest rest' h =>
    cases rest with
    | nil =>
      obtain rfl := eq_nil_of_symbols h
      exact .inl ⟨e, rfl, rfl⟩
    | cons t rest =>
      obtain ⟨u, rest', rfl, hu, hrest⟩ := eq_cons_of_symbols h
      have hlength := length_eq_of_symbols hrest
      simp only [hu, hlength]
      split
      · exact .inr ⟨_, _, rfl, rfl, rfl, rfl⟩
      · exact .inr ⟨_, _, rfl, rfl, rfl, rfl⟩

end Expr

namespace Formula

/-- Tables of names: the same one, or there are too many names in both. -/
theorem namesOf_alike (names : Names) {ts us : List (Token α)} (h : symbols ts = symbols us) :
    (namesOf names ts).mapError ReadError.kind = (namesOf names us).mapError ReadError.kind := by
  induction ts generalizing names us with
  | nil =>
    obtain rfl := eq_nil_of_symbols h
    rfl
  | cons t ts ih =>
    obtain ⟨u, us, rfl, hu, hus⟩ := eq_cons_of_symbols h
    simp only [namesOf, hu]
    cases t.symbol with
    | name x =>
      cases hx : names.add x with
      | ok names =>
        simp only [hx]
        exact ih names hus
      | error e =>
        simp only [hx]
        rfl
    | _ => exact ih names hus

/-- Tokens of the same symbols are the same formula, or errors of the same kind. -/
theorem ofTokens_congr {ts us : Tokens α} (h : symbols ts.tokens = symbols us.tokens) :
    (ofTokens ts).mapError ReadError.kind = (ofTokens us).mapError ReadError.kind := by
  obtain ⟨e, hts, hus⟩ | ⟨f, g, hts, hus, hkind, hunread⟩ := Expr.ofTokens_alike h
  · have hnames := namesOf_alike [] h
    rw [ofTokens_of_expr hts, ofTokens_of_expr hus]
    cases hn : namesOf [] ts.tokens <;> cases hn' : namesOf [] us.tokens <;>
      simp_all [Except.map, Except.mapError]
  · -- as many tokens were taken before the mistake
    have htaken : symbols (ts.tokens.take (ts.tokens.length - f.unread)) =
        symbols (us.tokens.take (us.tokens.length - g.unread)) := by
      rw [length_eq_of_symbols h, hunread, symbols, symbols, List.map_take, List.map_take]
      exact congrArg _ h
    have hnames := namesOf_alike [] htaken
    rw [ofTokens_of_fault hts, ofTokens_of_fault hus]
    cases hn : namesOf [] (ts.tokens.take (ts.tokens.length - f.unread)) <;>
      cases hn' : namesOf [] (us.tokens.take (us.tokens.length - g.unread)) <;>
      simp_all [Except.mapError]

/-- **White space between tokens does not matter.**  Joined by any white space, the texts of the
tokens of a text are read as the same tokens, with their symbols and texts, at other positions; and
the text is then the same formula, with the same table of names, or an error of the same kind. -/
theorem read_respaced [Arith α] {text text' : String} {ts : Tokens α}
    (h : tokenize text.toList = .ok ts)
    (hspaced : Lexer.Spaced (ts.tokens.map (·.text.toList)) text'.toList) :
    (∃ us : Tokens α, tokenize text'.toList = .ok us ∧
      us.tokens.map Lexer.content = ts.tokens.map Lexer.content) ∧
    (read text' : Except ReadError (Formula α)).mapError ReadError.kind =
      (read text : Except ReadError (Formula α)).mapError ReadError.kind := by
  obtain ⟨us, hus, hcontent⟩ := Lexer.tokenize_respaced h hspaced
  have hsymbols : symbols us.tokens = symbols ts.tokens := by
    have := congrArg (List.map Prod.fst) hcontent
    simpa [Function.comp_def, Lexer.content, symbols] using this
  refine ⟨⟨us, hus, hcontent⟩, ?_⟩
  rw [read, read, h, hus]
  exact ofTokens_congr hsymbols

/-- The tokens of `\left(x\right)^y`. -/
def bracketTokens : Tokens Float where
  tokens := [⟨.openParen, "\\left(", 0⟩, ⟨.name "x", "x", 6⟩, ⟨.closeParen, "\\right)", 7⟩,
    ⟨.caret, "^", 14⟩, ⟨.name "y", "y", 15⟩]
  stop := 16

/-- Spaces, a tab and a new line. -/
theorem read_respaced_bracket :
    ∃ us : Tokens Float, tokenize "\\left( x\t\\right)  ^\ny".toList = .ok us ∧
      us.tokens.map Lexer.content = bracketTokens.tokens.map Lexer.content ∧
      (read (α := Float) "\\left( x\t\\right)  ^\ny").mapError ReadError.kind =
        (read "\\left(x\\right)^y").mapError ReadError.kind := by
  have htext : tokenize "\\left(x\\right)^y".toList = .ok bracketTokens := by cbv
  have hspaced : Lexer.Spaced (bracketTokens.tokens.map (·.text.toList))
      "\\left( x\t\\right)  ^\ny".toList :=
    .cons _ [' '] (by decide) (by decide) <|
      .cons _ ['\t'] (by decide) (by decide) <|
        .cons _ [' ', ' '] (by decide) (by decide) <|
          .cons _ ['\n'] (by decide) (by decide) <| .single _
  obtain ⟨⟨us, hus, hcontent⟩, hread⟩ := read_respaced htext hspaced
  exact ⟨us, hus, hcontent, hread⟩

end Formula

end Fluxion

import Fluxion.Proofs.Formula.FirstFault
import Fluxion.Proofs.Token.Tiling

/-!
# Fluxion.Proofs.Formula.Refusal

What a text is refused for.

* `Formula.read_error_documented`: a mistake of a text or of its grammar is reported at a position
  in the text, and nothing else is, unless a letter outside ASCII makes up a command word.
-/

namespace Fluxion.Formula

variable {α : Type}

theorem LocatedIn.exists_pos {ts : Tokens α} {n : Nat} (hstop : ts.stop ≤ n)
    (hpos : ∀ t ∈ ts.tokens, t.pos ≤ n) {e : ReadError} (h : LocatedIn ts e) :
    ∃ p ≤ n, e.pos? = some p := by
  cases h with
  | namesFull ht hs => exact ⟨_, hpos _ ht, rfl⟩
  | @grammar left e hleft hfound =>
      refine ⟨(Place.first ts.stop left).pos, ?_, by rw [ReadError.pos?, hfound]; rfl⟩
      cases left with
      | nil => exact hstop
      | cons t rest => exact hpos t (hleft.subset List.mem_cons_self)

variable [Arith α]

/-- **Texts are refused as documented.**  If a text is no formula, then some character or name of it
is no token, or its tokens break the grammar or have too many names, and the position that is
reported lies in the text.  There is one exception: a command word in which a long s, a dotless i or
a dotted capital I stands for a letter is read as that of a function, which is not found by it. -/
theorem read_error_documented {text : String} {e : ReadError}
    (h : (read text : Except ReadError (Formula α)) = .error e) :
    ((Failure.ofRead e).kind ∈ .lexical :: syntaxKinds ∧ ∃ p ≤ text.length, e.pos? = some p) ∨
      (∃ name, e = .grammar (.noFunction name) ∧ Fn.ofName? name = none) ∧
        ∃ c ∈ text.toList, c ∈ Lexer.strayLetters := by
  rw [← String.length_toList]
  obtain htext | ⟨ts, htext, hts⟩ := bind_eq_error.mp h
  · obtain ⟨e', he', rfl⟩ := mapError_eq_error.mp htext
    have hlt := Lexer.pos_of_tokenize_eq_error he'
    exact .inl ⟨List.mem_cons_self, e'.pos, hlt.le, rfl⟩
  · have htokens := mapError_eq_ok.mp htext
    obtain hloc | ⟨t, ht, name, hs, hname, rfl⟩ := locatedIn_or_word_of_ofTokens hts
    · exact .inl ⟨List.mem_cons_of_mem _ hloc.kind_mem,
        hloc.exists_pos (Lexer.stop_of_tokenize htokens).le fun t ht => Lexer.pos_le_of_mem htokens ht⟩
    · refine .inr ⟨⟨name, rfl, hname⟩, ?_⟩
      by_contra hnone
      have hplain : ∀ c ∈ text.toList, c ∉ Lexer.strayLetters := fun c hc hstray =>
        hnone ⟨c, hc, hstray⟩
      obtain ⟨f, rfl⟩ := Lexer.word_of_mem htokens hplain ht hs
      rw [Phrase.ofName?_eq_some.mpr rfl] at hname
      exact nomatch hname

/-- A bracket that nothing opened. -/
theorem read_closedVariable :
    ∃ e : ReadError, read (α := Float) "x)" = .error e ∧ (Failure.ofRead e).kind = .grouping ∧
      ∃ p ≤ 2, e.pos? = some p := by
  have hread : read (α := Float) "x)" = .error (.grammar (.unmatched ⟨some ")", 1⟩)) := by cbv
  obtain ⟨-, hpos⟩ | ⟨⟨name, hname, -⟩, -⟩ := read_error_documented hread
  · exact ⟨_, hread, rfl, hpos⟩
  · cases hname

/-- With a long s in front, the command word of the sine is taken for one, and then is none. -/
theorem read_longSine :
    ∃ e : ReadError, read (α := Float) "\\\u017fin x" = .error e ∧
      (Failure.ofRead e).kind = .structural ∧ e.pos? = none := by
  have hread : read (α := Float) "\\\u017fin x" = .error (.grammar (.noFunction "\u017fin")) := by
    cbv
  exact ⟨_, hread, rfl, rfl⟩

end Fluxion.Formula

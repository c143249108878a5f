import Fluxion.Proofs.Token.Lexer

/-!
# Fluxion.Proofs.Token.Origin

The tokens of a text, traced back to it.

* `readAt_of_mem`: every token is the symbol of a lexeme that stands at its position;
* `isName_of_mem`: what is read as a name is a name when it stands alone;
* `word_of_mem`: what is read as a command word of a function is one, unless a letter outside ASCII
  stands for one of its letters;
* `pos_of_tokensFrom_eq_error`: an error is reported inside the text.
-/

namespace Fluxion.Lexer

open Text

variable {α : Type} [Arith α] {cs : List Char} {n : Nat}

/-! ## lexemes and their tokens -/

/-- A lexeme is what the alternative of its kind measures. -/
theorem exists_alternative {kind : Kind} (h : lexeme? cs = some (kind, n)) :
    ∃ length, (kind, length) ∈ alternatives ∧ length cs = n ∧ n ≠ 0 := by
  obtain ⟨⟨k, length⟩, ha, hlen⟩ := List.exists_of_findSome?_eq_some h
  dsimp only at hlen
  split at hlen
  · exact nomatch hlen
  · rename_i hne
    cases hlen
    exact ⟨length, ha, rfl, hne⟩

theorem lexeme?_ne_zero {kind : Kind} (h : lexeme? cs = some (kind, n)) : n ≠ 0 := by
  obtain ⟨length, -, -, hne⟩ := exists_alternative h
  exact hne

/-- A token is read at the start of a text that has a given position. -/
structure ReadAt (t : Token α) (pos : Nat) (cs : List Char) (kind : Kind) (n : Nat) : Prop where
  lexeme : lexeme? cs = some (kind, n)
  short : kind = .name → n ≤ maxNameLength
  symbol : symbol? (cs.take n) kind = some t.symbol
  text : t.text = String.ofList (cs.take n)
  pos : t.pos = pos

/-- What is left of a text behind its first lexeme. -/
theorem drop_lexeme {kind : Kind} {c : Char} (h : lexeme? (c :: cs) = some (kind, n)) :
    cs.drop (n - 1) = (c :: cs).drop n := by
  obtain ⟨m, rfl⟩ := Nat.exists_eq_succ_of_ne_zero (lexeme?_ne_zero h)
  rfl

/-- Every token is the symbol of a lexeme that stands at its position. -/
theorem readAt_of_mem {pos : Nat} {cs : List Char} {ts : List (Token α)} {t : Token α}
    (h : tokensFrom pos cs = .ok ts) (ht : t ∈ ts) :
    ∃ before rest kind n, cs = before ++ rest ∧ rest ≠ [] ∧
      ReadAt t (pos + before.length) rest kind n := by
  match cs with
  | [] =>
      rw [tokensFrom_nil] at h
      cases h
      exact absurd ht List.not_mem_nil
  | c :: cs =>
      obtain ⟨kind, n, us, hlexeme, hshort, hus, rfl⟩ := tokensFrom_cons h
      obtain hfirst | hmem := List.mem_append.mp ht
      · cases hs : (symbol? ((c :: cs).take n) kind : Option (Symbol α)) with
        | none =>
            rw [tokenOf_none hs] at hfirst
            exact absurd hfirst List.not_mem_nil
        | some s =>
            rw [tokenOf_some hs, List.mem_singleton] at hfirst
            obtain rfl := hfirst
            exact ⟨[], c :: cs, kind, n, rfl, List.cons_ne_nil c cs, hlexeme, hshort, hs, rfl, rfl⟩
      · have hlt : (cs.drop (n - 1)).length < (c :: cs).length := by
          rw [List.length_drop, List.length_cons]
          omega
        obtain ⟨before, rest, kind', n', hsplit, hne, hat⟩ := readAt_of_mem hus hmem
        rw [drop_lexeme hlexeme] at hsplit
        have hlen : ((c :: cs).take n).length = n := by
          have hpos := List.length_pos_of_ne_nil hne
          have := congrArg List.length hsplit
          rw [List.length_drop, List.length_append] at this
          rw [List.length_take]
          omega
        have hwhole : c :: cs = (c :: cs).take n ++ before ++ rest := by
          rw [List.append_assoc, ← hsplit, List.take_append_drop]
        refine ⟨(c :: cs).take n ++ before, rest, kind', n', hwhole, hne, ?_⟩
        rwa [List.length_append, hlen, ← Nat.add_assoc]
termination_by cs.length

/-- An error is reported inside the text. -/
theorem pos_of_tokensFrom_eq_error {pos : Nat} {cs : List Char} {e : LexError}
    (h : (tokensFrom pos cs : Except LexError (List (Token α))) = .error e) :
    e.pos < pos + cs.length := by
  match cs with
  | [] =>
      rw [tokensFrom_nil] at h
      cases h
  | c :: cs =>
      cases hl : lexeme? (c :: cs) with
      | none =>
          rw [tokensFrom_of_none hl] at h
          obtain rfl := Except.error.inj h
          exact Nat.lt_add_of_pos_right (Nat.zero_lt_succ _)
      | some q =>
          obtain ⟨kind, n⟩ := q
          by_cases hlong : kind = .name ∧ maxNameLength < n
          · obtain ⟨rfl, hlong⟩ := hlong
            rw [tokensFrom_of_long hl hlong] at h
            obtain rfl := Except.error.inj h
            exact Nat.lt_add_of_pos_right (Nat.zero_lt_succ _)
          · have hname : kind = .name → n ≤ maxNameLength := fun hk =>
              Nat.le_of_not_lt fun hlt => hlong ⟨hk, hlt⟩
            rw [tokensFrom_of_lexeme hl hname] at h
            cases hr : (tokensFrom (pos + n) (cs.drop (n - 1)) :
                Except LexError (List (Token α))) with
            | ok ts =>
                rw [hr] at h
                cases h
            | error e' =>
                rw [hr] at h
                obtain rfl := Except.error.inj h
                have hlt : (cs.drop (n - 1)).length < (c :: cs).length := by
                  rw [List.length_drop, List.length_cons]
                  omega
                have hrest := pos_of_tokensFrom_eq_error hr
                have hne := lexeme?_ne_zero hl
                by_cases hempty : cs.length ≤ n - 1
                · rw [List.drop_eq_nil_of_le hempty, tokensFrom_nil] at hr
                  cases hr
                · rw [List.length_drop] at hrest
                  rw [List.length_cons]
                  omega
termination_by cs.length

/-- An error of a text is reported inside the text. -/
theorem pos_of_tokenize_eq_error {text : List Char} {e : LexError}
    (h : (tokenize text : Except LexError (Tokens α)) = .error e) : e.pos < text.length := by
  have herror : (tokensFrom 0 text : Except LexError (List (Token α))) = .error e := by
    rw [tokensFrom, ← tokenize, h]
    rfl
  simpa using pos_of_tokensFrom_eq_error herror

theorem pos_le_of_mem {text : List Char} {ts : Tokens α} (h : tokenize text = .ok ts) {t : Token α}
    (ht : t ∈ ts.tokens) : t.pos ≤ text.length := by
  have htokens := tokensFrom_of_tokenize h
  obtain ⟨before, rest, kind, n, rfl, -, hat⟩ := readAt_of_mem htokens ht
  rw [hat.pos, Nat.zero_add, List.length_append]
  omega

/-! ## names -/

theorem nameLength_take (h : nameLength cs = n) (hn : n ≠ 0) :
    nameLength (cs.take n) = (cs.take n).length := by
  cases cs with
  | nil => exact absurd h.symm hn
  | cons c cs =>
      rw [nameLength] at h
      split at h
      · rename_i hc
        obtain rfl := h
        have htake : cs.take (cs.takeWhile continuesName).length = cs.takeWhile continuesName :=
          (List.prefix_iff_eq_take.mp (List.takeWhile_prefix _)).symm
        rw [Nat.add_comm, List.take_succ_cons, htake, nameLength, if_pos hc,
          List.takeWhile_idem, List.length_cons, Nat.add_comm]
      · exact absurd h.symm hn

/-- A text that begins like a name is no number. -/
theorem numberLength_eq_zero_of_isNameChar {c : Char} (hc : isNameChar c = true) {cs l : List Char}
    (h : numberLength (c :: cs) = 0) : numberLength (c :: l) = 0 := by
  have hdot : c ≠ '.' := by
    rintro rfl
    exact absurd hc (by decide)
  by_cases hd : isDigit c = true
  · have hdigits : digitsLength (c :: cs) = (cs.takeWhile isDigit).length + 1 := by
      rw [digitsLength, List.takeWhile_cons_of_pos hd, List.length_cons]
    have hne : mantissaLength (c :: cs) ≠ 0 := by
      rw [mantissaLength, hdigits]
      split <;> simp_all
    rw [numberLength] at h
    simp [hne] at h
  · exact numberLength_eq_zero (Bool.eq_false_iff.mpr hd) hdot l

theorem startsWith_append_of_startsWith {word : List Char} (h : startsWith word cs = true)
    (rest : List Char) : startsWith word (cs ++ rest) = true := by
  induction word generalizing cs with
  | nil => rw [startsWith]
  | cons w word ih =>
      cases cs with
      | nil => cases h
      | cons c cs =>
          rw [startsWith, Bool.and_eq_true] at h
          rw [List.cons_append, startsWith, Bool.and_eq_true]
          exact ⟨h.1, ih h.2⟩

/-- No command word stands at the start of a piece of text if none does with more behind it. -/
theorem wordLength_eq_zero_of_append {word rest : List Char} (hw : word ≠ [])
    (h : wordLength word (cs ++ rest) = 0) : wordLength word cs = 0 := by
  unfold wordLength at h ⊢
  by_cases hs : startsWith word cs = true
  · rw [if_pos (startsWith_append_of_startsWith hs rest)] at h
    exact absurd (List.length_eq_zero_iff.mp h) hw
  · rw [if_neg hs]

theorem foldl_max_le {l : List Nat} {a m : Nat} : l.foldl max a ≤ m ↔ a ≤ m ∧ ∀ x ∈ l, x ≤ m := by
  induction l generalizing a with
  | nil => simp
  | cons x l ih =>
      rw [List.foldl_cons, ih, max_le_iff, List.forall_mem_cons, and_assoc]

theorem foldl_max_mem {l : List Nat} {a : Nat} : l.foldl max a = a ∨ l.foldl max a ∈ l := by
  induction l generalizing a with
  | nil => exact .inl rfl
  | cons x l ih =>
      rw [List.foldl_cons]
      obtain h | h := ih (a := max a x)
      · rw [h]
        obtain hm | hm := max_choice a x
        · exact .inl hm
        · exact .inr (by rw [hm]; exact List.mem_cons_self)
      · exact .inr (List.mem_cons_of_mem x h)

theorem functionLength_eq_zero_iff :
    functionLength cs = 0 ↔ ∀ word ∈ functionWords, wordLength word cs = 0 := by
  rw [functionLength, ← Nat.le_zero, foldl_max_le]
  simp

/-- The length of a function's command word is that of one of these words. -/
theorem exists_functionWord (h : functionLength cs ≠ 0) :
    ∃ word ∈ functionWords, functionLength cs = word.length ∧ startsWith word cs = true := by
  obtain hzero | hmem := foldl_max_mem (l := functionWords.map (wordLength · cs)) (a := 0)
  · exact absurd hzero h
  · obtain ⟨word, hword, hlen⟩ := List.mem_map.mp hmem
    have hlen' : functionLength cs = wordLength word cs := hlen.symm
    unfold wordLength at hlen'
    split at hlen'
    · rename_i hs
      exact ⟨word, hword, hlen', hs⟩
    · exact absurd hlen' h

/-- The alternatives before names measure nothing in a piece of a name, if they measure nothing in
the whole text. -/
theorem beforeNames_of_append {x : List Char} (rest : List Char) (hx : ∀ c ∈ x, isNameChar c = true)
    (hne : x ≠ []) (h : ∀ a ∈ beforeNames, a.2 (x ++ rest) = 0) : ∀ a ∈ beforeNames, a.2 x = 0 := by
  obtain ⟨c, l, rfl⟩ := List.exists_cons_of_ne_nil hne
  have hc := hx c List.mem_cons_self
  have hbracket {b : Char} (hb : b = '(' ∨ b = ')') {word : List Char}
      (hw : wordAvoidsBoundary word = true) : bracketLength word b (c :: l) = 0 := by
    have halone := bracketLength_append .stop hb hw hx hne
    rwa [List.append_nil] at halone
  intro a ha
  have h0 := h a ha
  simp only [beforeNames, alternatives, List.take, List.mem_cons, List.not_mem_nil, or_false] at ha
  obtain rfl | rfl | rfl | rfl | rfl | rfl | rfl | rfl | rfl | rfl | rfl := ha
  · exact numberLength_eq_zero_of_isNameChar hc h0
  · exact hbracket (.inl rfl) (by decide)
  · exact hbracket (.inr rfl) (by decide)
  · exact h0
  · exact h0
  · exact h0
  · exact h0
  · exact h0
  · exact wordLength_eq_zero_of_append (by decide) h0
  · exact wordLength_eq_zero_of_append (by decide) h0
  · rw [functionLength_eq_zero_iff] at h0 ⊢
    intro word hword
    have hne : word ≠ [] := by
      obtain ⟨f, -, rfl⟩ := List.mem_map.mp hword
      exact List.cons_ne_nil _ _
    exact wordLength_eq_zero_of_append hne (h0 word hword)

/-- What is read as a name is a name when it stands alone. -/
theorem isName_of_mem {text : List Char} {ts : Tokens α} (h : tokenize text = .ok ts) {t : Token α}
    (ht : t ∈ ts.tokens) {x : String} (hx : t.symbol = .name x) : IsName α x := by
  have htokens := tokensFrom_of_tokenize h
  obtain ⟨before, rest, kind, n, rfl, -, hat⟩ := readAt_of_mem htokens ht
  obtain ⟨rfl, hpiece⟩ := symbol?_eq_name (hat.symbol.trans (congrArg some hx))
  obtain ⟨hzero, hlen, hne⟩ := lexeme?_eq_name.mp hat.lexeme
  have hpieceLen := nameLength_take hlen hne
  have hle := nameLength_le rest
  have hn : (rest.take n).length = n := by
    rw [List.length_take]
    omega
  rw [isName_iff, ← hpiece, hn]
  constructor
  · apply lexeme?_eq_name.mpr
    refine ⟨?_, by rw [hpieceLen, hn], hne⟩
    apply beforeNames_of_append (rest.drop n) (isNameChar_of_nameLength hpieceLen)
    · intro hnil
      rw [hnil] at hn
      exact hne hn.symm
    · rwa [List.take_append_drop]
  · exact hat.short rfl

/-! ## command words of functions -/

/-- Letters that are taken for a letter of a command word, but have another small form than it. -/
def strayLetters : List Char := ['\u017f', '\u0131', '\u0130']

theorem lowered_of_isFormOf {w c : Char} (hw : w ≠ 'k') (hc : c ∉ strayLetters)
    (h : isFormOf w c = true) : lowered c = [w] := by
  simp only [strayLetters, List.mem_cons, List.not_mem_nil, or_false, not_or] at hc
  obtain ⟨hlong, hdotless, hdotted⟩ := hc
  have hlower : c.toLower = w := by
    simpa [isFormOf, hw, hlong, hdotless, hdotted] using h
  rw [lowered, hlower, if_neg (by simpa using hdotted)]

theorem lowered_of_startsWith {word : List Char} (hw : 'k' ∉ word)
    (hcs : ∀ c ∈ cs, c ∉ strayLetters) (h : startsWith word cs = true) :
    (cs.take word.length).flatMap lowered = word := by
  induction word generalizing cs with
  | nil => rfl
  | cons w word ih =>
      cases cs with
      | nil => exact nomatch h
      | cons c cs =>
          rw [startsWith, Bool.and_eq_true] at h
          rw [List.mem_cons, not_or] at hw
          rw [List.length_cons, List.take_succ_cons, List.flatMap_cons,
            lowered_of_isFormOf (Ne.symm hw.1) (hcs c List.mem_cons_self) h.1,
            ih hw.2 (fun c hc => hcs c (List.mem_cons_of_mem _ hc)) h.2, List.singleton_append]

theorem symbol?_eq_function {kind : Kind} {text : List Char} {name : String}
    (h : symbol? text kind = some (.function name : Symbol α)) :
    kind = .function ∧ name = String.ofList ((text.drop 1).flatMap lowered) := by
  cases kind with
  | function => exact ⟨rfl, (Symbol.function.inj (Option.some.inj h)).symm⟩
  | _ => exact nomatch h

theorem lexeme?_eq_function (h : lexeme? cs = some (.function, n)) : functionLength cs = n := by
  obtain ⟨length, ha, hlen, -⟩ := exists_alternative h
  simp only [alternatives, List.mem_cons, Prod.mk.injEq, reduceCtorEq, false_and, true_and, false_or,
    or_false, List.not_mem_nil] at ha
  rwa [← ha]

/-- What is read as a command word is that of a function, unless a letter outside ASCII stands for
one of its letters. -/
theorem word_of_mem {text : List Char} {ts : Tokens α} (h : tokenize text = .ok ts)
    (htext : ∀ c ∈ text, c ∉ strayLetters) {t : Token α} (ht : t ∈ ts.tokens) {name : String}
    (hs : t.symbol = .function name) : ∃ f : Fn, name = f.name := by
  have htokens := tokensFrom_of_tokenize h
  obtain ⟨before, rest, kind, n, rfl, -, hat⟩ := readAt_of_mem htokens ht
  obtain ⟨rfl, rfl⟩ := symbol?_eq_function (hat.symbol.trans (congrArg some hs))
  have hlen := lexeme?_eq_function hat.lexeme
  have hne := lexeme?_ne_zero hat.lexeme
  rw [← hlen] at hne
  obtain ⟨word, hword, hwordLen, hstarts⟩ := exists_functionWord hne
  obtain ⟨f, -, rfl⟩ := List.mem_map.mp hword
  have hk : 'k' ∉ f.name.toList := by cases f <;> decide
  cases rest with
  | nil => exact nomatch hstarts
  | cons c rest =>
      rw [startsWith, Bool.and_eq_true] at hstarts
      have hrest : ∀ c ∈ rest, c ∉ strayLetters := fun c hc =>
        htext c (List.mem_append_right _ (List.mem_cons_of_mem _ hc))
      have hlower := lowered_of_startsWith hk hrest hstarts.2
      refine ⟨f, ?_⟩
      rw [← hlen, hwordLen, List.length_cons, List.take_succ_cons, List.drop_one, List.tail_cons,
        hlower, String.ofList_toList]

end Fluxion.Lexer

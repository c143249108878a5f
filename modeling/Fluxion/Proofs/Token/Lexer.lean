import Fluxion.Proofs.Except
import Fluxion.Proofs.Formula.Grammar
import Fluxion.Proofs.Token.Measure

/-!
# Fluxion.Proofs.Token.Lexer

Cutting text into tokens, piece by piece.

A text lexes as a list of symbols if it is cut into tokens of these symbols, wherever it stands
(`Lexes`).  A piece of text in front of it adds the symbol of that piece, provided that the piece is
measured in the whole text as it is on its own; for names and numbers the rest of the text must
begin at a boundary.

* `lexes_name`, `lexes_number`, `lexes_function`: the pieces that have a value;
* `lexes_open`, `lexes_close`, `Joins.lexes`: brackets, and signs between blanks;
* `isName_iff`: the texts that are read as one name.
-/

namespace Fluxion.Lexer

open Text

variable {α : Type} [Arith α] {cs rest text : List Char} {l : List (Symbol α)} {n : Nat}

/-! ## tokens and the end of the text -/

/-- The tokens of a text whose first character has a given position, without its end. -/
def tokensFrom (pos : Nat) (cs : List Char) : Except LexError (List (Token α)) :=
  (scan pos cs).map Tokens.tokens

/-- A text without characters has no tokens. -/
@[simp] theorem tokensFrom_nil (pos : Nat) :
    (tokensFrom pos [] : Except LexError (List (Token α))) = .ok [] := by
  rw [tokensFrom, scan]
  rfl

/-- A character that no lexeme begins with is an error. -/
theorem tokensFrom_of_none {c : Char} (h : lexeme? (c :: cs) = none) (pos : Nat) :
    (tokensFrom pos (c :: cs) : Except LexError (List (Token α))) =
      .error (.invalidSymbol c pos) := by
  rw [tokensFrom, scan, h]
  rfl

/-- A name that is too long is an error. -/
theorem tokensFrom_of_long {c : Char} (h : lexeme? (c :: cs) = some (.name, n))
    (hlong : maxNameLength < n) (pos : Nat) :
    (tokensFrom pos (c :: cs) : Except LexError (List (Token α))) =
      .error (.longName ((c :: cs).take n) pos) := by
  rw [tokensFrom, scan, h]
  simp only [true_and, if_pos hlong]
  rfl

/-- The tokens of a text without its end. -/
theorem tokensFrom_of_tokenize {ts : Tokens α} (h : tokenize text = .ok ts) :
    tokensFrom 0 text = .ok ts.tokens := by
  rw [tokensFrom, ← tokenize, h]
  rfl

/-- Tokens from the beginning of a text are those of the text. -/
theorem exists_tokenize {ts : List (Token α)} (h : tokensFrom 0 text = .ok ts) :
    ∃ stop, tokenize text = .ok ⟨ts, stop⟩ := by
  obtain ⟨us, hus, rfl⟩ := map_eq_ok.mp h
  exact ⟨us.stop, hus⟩

/-! ## pieces of text -/

/-- A text is cut into tokens of these symbols, wherever it stands. -/
def Lexes (cs : List Char) (l : List (Symbol α)) : Prop :=
  ∀ pos, ∃ ts : List (Token α), tokensFrom pos cs = .ok ts ∧ symbols ts = l

theorem lexes_nil : Lexes [] ([] : List (Symbol α)) := by
  intro pos
  exact ⟨[], tokensFrom_nil pos, rfl⟩

/-- The token of a lexeme, if it has one. -/
def tokenOf (pos : Nat) (text : List Char) (kind : Kind) : List (Token α) :=
  ((symbol? text kind).map fun s => ⟨s, String.ofList text, pos⟩).toList

/-- A lexeme with a symbol gives one token. -/
theorem tokenOf_some {kind : Kind} {s : Symbol α} (h : symbol? text kind = some s) (pos : Nat) :
    tokenOf pos text kind = [⟨s, String.ofList text, pos⟩] := by
  rw [tokenOf, h]
  rfl

/-- A lexeme without a symbol gives none. -/
theorem tokenOf_none {kind : Kind} (h : (symbol? text kind : Option (Symbol α)) = none)
    (pos : Nat) : (tokenOf pos text kind : List (Token α)) = [] := by
  rw [tokenOf, h]
  rfl

/-- A lexeme is cut off, and the rest of the text is cut into tokens. -/
theorem tokensFrom_of_lexeme {c : Char} {kind : Kind} (h : lexeme? (c :: cs) = some (kind, n))
    (hname : kind = .name → n ≤ maxNameLength) (pos : Nat) :
    (tokensFrom pos (c :: cs) : Except LexError (List (Token α))) =
      (tokensFrom (pos + n) (cs.drop (n - 1))).map (tokenOf pos ((c :: cs).take n) kind ++ ·) := by
  have hlong : ¬(kind = .name ∧ maxNameLength < n) := by
    intro hlong
    exact Nat.not_lt.mpr (hname hlong.1) hlong.2
  rw [tokensFrom, scan, h, tokensFrom]
  simp only [if_neg hlong]
  cases (scan (pos + n) (cs.drop (n - 1)) : Except LexError (Tokens α)) with
  | error e => rfl
  | ok ts =>
      rw [tokenOf]
      cases (symbol? ((c :: cs).take n) kind : Option (Symbol α)) with
      | some s => rfl
      | none => rfl

/-- A lexeme in front of more text. -/
theorem tokensFrom_append {kind : Kind} (hne : text ≠ [])
    (h : lexeme? (text ++ rest) = some (kind, text.length))
    (hname : kind = .name → text.length ≤ maxNameLength) (pos : Nat) :
    (tokensFrom pos (text ++ rest) : Except LexError (List (Token α))) =
      (tokensFrom (pos + text.length) rest).map (tokenOf pos text kind ++ ·) := by
  cases text with
  | nil => exact absurd rfl hne
  | cons c cs =>
      rw [List.cons_append] at h ⊢
      have htext : (c :: (cs ++ rest)).take (c :: cs).length = c :: cs := by
        rw [← List.cons_append, List.take_left']
        rfl
      have hdrop : (cs ++ rest).drop ((c :: cs).length - 1) = rest := List.drop_left' rfl
      rw [tokensFrom_of_lexeme h hname, htext, hdrop]

/-- A lexeme in front of a text gives its symbol in front of the others. -/
theorem Lexes.cons {kind : Kind} {s : Symbol α} (hrest : Lexes rest l) (hne : text ≠ [])
    (h : lexeme? (text ++ rest) = some (kind, text.length)) (hs : symbol? text kind = some s)
    (hname : kind = .name → text.length ≤ maxNameLength) : Lexes (text ++ rest) (s :: l) := by
  intro pos
  obtain ⟨ts, hts, hl⟩ := hrest (pos + text.length)
  rw [tokensFrom_append hne h hname, hts, tokenOf_some hs]
  exact ⟨⟨s, String.ofList text, pos⟩ :: ts, rfl, by rw [symbols_cons, hl]⟩

/-- A lexeme that is no name may be of any length. -/
theorem Lexes.other {kind : Kind} {s : Symbol α} (hrest : Lexes rest l) (hne : text ≠ [])
    (h : lexeme? (text ++ rest) = some (kind, text.length)) (hs : symbol? text kind = some s)
    (hkind : kind ≠ .name) : Lexes (text ++ rest) (s :: l) :=
  hrest.cons hne h hs fun hk => absurd hk hkind

/-- A character in front of a text gives its symbol in front of the others. -/
theorem Lexes.char {c : Char} {kind : Kind} {s : Symbol α} (hrest : Lexes rest l)
    (h : lexeme? (c :: rest) = some (kind, 1)) (hs : symbol? [c] kind = some s)
    (hkind : kind ≠ .name) : Lexes (c :: rest) (s :: l) := by
  have hne : [c] ≠ [] := List.cons_ne_nil c []
  rw [← List.singleton_append] at h ⊢
  exact hrest.other hne h hs hkind

/-- White space gives no token. -/
theorem Lexes.blank (hrest : Lexes rest l) (h : lexeme? (' ' :: rest) = some (.blank, 1)) :
    Lexes (' ' :: rest) l := by
  intro pos
  obtain ⟨ts, hts, hl⟩ := hrest (pos + 1)
  have hne : [' '] ≠ [] := List.cons_ne_nil ' ' []
  have hcut := tokensFrom_append (α := α) hne h (fun hk => absurd hk (by decide)) pos
  rw [List.singleton_append, List.length_singleton, hts, tokenOf_none rfl] at hcut
  exact ⟨ts, hcut, hl⟩

/-! ## names and numbers -/

/-- The alternatives that are tried before names. -/
def beforeNames : List (Kind × (List Char → Nat)) := alternatives.take 11

/-- The lexeme of one alternative. -/
def attempt (cs : List Char) (a : Kind × (List Char → Nat)) : Option (Kind × Nat) :=
  if a.2 cs = 0 then none else some (a.1, a.2 cs)

theorem attempt_eq_none {a : Kind × (List Char → Nat)} : attempt cs a = none ↔ a.2 cs = 0 := by
  simp [attempt]

/-- Names are tried after all but white space. -/
theorem lexeme?_eq (cs : List Char) :
    lexeme? cs = (beforeNames.findSome? (attempt cs)).or
      ((attempt cs (Kind.name, nameLength)).or (attempt cs (Kind.blank, blankLength))) := by
  have hsplit : alternatives =
      beforeNames ++ [(Kind.name, nameLength), (Kind.blank, blankLength)] := rfl
  have hlexeme : lexeme? cs = alternatives.findSome? (attempt cs) := rfl
  rw [hlexeme, hsplit, List.findSome?_append, List.findSome?_cons, List.findSome?_cons,
    List.findSome?_nil]
  cases attempt cs (Kind.name, nameLength) <;> cases attempt cs (Kind.blank, blankLength) <;> rfl

/-- What is tried before names is not a name. -/
theorem kind_of_beforeNames {kind : Kind}
    (h : beforeNames.findSome? (attempt cs) = some (kind, n)) : kind ≠ .name := by
  have hkinds : ∀ a ∈ beforeNames, a.1 ≠ .name := by decide
  obtain ⟨a, ha, hq⟩ := List.exists_of_findSome?_eq_some h
  unfold attempt at hq
  by_cases hz : a.2 cs = 0
  · rw [if_pos hz] at hq
    exact nomatch hq
  · rw [if_neg hz] at hq
    cases hq
    exact hkinds a ha

/-- A name is found where nothing is found that is tried before. -/
theorem lexeme?_eq_name :
    lexeme? cs = some (.name, n) ↔
      (∀ a ∈ beforeNames, a.2 cs = 0) ∧ nameLength cs = n ∧ n ≠ 0 := by
  rw [lexeme?_eq]
  cases hb : beforeNames.findSome? (attempt cs) with
  | some q =>
      obtain ⟨kind, m⟩ := q
      have hkind := kind_of_beforeNames hb
      obtain ⟨a, ha, hq⟩ := List.exists_of_findSome?_eq_some hb
      constructor
      · intro h
        cases h
        exact absurd rfl hkind
      · intro ⟨hzero, _⟩
        rw [attempt_eq_none.mpr (hzero a ha)] at hq
        exact nomatch hq
  | none =>
      have hzero : ∀ a ∈ beforeNames, a.2 cs = 0 := fun a ha =>
        attempt_eq_none.mp (List.findSome?_eq_none_iff.mp hb a ha)
      rw [Option.none_or, attempt]
      by_cases hn : nameLength cs = 0
      · rw [if_pos hn, Option.none_or, attempt]
        constructor
        · intro h
          split at h <;> cases h
        · intro ⟨_, hlen, hne⟩
          exact absurd (hlen.symm.trans hn) hne
      · rw [if_neg hn, Option.some_or]
        constructor
        · intro h
          cases h
          exact ⟨hzero, rfl, hn⟩
        · intro ⟨_, hlen, _⟩
          exact congrArg (fun m => some (Kind.name, m)) hlen

theorem charLength_append (c : Char) (hne : cs ≠ []) (rest : List Char) :
    charLength c (cs ++ rest) = charLength c cs := by
  cases cs with
  | nil => exact absurd rfl hne
  | cons d cs => rfl

/-- What follows a boundary does not make a name something else. -/
theorem beforeNames_append (h : Boundary rest) (hcs : ∀ c ∈ cs, isNameChar c = true) (hne : cs ≠ [])
    (hzero : ∀ a ∈ beforeNames, a.2 cs = 0) : ∀ a ∈ beforeNames, a.2 (cs ++ rest) = 0 := by
  intro a ha
  have hcs0 := hzero a ha
  simp only [beforeNames, alternatives, List.take, List.mem_cons, List.not_mem_nil, or_false] at ha
  obtain rfl | rfl | rfl | rfl | rfl | rfl | rfl | rfl | rfl | rfl | rfl := ha
  · exact (numberLength_append h cs).trans hcs0
  · exact bracketLength_append h (.inl rfl) (by decide) hcs hne
  · exact bracketLength_append h (.inr rfl) (by decide) hcs hne
  · exact (charLength_append _ hne rest).trans hcs0
  · exact (charLength_append _ hne rest).trans hcs0
  · exact (charLength_append _ hne rest).trans hcs0
  · exact (charLength_append _ hne rest).trans hcs0
  · exact (charLength_append _ hne rest).trans hcs0
  · exact (wordLength_append h (by decide) cs).trans hcs0
  · exact (wordLength_append h (by decide) cs).trans hcs0
  · exact (functionLength_append h cs).trans hcs0

/-- A name is measured in front of a boundary as it is on its own. -/
theorem lexeme?_name_append (h : Boundary rest) (hname : lexeme? cs = some (.name, cs.length)) :
    lexeme? (cs ++ rest) = some (.name, cs.length) := by
  obtain ⟨hzero, hlen, hne⟩ := lexeme?_eq_name.mp hname
  have hnil : cs ≠ [] := by
    intro hcs
    rw [hcs] at hne
    exact hne rfl
  apply lexeme?_eq_name.mpr
  constructor
  · exact beforeNames_append h (isNameChar_of_nameLength hlen) hnil hzero
  · exact ⟨by rw [nameLength_append h hnil, hlen], hne⟩

/-- Numbers are tried first. -/
theorem lexeme?_number (h : numberLength cs ≠ 0) :
    lexeme? cs = some (.number, numberLength cs) := by
  simp [lexeme?, alternatives, h]

/-- The text of a number before a boundary gives its value. -/
theorem lexes_number (h : Boundary rest) (htext : numberLength text = text.length)
    (hne : text ≠ []) (hrest : Lexes rest l) :
    Lexes (text ++ rest)
      (.number (Arith.ofDecimal (readNumber text).1 (readNumber text).2) :: l) := by
  have hlen : numberLength (text ++ rest) = text.length := by rw [numberLength_append h, htext]
  have hpos : numberLength (text ++ rest) ≠ 0 := by
    rw [hlen]
    exact fun hzero => hne (List.length_eq_zero_iff.mp hzero)
  have hlexeme := lexeme?_number hpos
  rw [hlen] at hlexeme
  exact hrest.other hne hlexeme rfl (by decide)

/-- The text of a name before a boundary gives the name. -/
theorem lexes_name (h : Boundary rest) (hname : lexeme? text = some (.name, text.length))
    (hlen : text.length ≤ maxNameLength) (hrest : Lexes rest l) :
    Lexes (text ++ rest) (.name (String.ofList text) :: l) := by
  have hne : text ≠ [] := by
    intro hnil
    rw [hnil] at hname
    exact absurd hname (by decide)
  exact hrest.cons hne (lexeme?_name_append h hname) rfl fun _ => hlen

/-! ## signs, brackets and functions -/

theorem wordLength_blank (word cs : List Char) : wordLength ('\\' :: word) (' ' :: cs) = 0 := rfl

/-- White space is not a bracket. -/
theorem bracketLength_blank {b : Char} (hb : b = '(' ∨ b = ')') (word cs : List Char) :
    bracketLength ('\\' :: word) b (' ' :: cs) = 0 := by
  simp only [bracketLength, wordLength_blank, bne_self_eq_false, Bool.false_and,
    Bool.false_eq_true, if_false]
  obtain rfl | rfl := hb <;> rfl

/-- White space is not the name of a function. -/
theorem functionLength_blank (cs : List Char) : functionLength (' ' :: cs) = 0 := by
  rw [functionLength, functionWords, List.map_map]
  have hzero : (wordLength · (' ' :: cs)) ∘ (fun f : Fn => '\\' :: f.name.toList) = fun _ => 0 :=
    funext fun f => wordLength_blank f.name.toList cs
  rw [hzero]
  rfl

/-- White space is nothing that is tried before names. -/
theorem beforeNames_blank (cs : List Char) : ∀ a ∈ beforeNames, a.2 (' ' :: cs) = 0 := by
  intro a ha
  simp only [beforeNames, alternatives, List.take, List.mem_cons, List.not_mem_nil, or_false] at ha
  obtain rfl | rfl | rfl | rfl | rfl | rfl | rfl | rfl | rfl | rfl | rfl := ha
  · rfl
  · exact bracketLength_blank (.inl rfl) "left".toList cs
  · exact bracketLength_blank (.inr rfl) "right".toList cs
  · rfl
  · rfl
  · rfl
  · rfl
  · rfl
  · exact wordLength_blank "cdot".toList cs
  · exact wordLength_blank "frac".toList cs
  · exact functionLength_blank cs

/-- White space before a word ends there. -/
theorem lexeme?_blank {c : Char} (hc : isBlank c = false) (cs : List Char) :
    lexeme? (' ' :: c :: cs) = some (.blank, 1) := by
  have hlen : blankLength (' ' :: c :: cs) = 1 := by
    rw [blankLength, List.takeWhile_cons, List.takeWhile_cons, hc]
    rfl
  have hbefore : beforeNames.findSome? (attempt (' ' :: c :: cs)) = none :=
    List.findSome?_eq_none_iff.mpr fun a ha =>
      attempt_eq_none.mpr (beforeNames_blank (c :: cs) a ha)
  have hname : attempt (' ' :: c :: cs) (Kind.name, nameLength) = none := attempt_eq_none.mpr rfl
  have hblank : attempt (' ' :: c :: cs) (Kind.blank, blankLength) = some (.blank, 1) := by
    simp only [attempt, hlen]
    rfl
  rw [lexeme?_eq, hbefore, hname, hblank]
  rfl

/-- A text that does not begin with white space. -/
def Starts (cs : List Char) : Prop := ∃ c ds, cs = c :: ds ∧ isBlank c = false

/-- What does not begin with white space does so whatever follows. -/
theorem Starts.append (h : Starts cs) (rest : List Char) : Starts (cs ++ rest) := by
  obtain ⟨c, ds, rfl, hc⟩ := h
  exact ⟨c, ds ++ rest, rfl, hc⟩

/-- A space in front of a text does not matter. -/
theorem Lexes.afterBlank (hs : Starts rest) (hrest : Lexes rest l) : Lexes (' ' :: rest) l := by
  obtain ⟨c, ds, rfl, hc⟩ := hs
  exact hrest.blank (lexeme?_blank hc ds)

/-- A plus in front of a text. -/
theorem lexes_plus (hrest : Lexes rest l) : Lexes ('+' :: rest) (.plus :: l) :=
  hrest.char rfl rfl (by decide)

/-- A minus in front of a text. -/
theorem lexes_minus (hrest : Lexes rest l) : Lexes ('-' :: rest) (.minus :: l) :=
  hrest.char rfl rfl (by decide)

/-- A caret in front of a text. -/
theorem lexes_caret (hrest : Lexes rest l) : Lexes ('^' :: rest) (.caret :: l) :=
  hrest.char rfl rfl (by decide)

/-- A dot in front of a text. -/
theorem lexes_dot (hrest : Lexes rest l) : Lexes ("\\cdot".toList ++ rest) (.dot :: l) := by
  have h : lexeme? ("\\cdot".toList ++ rest) = some (.dot, 5) := by cbv
  exact hrest.other (by decide) h rfl (by decide)

/-- The word of a fraction in front of a text. -/
theorem lexes_fraction (hrest : Lexes rest l) :
    Lexes ("\\frac".toList ++ rest) (.fraction :: l) := by
  have h : lexeme? ("\\frac".toList ++ rest) = some (.fraction, 5) := by cbv
  exact hrest.other (by decide) h rfl (by decide)

/-- The word of a function in front of a space or a brace. -/
theorem lexes_function (f : Fn) {c : Char} (hc : c = ' ' ∨ c = '\x7b')
    (hrest : Lexes (c :: rest) l) :
    Lexes ('\\' :: (f.name.toList ++ c :: rest)) (.function f.name :: l) := by
  have h : lexeme? ('\\' :: (f.name.toList ++ c :: rest)) =
      some (.function, ('\\' :: f.name.toList).length) := by
    obtain rfl | rfl := hc
    · cases f <;> cbv
    · cases f <;> cbv
  have hs : symbol? ('\\' :: f.name.toList) .function = some (.function f.name : Symbol α) := by
    cases f <;> cbv
  exact hrest.other (List.cons_ne_nil _ _) h hs (by decide)

/-- The characters of an opening bracket as it is written. -/
def openText : Bracket → List Char
  | .paren => "\\left(".toList
  | .curly => ['\x7b']

/-- The characters of a closing bracket as it is written. -/
def closeText : Bracket → List Char
  | .paren => " \\right)".toList
  | .curly => ['\x7d']

/-- An opening bracket in front of a text. -/
theorem lexes_open (b : Bracket) (hrest : Lexes rest l) :
    Lexes (openText b ++ rest) (b.opening :: l) := by
  cases b with
  | paren =>
      have h : lexeme? ("\\left(".toList ++ rest) = some (.openParen, 6) := by cbv
      exact hrest.other (by decide) h rfl (by decide)
  | curly => exact hrest.char rfl rfl (by decide)

/-- A closing bracket in front of a text. -/
theorem lexes_close (b : Bracket) (hrest : Lexes rest l) :
    Lexes (closeText b ++ rest) (b.closing :: l) := by
  cases b with
  | paren =>
      have h : lexeme? ("\\right)".toList ++ rest) = some (.closeParen, 7) := by cbv
      have hword : Lexes ("\\right)".toList ++ rest) (.closeParen :: l) :=
        hrest.other (by decide) h rfl (by decide)
      exact hword.afterBlank ⟨'\\', _, rfl, by decide⟩
  | curly => exact hrest.char rfl rfl (by decide)

/-- A closing bracket, with the blank that may be written before it, is a boundary. -/
theorem boundary_close (b : Bracket) (cs : List Char) : Boundary (closeText b ++ cs) := by
  cases b with
  | paren => exact .blank _ (.inr (.inr rfl))
  | curly => exact .curly cs

/-- The signs between operands, as they are written. -/
inductive Joins : List Char → Symbol α → Prop where
  | plus : Joins " + ".toList .plus
  | minus : Joins " - ".toList .minus
  | dot : Joins " \\cdot ".toList .dot

omit [Arith α] in
/-- What joins two texts begins with a boundary. -/
theorem Joins.boundary {sign : Symbol α} (h : Joins text sign) (cs : List Char) :
    Boundary (text ++ cs) := by
  cases h with
  | plus => exact .blank _ (.inl rfl)
  | minus => exact .blank _ (.inr (.inl rfl))
  | dot => exact .blank _ (.inr (.inr rfl))

/-- What joins two texts gives its symbol. -/
theorem Joins.lexes {sign : Symbol α} (h : Joins text sign) (hs : Starts rest)
    (hrest : Lexes rest l) : Lexes (text ++ rest) (sign :: l) := by
  have hblank := hrest.afterBlank hs
  cases h with
  | plus => exact (lexes_plus hblank).afterBlank ⟨'+', _, rfl, by decide⟩
  | minus => exact (lexes_minus hblank).afterBlank ⟨'-', _, rfl, by decide⟩
  | dot => exact (lexes_dot hblank).afterBlank ⟨'\\', _, rfl, by decide⟩

/-! ## texts that are one name -/

/-- A text is read as one token, a name. -/
def IsName (α : Type) [Arith α] (x : String) : Prop :=
  ∃ ts : Tokens α, tokenize x.toList = .ok ts ∧ symbols ts.tokens = [.name x]

/-- Only names give names. -/
theorem symbol?_eq_name {kind : Kind} {x : String}
    (h : symbol? text kind = some (.name x : Symbol α)) : kind = .name ∧ text = x.toList := by
  cases kind with
  | name =>
      obtain rfl : String.ofList text = x := Symbol.name.inj (Option.some.inj h)
      exact ⟨rfl, String.toList_ofList.symm⟩
  | _ => exact nomatch h

/-- Tokens of a text are the token of its first lexeme and the tokens of the rest. -/
theorem tokensFrom_cons {pos : Nat} {c : Char} {ts : List (Token α)}
    (h : tokensFrom pos (c :: cs) = .ok ts) :
    ∃ kind n us, lexeme? (c :: cs) = some (kind, n) ∧ (kind = .name → n ≤ maxNameLength) ∧
      tokensFrom (pos + n) (cs.drop (n - 1)) = .ok us ∧
      ts = tokenOf pos ((c :: cs).take n) kind ++ us := by
  cases hl : lexeme? (c :: cs) with
  | none =>
      rw [tokensFrom_of_none hl] at h
      cases h
  | some q =>
      obtain ⟨kind, n⟩ := q
      by_cases hlong : kind = .name ∧ maxNameLength < n
      · obtain ⟨rfl, hlong⟩ := hlong
        rw [tokensFrom_of_long hl hlong] at h
        cases h
      · have hname : kind = .name → n ≤ maxNameLength := fun hk =>
          Nat.le_of_not_lt fun hlt => hlong ⟨hk, hlt⟩
        rw [tokensFrom_of_lexeme hl hname] at h
        obtain ⟨us, hus, rfl⟩ := map_eq_ok.mp h
        exact ⟨kind, n, us, rfl, hname, hus, rfl⟩

/-- A name among the tokens of a text is no longer than the text. -/
theorem length_le_of_mem {pos : Nat} {cs : List Char} {ts : List (Token α)} {x : String}
    (h : tokensFrom pos cs = .ok ts) (hx : .name x ∈ symbols ts) :
    x.toList.length ≤ cs.length := by
  match cs with
  | [] =>
      rw [tokensFrom_nil] at h
      cases h
      exact absurd hx List.not_mem_nil
  | c :: cs =>
      obtain ⟨kind, n, us, -, -, hus, rfl⟩ := tokensFrom_cons h
      have hlen : (cs.drop (n - 1)).length ≤ cs.length := by
        rw [List.length_drop]
        omega
      have hrest : .name x ∈ symbols us → x.toList.length ≤ (c :: cs).length := fun hmem =>
        (length_le_of_mem hus hmem).trans (hlen.trans (Nat.le_succ _))
      cases hs : (symbol? ((c :: cs).take n) kind : Option (Symbol α)) with
      | none =>
          rw [tokenOf_none hs, List.nil_append] at hx
          exact hrest hx
      | some s =>
          rw [tokenOf_some hs, List.singleton_append, symbols_cons] at hx
          obtain rfl | hmem := List.mem_cons.mp hx
          · rw [← (symbol?_eq_name hs).2]
            exact List.length_take_le' n (c :: cs)
          · exact hrest hmem
termination_by cs.length
decreasing_by
  rw [List.length_cons]
  omega

/-- A text that is read as one name is one lexeme. -/
theorem IsName.lexeme {x : String} (h : IsName α x) :
    lexeme? x.toList = some (.name, x.toList.length) ∧ x.toList.length ≤ maxNameLength := by
  obtain ⟨tokens, htokens, hl⟩ := h
  have hts := tokensFrom_of_tokenize htokens
  generalize tokens.tokens = ts at hts hl
  cases hx : x.toList with
  | nil =>
      rw [hx, tokensFrom_nil] at hts
      cases hts
      rw [symbols_nil] at hl
      cases hl
  | cons c cs =>
      rw [hx] at hts
      obtain ⟨kind, n, us, hlexeme, hname, hus, rfl⟩ := tokensFrom_cons hts
      cases hs : (symbol? ((c :: cs).take n) kind : Option (Symbol α)) with
      | none =>
          -- white space in front leaves too little for the name
          rw [tokenOf_none hs, List.nil_append] at hl
          have hlen := length_le_of_mem hus (hl ▸ List.mem_cons_self)
          rw [hx, List.length_cons, List.length_drop] at hlen
          omega
      | some s =>
          rw [tokenOf_some hs, List.singleton_append, symbols_cons] at hl
          obtain ⟨rfl, htext⟩ := symbol?_eq_name (hs.trans (congrArg some (List.cons.inj hl).1))
          rw [hx, List.take_eq_self_iff] at htext
          have hle := nameLength_le (c :: cs)
          rw [(lexeme?_eq_name.mp hlexeme).2.1] at hle
          rw [hlexeme, Nat.le_antisymm htext hle]
          exact ⟨rfl, hname rfl⟩

/-- One name is read of a text exactly if the text is one lexeme, and no longer than a name is. -/
theorem isName_iff {x : String} :
    IsName α x ↔
      lexeme? x.toList = some (.name, x.toList.length) ∧ x.toList.length ≤ maxNameLength := by
  constructor
  · exact IsName.lexeme
  · intro ⟨hlexeme, hlen⟩
    obtain ⟨ts, hts, hl⟩ := lexes_name (α := α) .stop hlexeme hlen lexes_nil 0
    rw [List.append_nil] at hts
    rw [String.ofList_toList] at hl
    obtain ⟨stop, htext⟩ := exists_tokenize hts
    exact ⟨⟨ts, stop⟩, htext, hl⟩

instance (x : String) : Decidable (IsName α x) := decidable_of_iff' _ isName_iff

/-- A name does not begin with white space. -/
theorem IsName.starts {x : String} (h : IsName α x) : Starts x.toList := by
  obtain ⟨hlexeme, -⟩ := h.lexeme
  obtain ⟨-, hlen, hne⟩ := lexeme?_eq_name.mp hlexeme
  cases htext : x.toList with
  | nil => exact absurd (by rw [htext, List.length_nil]) hne
  | cons c cs =>
      have hc := isNameChar_of_nameLength hlen c (htext ▸ List.mem_cons_self)
      exact ⟨c, cs, rfl, isBlank_of_isNameChar hc⟩

/-- A name before a boundary gives itself. -/
theorem lexes_isName {x : String} (hx : IsName α x) (h : Boundary rest) (hrest : Lexes rest l) :
    Lexes (x.toList ++ rest) (.name x :: l) := by
  obtain ⟨hlexeme, hlen⟩ := hx.lexeme
  have hcut := lexes_name h hlexeme hlen hrest
  rw [String.ofList_toList] at hcut
  exact hcut

end Fluxion.Lexer

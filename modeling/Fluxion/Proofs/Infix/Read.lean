import Fluxion.Expr.Infix
import Fluxion.Infix.Read
import Fluxion.Number.Binary64
import Fluxion.Proofs.Text.Decimal
import Fluxion.Proofs.Token.Measure

/-!
# Fluxion.Proofs.Infix.Read

Texts that are read as one operand.

A text is read as an operand if the reader takes it so wherever an operand is due, whatever waits
and whatever follows (`Infix.Reads`).  Numbers and names are, and so is what stands in brackets;
therefore nothing has to be known about the operations around them.

* `Infix.readOn_name`, `Infix.readOn_number`, …: what the reader does with a lexeme;
* `Infix.Reads.bin`, `Infix.Reads.neg`, `Infix.Reads.call`, …: texts in brackets;
* `Infix.Reads.read_eq`: the reader on a whole text.
-/

namespace Fluxion.Infix

open Text

variable {a b : Infix} {ws ws' : List Waiting} {text text' rest cs : List Char} {o : Option Infix}
  {op : BinOp} {f : Fn} {n : ℕ}

/-! ## lexemes -/

/-- What may follow a name or a number here. -/
inductive Boundary : List Char → Prop where
  | stop : Boundary []
  | char {c : Char} (cs : List Char) (hc : c = ' ' ∨ c = ')' ∨ c = '/') : Boundary (c :: cs)

theorem boundary_blank (cs : List Char) : Boundary (' ' :: cs) := .char cs (.inl rfl)

theorem boundary_close (cs : List Char) : Boundary (')' :: cs) := .char cs (.inr (.inl rfl))

theorem boundary_slash (cs : List Char) : Boundary ('/' :: cs) := .char cs (.inr (.inr rfl))

/-- A boundary ends a number. -/
theorem Boundary.endsNumber (h : Boundary rest) : EndsNumber rest := by
  cases h with
  | stop => exact ⟨nofun, nofun⟩
  | @char c cs hc =>
      constructor
      · intro d hd
        obtain rfl : c = d := Option.some_inj.mp hd
        obtain rfl | rfl | rfl := hc <;> decide
      · intro d hd
        obtain rfl : c = d := Option.some_inj.mp hd
        obtain rfl | rfl | rfl := hc <;> decide

/-- No name goes on at a boundary. -/
theorem Boundary.takeWhile_eq_nil (h : Boundary rest) : rest.takeWhile continuesName = [] := by
  cases h with
  | stop => rfl
  | char cs hc => obtain rfl | rfl | rfl := hc <;> rfl

/-- Characters of a lexeme are passed over once its token is known. -/
theorem tokensAfter_append (text rest : List Char) :
    tokensAfter text.length (text ++ rest) = tokens rest := by
  induction text with
  | nil => rfl
  | cons c text ih => exact ih

/-- A lexeme gives its token in front of those of the rest. -/
theorem tokens_append {token : Option Token} (hne : text ≠ [])
    (h : lexeme? (text ++ rest) = some (token, text.length)) :
    tokens (text ++ rest) = (tokens rest).map (token.toList ++ ·) := by
  obtain ⟨c, text, rfl⟩ := List.exists_cons_of_ne_nil hne
  have hafter := tokensAfter_append text rest
  rw [List.cons_append] at h ⊢
  rw [tokens, tokensAfter, h]
  simp only [Option.bind_eq_bind, Option.bind_some, List.length_cons, Nat.add_sub_cancel, hafter]
  cases tokens rest <;> rfl

/-- A whole decimal is one lexeme. -/
theorem lexeme?_number (hlen : numberLength text = text.length) (hne : text ≠ [])
    (hr : Boundary rest) : lexeme? (text ++ rest) =
      some (some (.number (readNumber text).1 (readNumber text).2), text.length) := by
  have hpos : text.length ≠ 0 := fun h => hne (List.length_eq_zero_iff.mp h)
  obtain ⟨lexeme, tail, v, htext, hlexeme, hlexemeLen⟩ :=
    exists_unsigned (α := Float) (hlen ▸ hpos)
  have htail : tail = [] := by
    have hlengths := congrArg List.length htext
    rw [List.length_append] at hlengths
    exact List.length_eq_zero_iff.mp (by omega)
  rw [htail, List.append_nil] at htext
  subst htext
  have hall := hlexeme.length_append hr.endsNumber
  rw [lexeme?, hall, if_neg hpos, List.take_left' rfl]

/-! ## names -/

/-- A letter or an underscore, and after it digits too. -/
def isIdentifier (x : String) : Bool :=
  match x.toList with
  | [] => false
  | c :: cs => startsName c && cs.all continuesName

/-- Names begin with characters among the letters. -/
theorem toNat_of_startsName {c : Char} (h : startsName c = true) :
    65 ≤ c.toNat ∧ c.toNat ≤ 122 := by
  simp only [startsName, Char.isAlpha, Char.isUpper, Char.isLower, Bool.or_eq_true,
    Bool.and_eq_true, decide_eq_true_eq, UInt32.le_iff_toNat_le, Char.toNat_val, ge_iff_le,
    Char.reduceToNat, beq_iff_eq] at h
  obtain (h | h) | rfl := h
  · omega
  · omega
  · decide

/-- A name does not begin as a number. -/
theorem numberLength_of_startsName {c : Char} (h : startsName c = true) (cs : List Char) :
    numberLength (c :: cs) = 0 := by
  obtain ⟨hlow, hhigh⟩ := toNat_of_startsName h
  apply Lexer.numberLength_eq_zero
  · have hascii : c.toNat < 128 := by omega
    have hdigit : ¬c.toNat < 58 := by omega
    simp [isDigit, digitValue?, hascii, hdigit]
  · rintro rfl
    exact absurd hlow (by decide)

/-- A name is read up to where it ends. -/
theorem wordOrSign_of_startsName {c : Char} (h : startsName c = true) (cs : List Char) :
    wordOrSign (c :: cs) = some (some (.name (String.ofList (c :: cs.takeWhile continuesName))),
      (cs.takeWhile continuesName).length + 1) := by
  unfold wordOrSign
  split
  case h_8 heq =>
    obtain ⟨rfl, rfl⟩ := List.cons.inj heq
    rw [if_pos h]
  all_goals simp_all [startsName]

/-- A name is one lexeme. -/
theorem lexeme?_name {x : String} (hx : isIdentifier x = true)
    (hr : rest.takeWhile continuesName = []) :
    lexeme? (x.toList ++ rest) = some (some (.name x), x.toList.length) := by
  unfold isIdentifier at hx
  cases hchars : x.toList with
  | nil =>
      rw [hchars] at hx
      exact nomatch hx
  | cons c cs =>
      rw [hchars, Bool.and_eq_true, List.all_eq_true] at hx
      have hname : (cs ++ rest).takeWhile continuesName = cs := by
        rw [List.takeWhile_append_of_pos hx.2, hr, List.append_nil]
      have hself : String.ofList (c :: cs) = x := by rw [← hchars, String.ofList_toList]
      rw [List.cons_append, lexeme?, numberLength_of_startsName hx.1, if_pos rfl,
        wordOrSign_of_startsName hx.1, hname, hself, List.length_cons]

theorem toList_ne_nil {x : String} (hx : isIdentifier x = true) : x.toList ≠ [] := by
  intro hnil
  rw [isIdentifier, hnil] at hx
  exact nomatch hx

/-- A name that is not reserved is not that of a function. -/
theorem function?_eq_none {x : String} (hx : x ∉ reserved) : function? x = none := by
  rw [function?, List.lookup_eq_none_iff]
  intro p hp
  rw [bne_iff_ne]
  rintro rfl
  exact hx (List.mem_cons_of_mem _ (List.mem_map_of_mem hp))

/-- A name that is not that of a function is an operand. -/
theorem assemble_name {x : String} (h : function? x = none) (ts : List Token) :
    assemble none ws (.name x :: ts) = assemble (some (named x)) ws ts := by
  rw [assemble]
  exact fun f _ hf => nomatch h.symm.trans hf

/-- The name of a function waits for what stands in brackets. -/
theorem assemble_call {x : String} (h : function? x = some f) (ts : List Token) :
    assemble none ws (.name x :: .openParen :: ts) =
      assemble none (.bracket (some f) :: ws) ts := by
  rw [assemble]
  exact h

/-! ## the reader on a text -/

/-- Read a text after an operand, or where one is due. -/
def readOn (o : Option Infix) (ws : List Waiting) (cs : List Char) : Option Infix :=
  (tokens cs).bind (assemble o ws)

/-- A lexeme is taken before the rest is read. -/
theorem readOn_lexeme {token : Token} (hne : text ≠ [])
    (h : lexeme? (text ++ rest) = some (some token, text.length)) :
    readOn o ws (text ++ rest) = (tokens rest).bind fun ts => assemble o ws (token :: ts) := by
  rw [readOn, tokens_append hne h]
  cases tokens rest <;> rfl

/-- A single character that is a token. -/
theorem readOn_char {c : Char} {token : Token} (h : lexeme? (c :: cs) = some (some token, 1)) :
    readOn o ws (c :: cs) = (tokens cs).bind fun ts => assemble o ws (token :: ts) := by
  have hchar : lexeme? ([c] ++ cs) = some (some token, [c].length) := h
  exact readOn_lexeme (List.cons_ne_nil _ _) hchar

/-- Spaces do not matter. -/
theorem readOn_blank (cs : List Char) : readOn o ws (' ' :: cs) = readOn o ws cs := by
  have h : tokens ([' '] ++ cs) = _ := tokens_append (List.cons_ne_nil _ _) rfl
  rw [readOn, ← List.singleton_append, h, readOn]
  cases tokens cs <;> rfl

/-- An opening bracket waits for its end. -/
theorem readOn_open (cs : List Char) :
    readOn none ws ('(' :: cs) = readOn none (.bracket none :: ws) cs := by
  have hopen : lexeme? ('(' :: cs) = some (some .openParen, 1) := rfl
  exact readOn_char hopen

/-- A minus where an operand should be waits for its operand. -/
theorem readOn_minus (cs : List Char) :
    readOn none ws ('-' :: cs) = readOn none (.neg :: ws) cs := by
  have hminus : lexeme? ('-' :: cs) = some (some (.sign .sub), 1) := rfl
  exact readOn_char hminus

/-- An operation takes its first operand and waits for the second. -/
theorem readOn_sign (htext : text ≠ [])
    (h : lexeme? (text ++ rest) = some (some (.sign op), text.length))
    (hsettle : settle (taking op) a ws = (b, ws')) :
    readOn (some a) ws (text ++ rest) = readOn none (.bin op b :: ws') rest := by
  rw [readOn_lexeme htext h]
  simp only [assemble, hsettle]
  rfl

/-- A bracket takes what is waiting in it. -/
theorem readOn_close {fn : Option Fn} (h : settle 0 a ws = (b, .bracket fn :: ws'))
    (cs : List Char) : readOn (some a) ws (')' :: cs) = readOn (some (applied fn b)) ws' cs := by
  have hclose : lexeme? (')' :: cs) = some (some .closeParen, 1) := rfl
  rw [readOn_char hclose]
  simp only [assemble, h]
  rfl

/-- A number before a boundary is an operand. -/
theorem readOn_number (hlen : numberLength text = text.length) (hne : text ≠ [])
    (hr : Boundary rest) : readOn none ws (text ++ rest) =
      readOn (some (.number (readNumber text).1 (readNumber text).2)) ws rest :=
  readOn_lexeme hne (lexeme?_number hlen hne hr)

/-- A name before a boundary is an operand. -/
theorem readOn_name {x : String} (hx : isIdentifier x = true) (hfn : function? x = none)
    (hr : Boundary rest) :
    readOn none ws (x.toList ++ rest) = readOn (some (named x)) ws rest := by
  rw [readOn_lexeme (toList_ne_nil hx) (lexeme?_name hx hr.takeWhile_eq_nil), readOn]
  simp only [assemble_name hfn]

/-- A function's bracket. -/
theorem readOn_call {x : String} (h : function? x = some f) (hx : isIdentifier x = true)
    (cs : List Char) :
    readOn none ws (x.toList ++ '(' :: cs) = readOn none (.bracket (some f) :: ws) cs := by
  have hopen : tokens (['('] ++ cs) = _ := tokens_append (List.cons_ne_nil _ _) rfl
  rw [readOn_lexeme (toList_ne_nil hx) (lexeme?_name hx rfl), ← List.singleton_append, hopen,
    readOn]
  cases tokens cs with
  | none => rfl
  | some ts =>
      simp only [Option.map_some, Option.bind_some, Option.toList_some, List.singleton_append,
        assemble_call h]

/-! ## operands -/

/-- Wherever an operand is due, the text is read as one, whatever waits and whatever follows. -/
def Reads (text : List Char) (a : Infix) : Prop :=
  ∀ rest ws, Boundary rest → readOn none ws (text ++ rest) = readOn (some a) ws rest

/-- The text of a number is read as that number. -/
theorem Reads.number (hlen : numberLength text = text.length) (hne : text ≠ []) :
    Reads text (.number (readNumber text).1 (readNumber text).2) :=
  fun _ _ hr => readOn_number hlen hne hr

/-- A name that is free is read as a variable. -/
theorem Reads.name {x : String} (hx : isIdentifier x = true) (hfree : x ∉ reserved) :
    Reads x.toList (.var x) := by
  have hpi : named x = .var x := if_neg fun (h : x = piName) => hfree (h ▸ List.mem_cons_self)
  intro rest ws hr
  rw [readOn_name hx (function?_eq_none hfree) hr, hpi]

theorem reads_pi : Reads piName.toList .pi := fun _ _ hr => readOn_name rfl rfl hr

/-- A text in brackets. -/
def parens (text : List Char) : List Char := '(' :: (text ++ [')'])

/-- Whatever is complete within brackets is one operand. -/
theorem reads_parens (h : ∀ rest ws, readOn none (.bracket none :: ws) (text ++ ')' :: rest) =
    readOn (some a) ws rest) : Reads (parens text) a := by
  intro rest ws _
  rw [parens, List.cons_append, List.append_assoc, readOn_open]
  exact h rest ws

/-- A minus in brackets is read as a negation. -/
theorem Reads.neg (h : Reads text a) : Reads (parens ('-' :: text)) (.neg a) := by
  apply reads_parens
  intro rest ws
  have hsettle : settle 0 a (.neg :: .bracket none :: ws) = (.neg a, .bracket none :: ws) := rfl
  rw [List.cons_append, readOn_minus, h _ _ (boundary_close rest), readOn_close hsettle, applied]

/-- A function of what stands in brackets is read as such. -/
theorem Reads.call {x : String} (hfn : function? x = some f) (hx : isIdentifier x = true)
    (h : Reads text a) : Reads (x.toList ++ parens text) (.call f a) := by
  intro rest ws _
  have hsettle : settle 0 a (.bracket (some f) :: ws) = (a, .bracket (some f) :: ws) := rfl
  rw [parens, List.append_assoc, List.cons_append, readOn_call hfn hx, List.append_assoc,
    List.singleton_append, h _ _ (boundary_close rest), readOn_close hsettle, applied]

/-- A sign between two blanks. -/
theorem readOn_spaced (op : BinOp) (hsettle : settle (taking op) a ws = (b, ws'))
    (cs : List Char) : readOn (some a) ws (' ' :: ((Expr.infixSign op).toList ++ ' ' :: cs)) =
      readOn none (.bin op b :: ws') cs := by
  have hlexeme : lexeme? ((Expr.infixSign op).toList ++ ' ' :: cs) =
      some (some (.sign op), (Expr.infixSign op).toList.length) := by
    cases op <;> rfl
  have hne : (Expr.infixSign op).toList ≠ [] := by cases op <;> exact List.cons_ne_nil _ _
  rw [readOn_blank, readOn_sign hne hlexeme hsettle, readOn_blank]

/-- An operation in brackets is read as such, with spaces around its sign. -/
theorem Reads.bin (op : BinOp) (ha : Reads text a) (hb : Reads text' b) :
    Reads (parens (text ++ ' ' :: ((Expr.infixSign op).toList ++ ' ' :: text'))) (.bin op a b) := by
  apply reads_parens
  intro rest ws
  have hopen : settle (taking op) a (.bracket none :: ws) = (a, .bracket none :: ws) := rfl
  have hclose : settle 0 b (.bin op a :: .bracket none :: ws) =
      (.bin op a b, .bracket none :: ws) := rfl
  simp only [List.append_assoc, List.cons_append]
  rw [ha _ _ (boundary_blank _), readOn_spaced op hopen, hb _ _ (boundary_close rest),
    readOn_close hclose, applied]

/-- The reader takes a text that is one operand as that operand. -/
theorem Reads.read_eq {s : String} (h : Reads s.toList a) : read s = some a := by
  have hall := h [] [] .stop
  rw [List.append_nil] at hall
  exact hall

end Fluxion.Infix

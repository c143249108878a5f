import Mathlib
import Fluxion.Token.Lexer

/-!
# Fluxion.Proofs.Token.Measure

The lengths of lexemes in front of a boundary.

A name or a number in front of more text is measured as it is on its own if the rest of the text
begins at a boundary (`Boundary`): at the end, at a sign for powers, at a closing curly bracket, or
at a blank before a sign or a command word.

* `numberLength_append`, `wordLength_append`, `functionLength_append`, `nameLength_append`: numbers,
  command words and names;
* `bracketLength_append`: a name is no bracket, whatever follows it.
-/

namespace Fluxion.Lexer

open Text

variable {cs rest : List Char}

/-! ## boundaries -/

/-- Where a name or a number in front ends: at the end of the text, before a caret or a closing
curly bracket, and before a blank and then a sign or a command word. -/
inductive Boundary : List Char → Prop where
  | stop : Boundary []
  | caret (cs : List Char) : Boundary ('^' :: cs)
  | curly (cs : List Char) : Boundary ('\x7d' :: cs)
  | blank {c : Char} (cs : List Char) (hc : c = '+' ∨ c = '-' ∨ c = '\\') :
      Boundary (' ' :: c :: cs)

/-- The characters that begin a boundary. -/
def boundaryChars : List Char := ['^', '\x7d', ' ']

/-- A boundary is the end of the text or begins with one of a few characters. -/
theorem Boundary.eq_nil_or_cons (h : Boundary rest) :
    rest = [] ∨ ∃ c cs, rest = c :: cs ∧ c ∈ boundaryChars := by
  cases h with
  | stop => exact .inl rfl
  | caret cs => exact .inr ⟨_, _, rfl, by decide⟩
  | curly cs => exact .inr ⟨_, _, rfl, by decide⟩
  | blank cs hc => exact .inr ⟨_, _, rfl, by decide⟩

/-- No boundary begins with a character of this kind. -/
def avoidsBoundary (p : Char → Bool) : Bool := boundaryChars.all fun c => !p c

/-- No boundary begins with a character of a kind that avoids boundaries. -/
theorem eq_false_of_avoidsBoundary {p : Char → Bool} (hp : avoidsBoundary p = true) {c : Char}
    (hc : c ∈ boundaryChars) : p c = false := by
  have hnot := List.all_eq_true.mp hp c hc
  rw [Bool.not_eq_true'] at hnot
  exact hnot

/-- No boundary begins with a letter of the word in some case. -/
def wordAvoidsBoundary (word : List Char) : Bool :=
  word.all fun w => avoidsBoundary (isFormOf w)

/-- A run of characters of such a kind ends at a boundary. -/
theorem takeWhile_append (h : Boundary rest) {p : Char → Bool} (hp : avoidsBoundary p = true)
    (cs : List Char) :
    (cs ++ rest).takeWhile p = cs.takeWhile p := by
  induction cs with
  | nil =>
      obtain rfl | ⟨c, cs, rfl, hc⟩ := h.eq_nil_or_cons
      · rfl
      · rw [List.nil_append, List.takeWhile_cons, eq_false_of_avoidsBoundary hp hc]
        rfl
  | cons c cs ih => rw [List.cons_append, List.takeWhile_cons, List.takeWhile_cons, ih]

/-! ## numbers before a boundary -/

/-- Digits end at a boundary. -/
theorem digitsLength_append (h : Boundary rest) (cs : List Char) :
    digitsLength (cs ++ rest) = digitsLength cs := by
  rw [digitsLength, takeWhile_append h (by decide), digitsLength]

theorem digitsLength_le (cs : List Char) : digitsLength cs ≤ cs.length :=
  (List.takeWhile_prefix isDigit).length_le

/-- The length of digits of which `n` have been read, with a point before the others. -/
def pointedLength : Nat → List Char → Nat
  | 0, '.' :: r => if digitsLength r = 0 then 0 else digitsLength r + 1
  | 0, _ => 0
  | n + 1, '.' :: r => n + 1 + 1 + digitsLength r
  | n + 1, _ => n + 1

/-- The part before the point is measured first, then the point and what follows it. -/
theorem mantissaLength_eq (cs : List Char) :
    mantissaLength cs = pointedLength (digitsLength cs) (cs.drop (digitsLength cs)) := rfl

/-- Without a point the length stays. -/
theorem pointedLength_of_ne {n : Nat} {c : Char} (hc : c ≠ '.') (r : List Char) :
    pointedLength n (c :: r) = n := by
  cases n with
  | zero => simp [pointedLength, hc]
  | succ n => simp [pointedLength, hc]

/-- The digits after a point end at a boundary. -/
theorem pointedLength_append (h : Boundary rest) (n : Nat) (r : List Char) :
    pointedLength n (r ++ rest) = pointedLength n r := by
  cases r with
  | nil =>
      obtain rfl | ⟨c, cs, rfl, hc⟩ := h.eq_nil_or_cons
      · rfl
      · have hdot : c ≠ '.' := by
          intro hc'
          rw [hc'] at hc
          exact absurd hc (by decide)
        rw [List.nil_append, pointedLength_of_ne hdot]
        cases n <;> rfl
  | cons c r =>
      by_cases hc : c = '.'
      · subst hc
        cases n <;> simp only [List.cons_append, pointedLength, digitsLength_append h]
      · rw [List.cons_append, pointedLength_of_ne hc, pointedLength_of_ne hc]

theorem pointedLength_le (n : Nat) (r : List Char) : pointedLength n r ≤ n + r.length := by
  cases r with
  | nil => cases n <;> simp [pointedLength]
  | cons c r =>
      by_cases hc : c = '.'
      · subst hc
        have := digitsLength_le r
        cases n with
        | zero =>
            simp only [pointedLength, List.length_cons]
            split <;> omega
        | succ n =>
            simp only [pointedLength, List.length_cons]
            omega
      · rw [pointedLength_of_ne hc]
        omega

/-- The digits of a number end at a boundary. -/
theorem mantissaLength_append (h : Boundary rest) (cs : List Char) :
    mantissaLength (cs ++ rest) = mantissaLength cs := by
  rw [mantissaLength_eq, mantissaLength_eq, digitsLength_append h,
    List.drop_append_of_le_length (digitsLength_le cs), pointedLength_append h]

theorem mantissaLength_le (cs : List Char) : mantissaLength cs ≤ cs.length := by
  have h := pointedLength_le (digitsLength cs) (cs.drop (digitsLength cs))
  have hle := digitsLength_le cs
  rw [List.length_drop] at h
  rw [mantissaLength_eq]
  omega

theorem signLength_le (cs : List Char) : signLength cs ≤ cs.length := by
  cases cs with
  | nil => exact Nat.le_refl 0
  | cons c cs =>
      simp only [signLength, List.length_cons]
      split <;> omega

/-- A boundary does not begin with a sign. -/
theorem signLength_append (h : Boundary rest) (cs : List Char) :
    signLength (cs ++ rest) = signLength cs := by
  cases cs with
  | cons c cs => rfl
  | nil =>
      cases h with
      | stop => rfl
      | caret cs => rfl
      | curly cs => rfl
      | blank cs hc => rfl

/-- An exponent ends at a boundary. -/
theorem exponentLength_append (h : Boundary rest) (cs : List Char) :
    exponentLength (cs ++ rest) = exponentLength cs := by
  cases cs with
  | nil =>
      cases h with
      | stop => rfl
      | caret cs => rfl
      | curly cs => rfl
      | blank cs hc => rfl
  | cons c cs =>
      simp only [List.cons_append, exponentLength, signLength_append h,
        List.drop_append_of_le_length (signLength_le cs), digitsLength_append h]

/-- A number ends at a boundary. -/
theorem numberLength_append (h : Boundary rest) (cs : List Char) :
    numberLength (cs ++ rest) = numberLength cs := by
  simp only [numberLength, mantissaLength_append h,
    List.drop_append_of_le_length (mantissaLength_le cs), exponentLength_append h]

/-! ## command words before a boundary -/

/-- A word does not go on beyond a boundary. -/
theorem startsWith_append (h : Boundary rest) {word : List Char}
    (hw : wordAvoidsBoundary word = true) (cs : List Char) :
    startsWith word (cs ++ rest) = startsWith word cs := by
  induction word generalizing cs with
  | nil => cases cs <;> rfl
  | cons w word ih =>
      obtain ⟨hfirst, hword⟩ := Bool.and_eq_true_iff.mp hw
      cases cs with
      | nil =>
          obtain rfl | ⟨c, cs, rfl, hc⟩ := h.eq_nil_or_cons
          · rfl
          · rw [List.nil_append, startsWith, eq_false_of_avoidsBoundary hfirst hc]
            rfl
      | cons c cs => rw [List.cons_append, startsWith, startsWith, ih hword]

/-- What is measured of a word does not change with what follows a boundary. -/
theorem wordLength_append (h : Boundary rest) {word : List Char}
    (hw : wordAvoidsBoundary word = true) (cs : List Char) :
    wordLength word (cs ++ rest) = wordLength word cs := by
  rw [wordLength, wordLength, startsWith_append h hw]

/-- A text that begins with a word is at least as long as the word. -/
theorem length_le_of_startsWith {word cs : List Char} (h : startsWith word cs = true) :
    word.length ≤ cs.length := by
  induction word generalizing cs with
  | nil => exact Nat.zero_le _
  | cons w word ih =>
      cases cs with
      | nil => exact nomatch h
      | cons c cs =>
          rw [startsWith, Bool.and_eq_true] at h
          exact Nat.succ_le_succ (ih h.2)

theorem wordLength_le (word cs : List Char) : wordLength word cs ≤ cs.length := by
  unfold wordLength
  by_cases h : startsWith word cs = true
  · rw [if_pos h]
    exact length_le_of_startsWith h
  · rw [if_neg h]
    exact Nat.zero_le _

/-- The letters of the names of functions avoid boundaries. -/
theorem all_functionWords : functionWords.all wordAvoidsBoundary = true := by
  decide

/-- The name of a function ends at a boundary. -/
theorem functionLength_append (h : Boundary rest) (cs : List Char) :
    functionLength (cs ++ rest) = functionLength cs := by
  have hmap : functionWords.map (wordLength · (cs ++ rest)) = functionWords.map (wordLength · cs) :=
    List.map_congr_left fun word hword =>
      wordLength_append h (List.all_eq_true.mp all_functionWords word hword) cs
  rw [functionLength, hmap, functionLength]

/-! ## names before a boundary -/

/-- The characters of names. -/
def isNameChar (c : Char) : Bool := continuesName c || c == '\\'

theorem isBlank_of_isAlpha {c : Char} (h : c.isAlpha = true) : isBlank c = false := by
  simp only [Char.isAlpha, Char.isUpper, Char.isLower, Bool.or_eq_true, Bool.and_eq_true,
    decide_eq_true_eq, UInt32.le_iff_toNat_le, Char.toNat_val, ge_iff_le, Char.reduceToNat] at h
  rw [Bool.eq_false_iff]
  intro hb
  simp only [isBlank, isSpace, isSeparator, Bool.or_eq_true, Bool.and_eq_true, decide_eq_true_eq,
    beq_iff_eq] at hb
  omega

/-- Characters of names are not white space. -/
theorem isBlank_of_isNameChar {c : Char} (h : isNameChar c = true) : isBlank c = false := by
  simp only [isNameChar, continuesName, isLetter, Bool.or_eq_true, beq_iff_eq] at h
  obtain ((((((h | rfl) | rfl) | rfl) | rfl) | rfl) | rfl) := h
  · exact isBlank_of_isAlpha h
  all_goals decide

/-- No row of digits has white space in it. -/
theorem isBlank_of_isDigit {c : Char} (h : isDigit c = true) : isBlank c = false := by
  have hrow : ∀ z ∈ digitZeros, 0x80 ≤ z + 9 →
      0xa0 < z ∧ (z + 9 < 0x1680 ∨ 0x1680 < z) ∧ (z + 9 < 0x2000 ∨ 0x3000 < z) := by decide
  rw [Bool.eq_false_iff]
  intro hb
  simp only [isBlank, isSpace, isSeparator, Bool.or_eq_true, Bool.and_eq_true, decide_eq_true_eq,
    beq_iff_eq] at hb
  unfold isDigit digitValue? at h
  by_cases hn : c.toNat < 0x80
  · simp [hn] at h
    omega
  · simp [hn] at h
    obtain ⟨z, hz, hle, hlt⟩ := h
    have := hrow z hz (by omega)
    omega

/-- A decimal begins with a digit or a point. -/
theorem numberLength_eq_zero {c : Char} (hd : isDigit c = false) (hdot : c ≠ '.')
    (cs : List Char) : numberLength (c :: cs) = 0 := by
  have hdigits : digitsLength (c :: cs) = 0 := by
    rw [digitsLength, List.takeWhile_cons_of_neg (by simp [hd]), List.length_nil]
  have hnone : mantissaLength (c :: cs) = 0 := by
    rw [mantissaLength, hdigits]
    simp [hdot]
  rw [numberLength, hnone, if_pos rfl]

/-- A number does not begin with white space. -/
theorem isBlank_of_numberLength {c : Char} (h : numberLength (c :: cs) ≠ 0) :
    isBlank c = false := by
  by_cases hd : isDigit c = true
  · exact isBlank_of_isDigit hd
  · by_cases hdot : c = '.'
    · rw [hdot]
      decide
    · exact absurd (numberLength_eq_zero (Bool.eq_false_iff.mpr hd) hdot cs) h

/-- A name ends at a boundary. -/
theorem nameLength_append (h : Boundary rest) {cs : List Char} (hne : cs ≠ []) :
    nameLength (cs ++ rest) = nameLength cs := by
  cases cs with
  | nil => exact absurd rfl hne
  | cons c cs => rw [List.cons_append, nameLength, nameLength, takeWhile_append h (by decide)]

/-- A name is no longer than the text in which it is found. -/
theorem nameLength_le (cs : List Char) : nameLength cs ≤ cs.length := by
  cases cs with
  | nil => exact Nat.le_refl 0
  | cons c cs =>
      have := (List.takeWhile_prefix continuesName (l := cs)).length_le
      rw [nameLength, List.length_cons]
      split <;> omega

/-- A text that is a name as a whole has only characters of names. -/
theorem isNameChar_of_nameLength (h : nameLength cs = cs.length) :
    ∀ c ∈ cs, isNameChar c = true := by
  cases cs with
  | nil => exact fun c hc => nomatch hc
  | cons d ds =>
      rw [nameLength, List.length_cons] at h
      by_cases hd : (continuesName d || d == '\\') = true
      · rw [if_pos hd] at h
        have hall : ds.takeWhile continuesName = ds :=
          (List.takeWhile_prefix continuesName).eq_of_length (by omega)
        intro c hc
        obtain rfl | hc := List.mem_cons.mp hc
        · exact hd
        · rw [isNameChar, List.takeWhile_eq_self_iff.mp hall c hc, Bool.true_or]
      · rw [if_neg hd] at h
        omega

/-- Characters of names are not brackets. -/
theorem charLength_of_isNameChar {b c : Char} (hb : b = '(' ∨ b = ')')
    (hc : isNameChar c = true) (cs : List Char) : charLength b (c :: cs) = 0 := by
  have hne : ¬(c == b) = true := by
    intro heq
    rw [eq_of_beq heq] at hc
    obtain rfl | rfl := hb <;> exact absurd hc (by decide)
  rw [charLength, if_neg hne]

/-- No bracket follows a name, with or without white space. -/
theorem charLength_after_blanks (h : Boundary rest) {b : Char} (hb : b = '(' ∨ b = ')')
    (hcs : ∀ c ∈ cs, isNameChar c = true) :
    charLength b ((cs ++ rest).drop (blankLength (cs ++ rest))) = 0 := by
  cases cs with
  | nil =>
      cases h with
      | stop => rfl
      | caret cs => obtain rfl | rfl := hb <;> rfl
      | curly cs => obtain rfl | rfl := hb <;> rfl
      | blank cs hc =>
          obtain rfl | rfl | rfl := hc
          all_goals obtain rfl | rfl := hb <;> rfl
  | cons c cs =>
      have hc := hcs c List.mem_cons_self
      have hblank : blankLength (c :: cs ++ rest) = 0 := by
        rw [List.cons_append, blankLength, List.takeWhile_cons, isBlank_of_isNameChar hc]
        rfl
      rw [hblank, List.drop_zero]
      exact charLength_of_isNameChar hb hc _

/-- Characters of names before a boundary are no bracket. -/
theorem bracketLength_append (h : Boundary rest) {b : Char} (hb : b = '(' ∨ b = ')')
    {word : List Char} (hw : wordAvoidsBoundary word = true)
    (hcs : ∀ c ∈ cs, isNameChar c = true) (hne : cs ≠ []) :
    bracketLength word b (cs ++ rest) = 0 := by
  have hdrop : ∀ c ∈ cs.drop (wordLength word cs), isNameChar c = true :=
    fun c hc => hcs c (List.mem_of_mem_drop hc)
  have hafter := charLength_after_blanks h hb hdrop
  rw [← List.drop_append_of_le_length (wordLength_le word cs), List.drop_drop] at hafter
  have hfirst : charLength b (cs ++ rest) = 0 := by
    cases cs with
    | nil => exact absurd rfl hne
    | cons c cs => exact charLength_of_isNameChar hb (hcs c List.mem_cons_self) _
  simp only [bracketLength, wordLength_append h hw, hafter, hfirst, bne_self_eq_false,
    Bool.and_false, Bool.false_eq_true, if_false]

end Fluxion.Lexer

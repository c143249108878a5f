import Fluxion.Proofs.Token.Tiling

/-!
# Fluxion.Proofs.Token.Plain

Measures of lexemes that look at the lexeme only.

All alternatives of the lexer but brackets look no further than the lexeme that they measure
(`Local`), and find no white space in it (`Solid`).

* `local_numberLength`, `solid_numberLength`: numbers;
* `local_wordLength`, `solid_wordLength`: command words;
* `local_nameLength`, `solid_nameLength`: names;
* `Plain`: both together.
-/

namespace Fluxion.Lexer

open Text

variable {cs : List Char} {m n : Nat}

/-- A measure that is the same in a text cut off behind what it measures. -/
def Local (f : List Char → Nat) : Prop := ∀ cs n, f cs ≤ n → f (cs.take n) = f cs

/-- There is no white space among the first characters. -/
def SolidTo (cs : List Char) (n : Nat) : Prop := ∀ c ∈ cs.take n, isBlank c = false

/-- A measure of lexemes without white space. -/
def Solid (f : List Char → Nat) : Prop := ∀ cs, SolidTo cs (f cs)

theorem solidTo_zero (cs : List Char) : SolidTo cs 0 := by simp [SolidTo]

/-- A first character that is not white space adds one to a part without it. -/
theorem solidTo_cons {c : Char} (hc : isBlank c = false) (h : SolidTo cs n) :
    SolidTo (c :: cs) (1 + n) := by
  rw [SolidTo, Nat.add_comm, List.take_succ_cons, List.forall_mem_cons]
  exact ⟨hc, h⟩

/-- A part without white space, and another one after it. -/
theorem SolidTo.add (h : SolidTo cs m) (h' : SolidTo (cs.drop m) n) : SolidTo cs (m + n) := by
  rw [SolidTo, List.take_add, List.forall_mem_append]
  exact ⟨h, h'⟩

/-- Characters of a kind are counted up to the first of another kind, so nothing behind them
matters. -/
theorem local_takeWhile (p : Char → Bool) : Local fun cs => (cs.takeWhile p).length := by
  intro cs n h
  dsimp only at h ⊢
  rw [← List.take_takeWhile, List.length_take]
  omega

/-- A run of characters of a kind that leaves out white space. -/
theorem solid_takeWhile {p : Char → Bool} (hp : ∀ c, p c = true → isBlank c = false) :
    Solid fun cs => (cs.takeWhile p).length := by
  intro cs c hc
  have htake : cs.take (cs.takeWhile p).length = cs.takeWhile p :=
    (List.prefix_iff_eq_take.mp (List.takeWhile_prefix p)).symm
  simp only [htake] at hc
  exact hp c (List.mem_takeWhile_imp hc)

/-! ## numbers -/

theorem local_digitsLength : Local digitsLength := local_takeWhile isDigit

theorem solid_digitsLength : Solid digitsLength := solid_takeWhile fun _ => isBlank_of_isDigit

/-- A sign is one character. -/
theorem local_signLength : Local signLength := by
  intro cs n h
  cases cs with
  | nil => simp
  | cons c cs =>
    cases n with
    | zero => simp_all [signLength]
    | succ n => rfl

theorem signLength_le_one (cs : List Char) : signLength cs ≤ 1 := by
  cases cs with
  | nil => simp [signLength]
  | cons c cs =>
    rw [signLength]
    split <;> omega

/-- An exponent is measured only if a digit follows its mark, so a cut behind it takes nothing away.
-/
theorem local_exponentLength : Local exponentLength := by
  intro cs n h
  cases cs with
  | nil => simp
  | cons c r =>
    cases n with
    | zero =>
      rw [Nat.le_zero.mp h]
      rfl
    | succ n =>
      by_cases hmark : isExponentMark c = true
      · cases n with
        | zero =>
          -- a mark alone is no exponent
          simp only [exponentLength, hmark, Bool.true_and] at h
          split at h
          · next hd =>
            simp at hd
            omega
          · next hd => simp_all [exponentLength, digitsLength]
        | succ n =>
          have hsign : signLength (r.take (n + 1)) = signLength r :=
            local_signLength r _ (by have := signLength_le_one r; omega)
          have hdigits : digitsLength ((r.drop (signLength r)).take (n + 1 - signLength r)) =
              digitsLength (r.drop (signLength r)) := by
            apply local_digitsLength
            by_cases hd : digitsLength (r.drop (signLength r)) = 0
            · omega
            · simp only [exponentLength, hmark, Bool.true_and, bne_iff_ne, ne_eq, hd,
                not_false_eq_true, if_true] at h
              omega
          simp only [List.take_succ_cons, exponentLength, hsign, List.drop_take, hdigits]
      · simp [exponentLength, hmark]

/-- A point and the digits after it, behind a part that was measured before. -/
theorem local_pointedLength (cs : List Char) (h : pointedLength m cs ≤ m + n) :
    pointedLength m (cs.take n) = pointedLength m cs := by
  cases cs with
  | nil => simp
  | cons c r =>
    by_cases hc : c = '.'
    · subst hc
      cases n with
      | zero =>
        cases m with
        | zero =>
          rw [Nat.le_zero.mp h]
          rfl
        | succ m =>
          simp only [pointedLength] at h
          omega
      | succ n =>
        have hdigits : digitsLength (r.take n) = digitsLength r := by
          apply local_digitsLength
          cases m with
          | zero =>
            simp only [pointedLength] at h
            split at h <;> omega
          | succ m =>
            simp only [pointedLength] at h
            omega
        cases m <;> simp only [List.take_succ_cons, pointedLength, hdigits]
    · cases n with
      | zero =>
        rw [pointedLength_of_ne hc]
        cases m <;> rfl
      | succ n => rw [List.take_succ_cons, pointedLength_of_ne hc, pointedLength_of_ne hc]

/-- The part after the point adds to the part before it. -/
theorem le_pointedLength (m : Nat) (cs : List Char) : m ≤ pointedLength m cs := by
  unfold pointedLength
  split <;> omega

/-- The digits around a point are measured without a look at what follows. -/
theorem local_mantissaLength : Local mantissaLength := by
  intro cs n h
  rw [mantissaLength_eq] at h
  have hle := le_pointedLength (digitsLength cs) (cs.drop (digitsLength cs))
  rw [mantissaLength_eq, mantissaLength_eq, local_digitsLength cs n (by omega), List.drop_take]
  exact local_pointedLength _ (by omega)

/-- A number is measured without a look at what follows. -/
theorem local_numberLength : Local numberLength := by
  intro cs n h
  have hmantissa : mantissaLength cs ≤ n := by
    simp only [numberLength] at h
    split at h <;> omega
  simp only [numberLength, local_mantissaLength cs n hmantissa, List.drop_take] at h ⊢
  split
  · rfl
  · next hne =>
    rw [if_neg hne] at h
    rw [local_exponentLength _ _ (by omega)]

theorem solid_signLength : Solid signLength := by
  intro cs
  cases cs with
  | nil => exact solidTo_zero []
  | cons c cs =>
    rw [signLength]
    split
    · next hc =>
      have hblank : isBlank c = false := by
        simp only [isSign, Bool.or_eq_true, beq_iff_eq] at hc
        obtain rfl | rfl := hc <;> decide
      exact solidTo_cons hblank (solidTo_zero cs)
    · exact solidTo_zero _

/-- There is no white space within an exponent. -/
theorem solid_exponentLength : Solid exponentLength := by
  intro cs
  cases cs with
  | nil => exact solidTo_zero []
  | cons c r =>
    simp only [exponentLength]
    split
    · next h =>
      have hblank : isBlank c = false := by
        simp only [isExponentMark, Bool.and_eq_true, Bool.or_eq_true, beq_iff_eq] at h
        obtain ⟨rfl | rfl, -⟩ := h <;> decide
      rw [Nat.add_assoc]
      exact solidTo_cons hblank ((solid_signLength r).add (solid_digitsLength _))
    · exact solidTo_zero _

/-- There is no white space around the point of a number. -/
theorem solidTo_pointedLength (h : SolidTo cs m) : SolidTo cs (pointedLength m (cs.drop m)) := by
  have hpoint (r : List Char) (hr : cs.drop m = '.' :: r) :
      SolidTo cs (m + (1 + digitsLength r)) := by
    refine h.add ?_
    rw [hr]
    exact solidTo_cons (by decide) (solid_digitsLength r)
  cases hr : cs.drop m with
  | nil => cases m <;> simpa [pointedLength] using h
  | cons c r =>
    by_cases hc : c = '.'
    · subst hc
      have := hpoint r hr
      cases m with
      | zero =>
        simp only [pointedLength]
        split
        · exact solidTo_zero cs
        · rwa [Nat.zero_add, Nat.add_comm] at this
      | succ m => rwa [← Nat.add_assoc] at this
    · rwa [pointedLength_of_ne hc]

/-- There is no white space within a number. -/
theorem solid_numberLength : Solid numberLength := by
  intro cs
  have hmantissa : SolidTo cs (mantissaLength cs) := by
    rw [mantissaLength_eq]
    exact solidTo_pointedLength (solid_digitsLength cs)
  simp only [numberLength]
  split
  · exact solidTo_zero cs
  · exact hmantissa.add (solid_exponentLength _)

/-! ## characters, words and names -/

theorem local_charLength (c : Char) : Local (charLength c) := by
  intro cs n h
  cases cs with
  | nil => simp
  | cons d cs =>
    cases n with
    | zero =>
      rw [Nat.le_zero.mp h]
      rfl
    | succ n => rfl

theorem solid_charLength {c : Char} (hc : isBlank c = false) : Solid (charLength c) := by
  intro cs
  cases cs with
  | nil => exact solidTo_zero []
  | cons d cs =>
    rw [charLength]
    split
    · next hd =>
      rw [eq_of_beq hd]
      exact solidTo_cons hc (solidTo_zero cs)
    · exact solidTo_zero _

/-- A word at the start of a text is there in all of the text that is not shorter. -/
theorem startsWith_take {word : List Char} (hn : word.length ≤ n) :
    startsWith word (cs.take n) = startsWith word cs := by
  induction word generalizing cs n with
  | nil => cases cs <;> cases n <;> rfl
  | cons w word ih =>
    cases n with
    | zero => simp at hn
    | succ n =>
      cases cs with
      | nil => rfl
      | cons c cs =>
        rw [List.take_succ_cons, startsWith, startsWith, ih (Nat.le_of_succ_le_succ hn)]

/-- A word is found with all its letters, or not at all. -/
theorem wordLength_le_length (word cs : List Char) : wordLength word cs ≤ word.length := by
  unfold wordLength
  split <;> omega

/-- A command word is found without a look at what follows. -/
theorem local_wordLength (word : List Char) : Local (wordLength word) := by
  intro cs n h
  by_cases hn : word.length ≤ n
  · rw [wordLength, wordLength, startsWith_take hn]
  · have hzero : wordLength word cs = 0 := by
      unfold wordLength at h ⊢
      split at h
      · omega
      · next hs => rw [if_neg hs]
    have hshort : ¬startsWith word (cs.take n) = true := by
      intro hs
      have := length_le_of_startsWith hs
      rw [List.length_take] at this
      omega
    rw [hzero, wordLength, if_neg hshort]

/-- No case form of a character is white space, unless the character is. -/
theorem isBlank_of_isFormOf {w c : Char} (hw : isBlank w = false) (h : isFormOf w c = true) :
    isBlank c = false := by
  by_cases halpha : c.isAlpha = true
  · exact isBlank_of_isAlpha halpha
  · have hlower : c.toLower = c := by
      rw [Char.isAlpha, Bool.or_eq_true, not_or, Char.isUpper, decide_eq_true_eq] at halpha
      exact dif_neg halpha.1
    simp only [isFormOf, hlower, Bool.or_eq_true, Bool.and_eq_true, beq_iff_eq] at h
    obtain ((rfl | ⟨-, rfl⟩) | ⟨-, rfl⟩) | ⟨-, rfl | rfl⟩ := h
    · exact hw
    all_goals decide

/-- There is no white space in a word. -/
def solidWord (word : List Char) : Bool := word.all fun w => !isBlank w

/-- A word of which no letter looks like white space has none in any of its forms. -/
theorem solid_wordLength {word : List Char} (hw : solidWord word = true) :
    Solid (wordLength word) := by
  intro cs
  unfold wordLength
  split
  · next hs =>
    induction word generalizing cs with
    | nil => exact solidTo_zero cs
    | cons w word ih =>
      cases cs with
      | nil => cases hs
      | cons c cs =>
        rw [startsWith, Bool.and_eq_true] at hs
        rw [List.length_cons, Nat.add_comm]
        rw [solidWord, List.all_cons, Bool.and_eq_true, Bool.not_eq_true'] at hw
        exact solidTo_cons (isBlank_of_isFormOf hw.1 hs.1) (ih hw.2 cs hs.2)
  · exact solidTo_zero cs

theorem all_solidWord : functionWords.all solidWord = true := by decide

/-- The longest name of a function that fits is found without a look at what follows. -/
theorem local_functionLength : Local functionLength := by
  intro cs n h
  have hle : ∀ word ∈ functionWords, wordLength word cs ≤ n := by
    rw [functionLength, foldl_max_le] at h
    simpa using h.2
  have hmap : functionWords.map (wordLength · (cs.take n)) = functionWords.map (wordLength · cs) :=
    List.map_congr_left fun word hword => local_wordLength word cs n (hle word hword)
  rw [functionLength, hmap, functionLength]

theorem solid_functionLength : Solid functionLength := by
  intro cs
  obtain hzero | hmem := foldl_max_mem (l := functionWords.map (wordLength · cs)) (a := 0)
  · rw [functionLength, hzero]
    exact solidTo_zero cs
  · obtain ⟨word, hword, hlen⟩ := List.mem_map.mp hmem
    rw [functionLength, ← hlen]
    exact solid_wordLength (List.all_eq_true.mp all_solidWord word hword) cs

/-- A name ends where its letters end, whatever follows. -/
theorem local_nameLength : Local nameLength := by
  intro cs n h
  cases cs with
  | nil => simp
  | cons c cs =>
    cases n with
    | zero =>
      rw [Nat.le_zero.mp h]
      rfl
    | succ n =>
      rw [nameLength] at h
      rw [List.take_succ_cons, nameLength, nameLength]
      split
      · next hc =>
        rw [if_pos hc] at h
        have hle : (cs.takeWhile continuesName).length ≤ n := by omega
        have hmore := local_takeWhile continuesName cs n hle
        dsimp only at hmore
        rw [hmore]
      · rfl

/-- There is no white space within a name. -/
theorem solid_nameLength : Solid nameLength := by
  intro cs
  cases cs with
  | nil => exact solidTo_zero []
  | cons c cs =>
    rw [nameLength]
    split
    · next hc =>
      refine solidTo_cons (isBlank_of_isNameChar hc) (solid_takeWhile (fun d hd => ?_) cs)
      exact isBlank_of_isNameChar (by rw [isNameChar, hd, Bool.true_or])
    · exact solidTo_zero _

/-! ## both together -/

/-- A measure of lexemes without white space that looks at the lexeme only. -/
structure Plain (f : List Char → Nat) : Prop where
  isLocal : Local f
  solid : Solid f
  le (cs : List Char) : f cs ≤ cs.length

/-- Characters by themselves are plain. -/
theorem plain_char {c : Char} (hc : isBlank c = false) : Plain (charLength c) :=
  ⟨local_charLength c, solid_charLength hc, charLength_le c⟩

/-- Command words are plain. -/
theorem plain_word {word : List Char} (hw : solidWord word = true) : Plain (wordLength word) :=
  ⟨local_wordLength word, solid_wordLength hw, wordLength_le word⟩

/-- Numbers are plain. -/
theorem plain_number : Plain numberLength :=
  ⟨local_numberLength, solid_numberLength, numberLength_le⟩

/-- Names of functions are plain. -/
theorem plain_function : Plain functionLength :=
  ⟨local_functionLength, solid_functionLength, functionLength_le⟩

theorem plain_name : Plain nameLength := ⟨local_nameLength, solid_nameLength, nameLength_le⟩

end Fluxion.Lexer

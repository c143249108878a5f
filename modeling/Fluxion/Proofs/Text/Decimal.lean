import Mathlib
import Fluxion.Number.Arith
import Fluxion.Text.Decimal

/-!
# Fluxion.Proofs.Text.Decimal

The form of decimals.

What counts as a decimal is said by its parts: digits with a point among or before them, then
perhaps an exponent.  A decimal in a text is measured as it is on its own unless the text goes on
like one (`EndsNumber`), and what is measured is a decimal.

* `Unsigned.numberLength_append`, `unsigned_of_numberLength`: decimals are found;
* `Unsigned.readNumber_eq`: and read as what their parts say.
-/

namespace Fluxion.Text

variable {cs ds fs m e rest whole fraction : List Char} {c : Char} {n : ℤ}

/-! ## digits -/

/-- Digits of any script. -/
def DigitsOnly (ds : List Char) : Prop := ∀ c ∈ ds, isDigit c = true

/-- The text does not begin with a digit. -/
def NoDigit (rest : List Char) : Prop := ∀ c ∈ rest.head?, isDigit c = false

/-- Digits end before what is not a digit. -/
theorem DigitsOnly.takeWhile_append (h : DigitsOnly ds) (hr : NoDigit rest) :
    (ds ++ rest).takeWhile isDigit = ds := by
  rw [List.takeWhile_append_of_pos h]
  cases rest with
  | nil => rw [List.takeWhile_nil, List.append_nil]
  | cons c rest => rw [List.takeWhile_cons_of_neg (by simp [hr c rfl]), List.append_nil]

/-- Digits are measured up to what is not a digit. -/
theorem DigitsOnly.digitsLength_append (h : DigitsOnly ds) (hr : NoDigit rest) :
    digitsLength (ds ++ rest) = ds.length := by
  rw [digitsLength, h.takeWhile_append hr]

/-- Behind the digits there is what is not a digit. -/
theorem DigitsOnly.dropWhile_append (h : DigitsOnly ds) (hr : NoDigit rest) :
    (ds ++ rest).dropWhile isDigit = rest := by
  rw [List.dropWhile_append_of_pos h]
  cases rest with
  | nil => rfl
  | cons c rest => rw [List.dropWhile_cons_of_neg (by simp [hr c rfl])]

theorem noDigit_nil : NoDigit [] := nofun

theorem noDigit_cons (h : isDigit c = false) (cs : List Char) : NoDigit (c :: cs) := by
  intro d hd
  rwa [← Option.some_inj.mp hd]

theorem not_isExponentMark_of_isDigit (h : isDigit c = true) : isExponentMark c = false := by
  rw [Bool.eq_false_iff]
  intro hmark
  simp only [isExponentMark, Bool.or_eq_true, beq_iff_eq] at hmark
  rcases hmark with rfl | rfl <;> exact absurd h (by decide)

theorem not_isSign_of_isDigit (h : isDigit c = true) : isSign c = false := by
  rw [Bool.eq_false_iff]
  intro hsign
  simp only [isSign, Bool.or_eq_true, beq_iff_eq] at hsign
  rcases hsign with rfl | rfl <;> exact absurd h (by decide)

/-- A text is cut behind its first digits. -/
theorem exists_digits (cs : List Char) :
    ∃ ds rest, cs = ds ++ rest ∧ DigitsOnly ds ∧ NoDigit rest := by
  refine ⟨cs.takeWhile isDigit, cs.dropWhile isDigit, List.takeWhile_append_dropWhile.symm, ?_, ?_⟩
  · exact fun c hc => List.mem_takeWhile_imp hc
  · intro c hc
    have hhead := List.head?_dropWhile_not isDigit cs
    rw [Option.mem_def.mp hc] at hhead
    simpa using hhead

/-! ## digits with a point -/

/-- Digits with a point among or before them, and the digits on both sides of it. -/
inductive Mantissa : List Char → List Char → List Char → Prop
  | whole {ds : List Char} : ds ≠ [] → DigitsOnly ds → Mantissa ds ds []
  | point {ds fs : List Char} : ds ≠ [] → DigitsOnly ds → DigitsOnly fs →
      Mantissa (ds ++ '.' :: fs) ds fs
  | fraction {fs : List Char} : fs ≠ [] → DigitsOnly fs → Mantissa ('.' :: fs) [] fs

/-- The text does not go on with a digit or a point. -/
def EndsMantissa (rest : List Char) : Prop := ∀ c ∈ rest.head?, isDigit c = false ∧ c ≠ '.'

theorem EndsMantissa.noDigit (h : EndsMantissa rest) : NoDigit rest := fun c hc => (h c hc).1

/-- Digits without a point are measured as a mantissa. -/
theorem mantissaLength_digits (hds : DigitsOnly ds) (hr : NoDigit rest)
    (hdot : ∀ c ∈ rest.head?, c ≠ '.') : mantissaLength (ds ++ rest) = ds.length := by
  rw [mantissaLength, hds.digitsLength_append hr, List.drop_left]
  cases rest with
  | nil => cases ds <;> rfl
  | cons c rest =>
      have hc : c ≠ '.' := hdot c rfl
      cases ds <;> simp [hc]

/-- A point counts if there is a digit before or after it. -/
theorem mantissaLength_point (hds : DigitsOnly ds) (hfs : DigitsOnly fs) (hr : NoDigit rest) :
    mantissaLength (ds ++ '.' :: (fs ++ rest)) =
      if ds = [] ∧ fs = [] then 0 else ds.length + 1 + fs.length := by
  have hdot : NoDigit ('.' :: (fs ++ rest)) := noDigit_cons (by decide) _
  rw [mantissaLength, hds.digitsLength_append hdot, List.drop_left]
  cases ds with
  | nil =>
      simp only [List.length_nil, hfs.digitsLength_append hr, List.length_eq_zero_iff, true_and]
      split
      · rfl
      · omega
  | cons d ds =>
      rw [if_neg (fun h => List.cons_ne_nil d ds h.1), ← hfs.digitsLength_append hr]
      rfl

/-- A mantissa is measured up to what does not go on with it. -/
theorem Mantissa.length_append (h : Mantissa m whole fraction) (hr : EndsMantissa rest) :
    mantissaLength (m ++ rest) = m.length := by
  cases h with
  | whole hne hds => exact mantissaLength_digits hds hr.noDigit fun c hc => (hr c hc).2
  | point hne hds hfs =>
      rw [List.append_assoc, List.cons_append, mantissaLength_point hds hfs hr.noDigit,
        if_neg (fun h => hne h.1), List.length_append, List.length_cons]
      omega
  | fraction hne hfs =>
      have hds : DigitsOnly [] := nofun
      have hlen := mantissaLength_point hds hfs hr.noDigit
      rw [if_neg (fun h => hne h.2)] at hlen
      rw [List.cons_append, List.length_cons]
      exact hlen.trans (by simp; omega)

/-- What is measured is of that form. -/
theorem exists_mantissa (h : mantissaLength cs ≠ 0) : ∃ m whole fraction rest,
    cs = m ++ rest ∧ Mantissa m whole fraction ∧ mantissaLength cs = m.length := by
  obtain ⟨ds, rest, rfl, hds, hr⟩ := exists_digits cs
  by_cases hdot : rest.head? = some '.'
  · obtain ⟨tail, rfl⟩ := List.head?_eq_some_iff.mp hdot
    obtain ⟨fs, rest, rfl, hfs, hr⟩ := exists_digits tail
    rw [mantissaLength_point hds hfs hr] at h ⊢
    have hne : ¬(ds = [] ∧ fs = []) := fun hnil => h (if_pos hnil)
    rw [if_neg hne]
    cases ds with
    | nil =>
        have hfsne : fs ≠ [] := fun hnil => hne ⟨rfl, hnil⟩
        exact ⟨'.' :: fs, [], fs, rest, rfl, .fraction hfsne hfs, by simp; omega⟩
    | cons d ds =>
        refine ⟨d :: ds ++ '.' :: fs, d :: ds, fs, rest, by simp, ?_, by simp; omega⟩
        exact .point (List.cons_ne_nil d ds) hds hfs
  · have hnot : ∀ c ∈ rest.head?, c ≠ '.' := fun c hc hceq => hdot (hceq ▸ hc)
    rw [mantissaLength_digits hds hr hnot] at h ⊢
    exact ⟨ds, ds, [], rest, rfl, .whole (fun hnil => h (by simp [hnil])) hds, rfl⟩

/-! ## signs -/

/-- A text of some form after an optional sign, and what it stands for. -/
inductive Signed {β : Type} (P : List Char → β → Prop) (neg : β → β) : List Char → β → Prop
  | plain {cs : List Char} {v : β} : P cs v → Signed P neg cs v
  | plus {cs : List Char} {v : β} : P cs v → Signed P neg ('+' :: cs) v
  | minus {cs : List Char} {v : β} : P cs v → Signed P neg ('-' :: cs) (neg v)

/-- A text that is not empty and begins with no sign. -/
def NoSign (cs : List Char) : Prop := ∃ c ds, cs = c :: ds ∧ isSign c = false

/-- What does not begin with a sign has none. -/
theorem NoSign.signLength_append (h : NoSign cs) (rest : List Char) :
    signLength (cs ++ rest) = 0 := by
  obtain ⟨c, ds, rfl, hc⟩ := h
  simp [signLength, hc]

section

variable {β : Type} {P : List Char → β → Prop} {neg : β → β} {v : β}

/-- A sign and what follows it. -/
theorem Signed.exists_sign (h : Signed P neg cs v) (hP : ∀ {cs v}, P cs v → NoSign cs) :
    ∃ sign body w, cs = sign ++ body ∧ (∀ c ∈ sign, isSign c = true) ∧ P body w ∧
      (∀ rest, signLength (sign ++ body ++ rest) = sign.length) ∧
      v = if cs.head? = some '-' then neg w else w := by
  cases h with
  | plain hp =>
      refine ⟨[], cs, v, rfl, nofun, hp, fun rest => (hP hp).signLength_append rest, ?_⟩
      obtain ⟨c, ds, rfl, hc⟩ := hP hp
      have hne : c ≠ '-' := by
        rintro rfl
        exact absurd hc (by decide)
      simp [hne]
  | plus hp => exact ⟨['+'], _, v, rfl, List.forall_mem_singleton.mpr rfl, hp, fun rest => rfl, rfl⟩
  | minus hp =>
      exact ⟨['-'], _, _, rfl, List.forall_mem_singleton.mpr rfl, hp, fun rest => rfl, rfl⟩

/-- A sign at the start of a text, which may stand before anything. -/
theorem exists_signLength (P : List Char → β → Prop) (neg : β → β) (cs : List Char) :
    ∃ sign body, cs = sign ++ body ∧ signLength cs = sign.length ∧
      ∀ {ds v}, P ds v → ∃ w, Signed P neg (sign ++ ds) w := by
  cases cs with
  | nil => exact ⟨[], [], rfl, rfl, fun hp => ⟨_, .plain hp⟩⟩
  | cons c cs =>
      by_cases hc : isSign c = true
      · refine ⟨[c], cs, rfl, by rw [signLength, if_pos hc]; rfl, fun hp => ?_⟩
        simp only [isSign, Bool.or_eq_true, beq_iff_eq] at hc
        rcases hc with rfl | rfl
        · exact ⟨_, .plus hp⟩
        · exact ⟨_, .minus hp⟩
      · exact ⟨[], c :: cs, rfl, by rw [signLength, if_neg hc]; rfl, fun hp => ⟨_, .plain hp⟩⟩

end

/-! ## whole numbers and exponents -/

/-- Digits, and the number that they stand for. -/
inductive Numerals : List Char → ℤ → Prop
  | mk {ds : List Char} : ds ≠ [] → DigitsOnly ds → Numerals ds (digitsValue ds)

/-- Digits after an optional sign. -/
abbrev WholeText : List Char → ℤ → Prop := Signed Numerals Neg.neg

/-- An exponent, which may be missing. -/
inductive Power : List Char → ℤ → Prop
  | none : Power [] 0
  | some {mark : Char} {text : List Char} {n : ℤ} : isExponentMark mark = true →
      WholeText text n → Power (mark :: text) n

/-- A row of digits does not begin with a sign. -/
theorem Numerals.noSign (h : Numerals ds n) : NoSign ds := by
  obtain ⟨hne, hds⟩ := h
  obtain ⟨c, cs, rfl⟩ := List.exists_cons_of_ne_nil hne
  exact ⟨c, cs, rfl, not_isSign_of_isDigit (hds c List.mem_cons_self)⟩

/-- A row of digits is measured up to what is not a digit. -/
theorem Numerals.digitsLength_append (h : Numerals ds n) (hr : NoDigit rest) :
    digitsLength (ds ++ rest) = ds.length := by
  obtain ⟨-, hds⟩ := h
  exact hds.digitsLength_append hr

theorem Numerals.length_ne_zero (h : Numerals ds n) : ds.length ≠ 0 := by
  obtain ⟨hne, -⟩ := h
  exact fun hzero => hne (List.length_eq_zero_iff.mp hzero)

/-- What is measured as digits is a number. -/
theorem exists_numerals (h : digitsLength cs ≠ 0) : ∃ ds n rest,
    cs = ds ++ rest ∧ Numerals ds n ∧ digitsLength cs = ds.length := by
  obtain ⟨ds, rest, rfl, hds, hr⟩ := exists_digits cs
  rw [hds.digitsLength_append hr] at h ⊢
  exact ⟨ds, _, rest, rfl, ⟨fun hnil => h (by rw [hnil, List.length_nil]), hds⟩, rfl⟩

/-- The text of a whole number is read as that number. -/
theorem WholeText.readInt_eq (h : WholeText cs n) : readInt cs = n := by
  cases h with
  | plain hds =>
      obtain ⟨c, ds, rfl, hc⟩ := hds.noSign
      obtain ⟨-, -⟩ := hds
      unfold readInt
      split
      · next heq => exact absurd hc (by rw [(List.cons.inj heq).1]; decide)
      · next heq => exact absurd hc (by rw [(List.cons.inj heq).1]; decide)
      · rfl
  | plus hds =>
      obtain ⟨-, -⟩ := hds
      rfl
  | minus hds =>
      obtain ⟨-, -⟩ := hds
      rfl

/-- The text does not go on like a number. -/
structure EndsNumber (rest : List Char) : Prop where
  endsMantissa : EndsMantissa rest
  noMark : ∀ c ∈ rest.head?, isExponentMark c = false

/-- An exponent ends the digits in front of it. -/
theorem Power.endsMantissa_append (h : Power e n) (hr : EndsNumber rest) :
    EndsMantissa (e ++ rest) := by
  cases h with
  | none => exact hr.endsMantissa
  | @some mark text n hmark =>
      intro c hc
      obtain rfl : mark = c := Option.some_inj.mp hc
      simp only [isExponentMark, Bool.or_eq_true, beq_iff_eq] at hmark
      rcases hmark with rfl | rfl <;> decide

/-- An exponent is measured up to what ends a number. -/
theorem Power.length_append (h : Power e n) (hr : EndsNumber rest) :
    exponentLength (e ++ rest) = e.length := by
  cases h with
  | none =>
      cases rest with
      | nil => rfl
      | cons c rest =>
          rw [List.nil_append, exponentLength, hr.noMark c rfl]
          rfl
  | @some mark text n hmark htext =>
      obtain ⟨sign, body, w, rfl, -, hbody, hsign, -⟩ := htext.exists_sign Numerals.noSign
      have hdrop : (sign ++ body ++ rest).drop sign.length = body ++ rest := by
        rw [List.append_assoc, List.drop_left]
      rw [List.cons_append, exponentLength, hsign rest, hdrop,
        hbody.digitsLength_append hr.endsMantissa.noDigit, hmark]
      simp [hbody.length_ne_zero]
      omega

/-- What is measured as an exponent is one. -/
theorem exists_power (cs : List Char) : ∃ e n rest,
    cs = e ++ rest ∧ Power e n ∧ exponentLength cs = e.length := by
  cases cs with
  | nil => exact ⟨[], 0, [], rfl, .none, rfl⟩
  | cons mark cs =>
      obtain ⟨sign, body, rfl, hsign, hsigned⟩ :=
        exists_signLength Numerals Neg.neg cs
      rw [exponentLength, hsign, List.drop_left]
      by_cases hmark : isExponentMark mark = true
      · by_cases hzero : digitsLength body = 0
        · exact ⟨[], 0, mark :: (sign ++ body), rfl, .none, by simp [hzero]⟩
        · obtain ⟨ds, n, rest, rfl, hds, hlen⟩ := exists_numerals hzero
          obtain ⟨k, hwhole⟩ := hsigned hds
          refine ⟨mark :: (sign ++ ds), k, rest, by simp, .some hmark hwhole, ?_⟩
          simp [hmark, hlen, hds.length_ne_zero]
          omega
      · exact ⟨[], 0, mark :: (sign ++ body), rfl, .none, by simp [hmark]⟩

/-! ## decimals -/

section

variable {α : Type} [Arith α] {v : α}

/-- A decimal without a sign, and the number that its parts stand for. -/
inductive Unsigned : List Char → α → Prop
  | mk {m whole fraction e : List Char} {n : ℤ} : Mantissa m whole fraction → Power e n →
      Unsigned (m ++ e) (Arith.ofDecimal (digitsValue (whole ++ fraction)) (n - fraction.length))

/-- A decimal with an optional sign. -/
abbrev NumberText : List Char → α → Prop := Signed Unsigned Arith.neg

/-- A mantissa begins with a digit or a point. -/
theorem Mantissa.exists_cons (h : Mantissa m whole fraction) :
    ∃ c cs, m = c :: cs ∧ (isDigit c = true ∨ c = '.') := by
  cases h with
  | whole hne hds =>
      obtain ⟨c, cs, rfl⟩ := List.exists_cons_of_ne_nil hne
      exact ⟨c, cs, rfl, .inl (hds c List.mem_cons_self)⟩
  | point hne hds =>
      obtain ⟨c, cs, rfl⟩ := List.exists_cons_of_ne_nil hne
      exact ⟨c, _, rfl, .inl (hds c List.mem_cons_self)⟩
  | fraction => exact ⟨'.', _, rfl, .inr rfl⟩

/-- A number without a sign does not begin with one. -/
theorem Unsigned.noSign (h : Unsigned cs v) : NoSign cs := by
  obtain ⟨hm, -⟩ := h
  obtain ⟨c, cs, rfl, hc⟩ := hm.exists_cons
  refine ⟨c, _, rfl, ?_⟩
  obtain hc | rfl := hc
  · exact not_isSign_of_isDigit hc
  · decide

/-- A number is measured up to what ends a number. -/
theorem Unsigned.length_append (h : Unsigned cs v) (hr : EndsNumber rest) :
    numberLength (cs ++ rest) = cs.length := by
  obtain ⟨hm, he⟩ := h
  obtain ⟨c, ds, hcons, -⟩ := hm.exists_cons
  have hlen := hm.length_append (he.endsMantissa_append hr)
  rw [List.append_assoc, numberLength, hlen, List.drop_left, he.length_append hr,
    List.length_append, if_neg (by simp [hcons])]

/-- What is measured as a decimal is one. -/
theorem exists_unsigned (h : numberLength cs ≠ 0) : ∃ text rest, ∃ v : α,
    cs = text ++ rest ∧ Unsigned text v ∧ numberLength cs = text.length := by
  have hm : mantissaLength cs ≠ 0 := fun hzero => h (by rw [numberLength, if_pos hzero])
  obtain ⟨m, whole, fraction, rest, rfl, hmantissa, hlen⟩ := exists_mantissa hm
  obtain ⟨e, n, rest, rfl, he, hpower⟩ := exists_power rest
  refine ⟨m ++ e, rest, _, (List.append_assoc m e rest).symm, ⟨hmantissa, he⟩, ?_⟩
  rw [numberLength, if_neg hm, hlen, List.drop_left, hpower, List.length_append]

/-! ### reading decimals -/

theorem DigitsOnly.not_mark (h : DigitsOnly ds) : ∀ c ∈ ds, (!isExponentMark c) = true := by
  intro c hc
  rw [not_isExponentMark_of_isDigit (h c hc), Bool.not_false]

/-- There is no mark of an exponent in a mantissa. -/
theorem Mantissa.not_mark (h : Mantissa m whole fraction) :
    ∀ c ∈ m, (!isExponentMark c) = true := by
  cases h with
  | whole _ hds => exact hds.not_mark
  | point _ hds hfs =>
      exact List.forall_mem_append.mpr
        ⟨hds.not_mark, List.forall_mem_cons.mpr ⟨by decide, hfs.not_mark⟩⟩
  | fraction _ hfs => exact List.forall_mem_cons.mpr ⟨by decide, hfs.not_mark⟩

/-- The digits of a mantissa are those before and after its point. -/
theorem Mantissa.filter_eq (h : Mantissa m whole fraction) :
    m.filter isDigit = whole ++ fraction := by
  cases h with
  | whole _ hds => rw [List.filter_eq_self.mpr hds, List.append_nil]
  | point _ hds hfs =>
      rw [List.filter_append, List.filter_eq_self.mpr hds, List.filter_cons_of_neg (by decide),
        List.filter_eq_self.mpr hfs]
  | fraction _ hfs =>
      rw [List.filter_cons_of_neg (by decide), List.filter_eq_self.mpr hfs, List.nil_append]

/-- Behind the point of a mantissa there is its fraction. -/
theorem Mantissa.drop_eq (h : Mantissa m whole fraction) :
    (m.dropWhile isDigit).drop 1 = fraction := by
  cases h with
  | whole _ hds =>
      have hall := hds.dropWhile_append noDigit_nil
      rw [List.append_nil] at hall
      rw [hall]
      rfl
  | point _ hds =>
      rw [hds.dropWhile_append (noDigit_cons (by decide) _), List.drop_one, List.tail_cons]
  | fraction => rw [List.dropWhile_cons_of_neg (by decide), List.drop_one, List.tail_cons]

/-- Digits end where the exponent begins. -/
theorem Power.cut_eq (h : Power e n) (hm : ∀ c ∈ m, (!isExponentMark c) = true) :
    (m ++ e).takeWhile (fun c => !isExponentMark c) = m ∧
      readInt (((m ++ e).dropWhile fun c => !isExponentMark c).drop 1) = n := by
  rw [List.takeWhile_append_of_pos hm, List.dropWhile_append_of_pos hm]
  cases h with
  | none => exact ⟨List.append_nil m, rfl⟩
  | @some mark text n hmark htext =>
      rw [List.takeWhile_cons_of_neg (by simp [hmark]),
        List.dropWhile_cons_of_neg (by simp [hmark])]
      exact ⟨List.append_nil m, htext.readInt_eq⟩

/-- A decimal is read as what its parts stand for. -/
theorem Unsigned.readNumber_eq (h : Unsigned cs v) :
    Arith.ofDecimal (readNumber cs).1 (readNumber cs).2 = v := by
  obtain ⟨hm, he⟩ := h
  obtain ⟨hcut, hexponent⟩ := he.cut_eq hm.not_mark
  rw [readNumber, hcut, hexponent, hm.filter_eq, hm.drop_eq]

end

end Fluxion.Text

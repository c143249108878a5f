import Fluxion.Number.Layout
import Fluxion.Proofs.Number.Decimal
import Fluxion.Text.Decimal

/-!
# Fluxion.Proofs.Number.Layout

Digits that are set out as text and read again.

Whatever the layout, the text of a magnitude is one decimal: digits, perhaps with a point among
them, and perhaps an exponent (`Written`).  Such a text is found as a whole and read as the number
that its digits stand for.

* `Written.numberLength_chars`, `Written.readNumber_chars`: decimals are found and read;
* `Layout.exists_written`: the text of a magnitude is a decimal of the same value.
-/

namespace Fluxion

open Text

/-! ## digits -/

namespace Text

/-- These are digits, written as numbers write them. -/
def AllDigits (cs : List Char) : Prop := ∀ c ∈ cs, c.isDigit = true

variable {cs ds : List Char} {c : Char}

theorem AllDigits.append (hc : AllDigits cs) (hd : AllDigits ds) : AllDigits (cs ++ ds) := by
  intro c h
  obtain h | h := List.mem_append.mp h
  · exact hc c h
  · exact hd c h

/-- What is left of digits are digits. -/
theorem AllDigits.of_sublist (hc : AllDigits cs) (h : ds.Sublist cs) : AllDigits ds :=
  fun c hd => hc c (h.subset hd)

theorem allDigits_replicate (n : ℕ) : AllDigits (List.replicate n '0') := by
  intro c hc
  rw [List.eq_of_mem_replicate hc]
  rfl

/-- The digits of a natural number are digits. -/
theorem allDigits_toDigits (n : ℕ) : AllDigits (Nat.toDigits 10 n) := fun _ hc =>
  Nat.isDigit_of_mem_toDigits (by decide) (by decide) hc

/-- The value of a digit is its place among the digits. -/
theorem digitValue?_eq (h : c.isDigit = true) : digitValue? c = some (c.toNat - '0'.toNat) := by
  have hrange : 48 ≤ c.toNat ∧ c.toNat ≤ 57 := by
    simpa [Char.isDigit, UInt32.le_iff_toNat_le] using h
  have hlow : c.toNat < 128 := by omega
  have hhigh : c.toNat < 58 := by omega
  simp [digitValue?, hrange.1, hlow, hhigh]

/-- Decimal digits are among the digits of all scripts. -/
theorem AllDigits.isDigit (h : AllDigits cs) : ∀ c ∈ cs, isDigit c = true := by
  intro c hc
  rw [Text.isDigit, digitValue?_eq (h c hc)]
  rfl

/-- The value of a row of digits is that of the decimal. -/
theorem AllDigits.digitsValue_eq (h : AllDigits cs) : digitsValue cs = Nat.ofDigitChars 10 cs 0 := by
  rw [digitsValue, Nat.ofDigitChars_eq_foldl]
  apply List.foldl_ext
  intro n c hc
  rw [digitValue?_eq (h c hc), Option.getD_some]

theorem isExponentMark_of_isDigit (h : c.isDigit = true) : isExponentMark c = false := by
  rw [Bool.eq_false_iff]
  intro hmark
  simp only [isExponentMark, Bool.or_eq_true, beq_iff_eq] at hmark
  obtain rfl | rfl := hmark
  · exact absurd h (by decide)
  · exact absurd h (by decide)

/-- A row of digits ends before what is not a digit. -/
theorem AllDigits.takeWhile_append (h : AllDigits cs) (hd : ∀ d ∈ ds.head?, Text.isDigit d = false) :
    (cs ++ ds).takeWhile Text.isDigit = cs := by
  rw [List.takeWhile_append_of_pos h.isDigit]
  cases ds with
  | nil => rw [List.takeWhile_nil, List.append_nil]
  | cons d ds => rw [List.takeWhile_cons_of_neg (by simp [hd d rfl]), List.append_nil]

/-- A row of digits is measured up to what is not a digit. -/
theorem AllDigits.digitsLength_append (h : AllDigits cs)
    (hd : ∀ d ∈ ds.head?, Text.isDigit d = false) : digitsLength (cs ++ ds) = cs.length := by
  rw [digitsLength, h.takeWhile_append hd]

theorem AllDigits.digitsLength_eq (h : AllDigits cs) : digitsLength cs = cs.length := by
  rw [digitsLength, List.takeWhile_eq_self_iff.mpr h.isDigit]

end Text

/-! ## written decimals -/

/-- A decimal as it is written: digits, further digits after a point if there are any, and perhaps
an exponent. -/
structure Written where
  whole : List Char
  fraction : List Char
  exponent : Option Int

namespace Written

/-- Digits after a point. -/
def pointText : List Char → List Char
  | [] => []
  | d :: ds => '.' :: d :: ds

/-- An exponent after its letter. -/
def powerText : Option Int → List Char
  | none => []
  | some e => 'e' :: Layout.exponentText e

/-- The text of a decimal. -/
def chars (w : Written) : List Char := w.whole ++ (pointText w.fraction ++ powerText w.exponent)

/-- All digits before the exponent. -/
def digits (w : Written) : List Char := w.whole ++ w.fraction

/-- The decimal exponent of the digits, read as one whole number. -/
def power (w : Written) : Int := w.exponent.getD 0 - w.fraction.length

/-- There are digits before the point, and all digits are. -/
structure WellFormed (w : Written) : Prop where
  nonempty : w.whole ≠ []
  whole : AllDigits w.whole
  fraction : AllDigits w.fraction

/-! ### exponents -/

/-- An exponent is written with its sign and the digits of its absolute value. -/
theorem exists_exponentText (e : Int) : ∃ sign ds, Layout.exponentText e = sign :: ds ∧
    isSign sign = true ∧ AllDigits ds ∧ ds ≠ [] ∧ digitsValue ds = e.natAbs ∧
    (sign = '-' ↔ e < 0) := by
  have hdigits : AllDigits (Nat.toDigits 10 e.natAbs) := allDigits_toDigits _
  have hvalue : digitsValue (Nat.toDigits 10 e.natAbs) = e.natAbs := by
    rw [hdigits.digitsValue_eq, Nat.ofDigitChars_ten_toDigits]
  refine ⟨_, _, rfl, ?_, ?_, ?_, ?_, ?_⟩
  · split <;> rfl
  · split
    · exact (allDigits_replicate 1).append hdigits
    · exact hdigits
  · split
    · exact List.cons_ne_nil _ _
    · exact Nat.toDigits_ne_nil
  · split
    · exact hvalue
    · exact hvalue
  · split <;> simp_all

/-- An exponent is read as it was written. -/
theorem readInt_exponentText (e : Int) : readInt (Layout.exponentText e) = e := by
  obtain ⟨sign, ds, htext, hsign, -, -, hvalue, hneg⟩ := exists_exponentText e
  rw [htext]
  simp only [isSign, Bool.or_eq_true, beq_iff_eq] at hsign
  obtain rfl | rfl := hsign
  · have hnonneg : 0 ≤ e := not_lt.mp fun h => absurd (hneg.mpr h) (by decide)
    rw [readInt, hvalue, Int.natAbs_of_nonneg hnonneg]
  · have hlt : e < 0 := hneg.mp rfl
    rw [readInt, hvalue, Int.ofNat_natAbs_of_nonpos hlt.le, neg_neg]

/-- An exponent is measured with its mark and its sign. -/
theorem exponentLength_powerText (e : Option Int) :
    exponentLength (powerText e) = (powerText e).length := by
  cases e with
  | none => rfl
  | some e =>
      obtain ⟨sign, ds, htext, hsign, hds, hne, -, -⟩ := exists_exponentText e
      have hmark : isExponentMark 'e' = true := rfl
      rw [powerText, htext, exponentLength, signLength, if_pos hsign, List.drop_one,
        List.tail_cons, hds.digitsLength_eq]
      simp [hmark, hne]
      omega

/-! ### finding a decimal -/

/-- An exponent does not begin with a digit. -/
theorem not_isDigit_head_powerText (e : Option Int) :
    ∀ d ∈ (powerText e).head?, isDigit d = false := by
  cases e with
  | none => exact nofun
  | some e =>
      intro d hd
      obtain rfl : 'e' = d := Option.some.inj hd
      rfl

/-- The whole part of a decimal ends where its digits end. -/
theorem not_isDigit_head (w : Written) :
    ∀ d ∈ (pointText w.fraction ++ powerText w.exponent).head?, isDigit d = false := by
  cases w.fraction with
  | nil => exact not_isDigit_head_powerText w.exponent
  | cons f fs =>
      intro d hd
      obtain rfl : '.' = d := Option.some.inj hd
      rfl

variable {w : Written}

/-- The mantissa is measured up to the exponent. -/
theorem WellFormed.mantissaLength_chars (hw : w.WellFormed) :
    mantissaLength w.chars = w.whole.length + (pointText w.fraction).length := by
  obtain ⟨n, hn⟩ : ∃ n, w.whole.length = n + 1 :=
    Nat.exists_eq_succ_of_ne_zero fun h => hw.nonempty (List.length_eq_zero_iff.mp h)
  have hwhole : digitsLength w.chars = n + 1 :=
    (hw.whole.digitsLength_append w.not_isDigit_head).trans hn
  have hdrop : w.chars.drop (n + 1) = pointText w.fraction ++ powerText w.exponent := by
    rw [chars, ← hn, List.drop_left]
  have hfraction := hw.fraction.digitsLength_append (not_isDigit_head_powerText w.exponent)
  rw [mantissaLength, hwhole, hdrop, hn]
  cases hw' : w.fraction with
  | nil =>
      cases w.exponent with
      | none => rfl
      | some e => rfl
  | cons f fs =>
      rw [hw', List.cons_append] at hfraction
      simp only [pointText, List.cons_append, hfraction, List.length_cons]
      omega

theorem WellFormed.head?_chars (hw : w.WellFormed) : w.chars.head? = w.whole.head? :=
  List.head?_append_of_ne_nil _ hw.nonempty

/-- The text of a decimal is found as a whole. -/
theorem WellFormed.numberLength_chars (hw : w.WellFormed) :
    numberLength w.chars = w.chars.length := by
  have hmantissa := hw.mantissaLength_chars
  have hdrop : w.chars.drop (w.whole.length + (pointText w.fraction).length) =
      powerText w.exponent := by
    rw [chars, ← List.append_assoc, ← List.length_append, List.drop_left]
  have hpos : 0 < w.whole.length := List.length_pos_iff.mpr hw.nonempty
  rw [numberLength, hmantissa, if_neg (by omega), hdrop, exponentLength_powerText, chars,
    List.length_append, List.length_append]
  omega

/-! ### reading a decimal -/

/-- Behind a point there are the digits of the fraction. -/
theorem mem_pointText {fraction : List Char} {c : Char} (h : c ∈ pointText fraction) :
    c = '.' ∨ c ∈ fraction := by
  cases fraction with
  | nil => exact nomatch h
  | cons d ds => exact List.mem_cons.mp h

/-- There is no mark of an exponent in the mantissa. -/
theorem WellFormed.not_isExponentMark (hw : w.WellFormed) :
    ∀ c ∈ w.whole ++ pointText w.fraction, (!isExponentMark c) = true := by
  intro c hc
  rw [Bool.not_eq_true']
  obtain hc | hc := List.mem_append.mp hc
  · exact isExponentMark_of_isDigit (hw.whole c hc)
  · obtain rfl | hc := mem_pointText hc
    · rfl
    · exact isExponentMark_of_isDigit (hw.fraction c hc)

/-- The mantissa is what stands before the mark of the exponent. -/
theorem WellFormed.mantissa_chars (hw : w.WellFormed) :
    w.chars.takeWhile (fun c => !isExponentMark c) = w.whole ++ pointText w.fraction := by
  rw [chars, ← List.append_assoc, List.takeWhile_append_of_pos hw.not_isExponentMark]
  cases w.exponent with
  | none => exact List.append_nil _
  | some e => exact List.append_nil _

/-- The exponent is read from what stands behind its mark. -/
theorem WellFormed.exponent_chars (hw : w.WellFormed) :
    readInt ((w.chars.dropWhile (fun c => !isExponentMark c)).drop 1) = w.exponent.getD 0 := by
  rw [chars, ← List.append_assoc, List.dropWhile_append_of_pos hw.not_isExponentMark]
  cases w.exponent with
  | none => rfl
  | some e => exact readInt_exponentText e

theorem dropWhile_pointText (fraction : List Char) :
    (pointText fraction).dropWhile isDigit = pointText fraction := by
  cases fraction <;> rfl

theorem drop_pointText (fraction : List Char) : (pointText fraction).drop 1 = fraction := by
  cases fraction <;> rfl

/-- The digits of a fraction are those of its text. -/
theorem filter_pointText {fraction : List Char} (h : AllDigits fraction) :
    (pointText fraction).filter isDigit = fraction := by
  cases fraction with
  | nil => rfl
  | cons d ds =>
      rw [pointText, List.filter_cons_of_neg (by decide), List.filter_eq_self.mpr h.isDigit]

/-- The text of a decimal is read as its digits and their exponent. -/
theorem WellFormed.readNumber_chars (hw : w.WellFormed) :
    readNumber w.chars = (Nat.ofDigitChars 10 w.digits 0, w.power) := by
  have hpoint : (w.whole ++ pointText w.fraction).dropWhile isDigit = pointText w.fraction := by
    rw [List.dropWhile_append_of_pos hw.whole.isDigit, dropWhile_pointText]
  have hdigits : (w.whole ++ pointText w.fraction).filter isDigit = w.digits := by
    rw [List.filter_append, List.filter_eq_self.mpr hw.whole.isDigit,
      filter_pointText hw.fraction, digits]
  have hall : AllDigits w.digits := hw.whole.append hw.fraction
  rw [readNumber, hw.mantissa_chars, hw.exponent_chars, hpoint, hdigits, drop_pointText,
    hall.digitsValue_eq, power]

/-- The number that a decimal stands for. -/
noncomputable def value (w : Written) : ℝ :=
  Nat.ofDigitChars 10 w.digits 0 * ((10 : ℕ) : ℝ) ^ w.power

/-- Zeros at the end of the digits. -/
theorem value_of_zeros {w : Written} {ds : List Char} {n : ℕ}
    (h : w.digits = ds ++ List.replicate n '0') :
    w.value = Nat.ofDigitChars 10 ds 0 * 10 ^ (n + w.power) := by
  rw [value, h, Nat.ofDigitChars_append, Nat.ofDigitChars_replicate_zero, Nat.cast_ofNat,
    zpow_add₀ (by norm_num), zpow_natCast]
  push_cast
  ring

end Written

/-! ## the digits of a number -/

namespace Digits

/-- Zeros at the end are left out, and there is one digit at least. -/
theorem exists_significant (d : Digits) : AllDigits d.significant ∧ d.significant ≠ [] ∧
    ∃ k, Nat.ofDigitChars 10 d.significant 0 * 10 ^ k = d.value ∧
      d.significant.length + k = decimalLength d.value := by
  let zeros := (Nat.toDigits 10 d.value).reverse.takeWhile (· == '0')
  let kept := ((Nat.toDigits 10 d.value).reverse.dropWhile (· == '0')).reverse
  have hsignificant : d.significant = if kept.isEmpty then ['0'] else kept := rfl
  have hzeros : zeros.reverse = List.replicate zeros.length '0' := by
    rw [List.eq_replicate_iff, List.length_reverse]
    refine ⟨rfl, fun c hc => ?_⟩
    have hmem : c ∈ zeros := List.mem_reverse.mp hc
    simpa using List.mem_takeWhile_imp hmem
  have hsplit : kept ++ List.replicate zeros.length '0' = Nat.toDigits 10 d.value := by
    rw [← hzeros, ← List.reverse_append, List.takeWhile_append_dropWhile, List.reverse_reverse]
  have hvalue : Nat.ofDigitChars 10 kept 0 * 10 ^ zeros.length = d.value := by
    rw [mul_comm, ← Nat.ofDigitChars_replicate_zero, ← Nat.ofDigitChars_append, hsplit,
      Nat.ofDigitChars_ten_toDigits]
  rw [hsignificant]
  split
  next h =>
    -- nothing but zeros: the number is zero, and one zero is kept
    rw [List.isEmpty_iff.mp h, Nat.ofDigitChars_nil, zero_mul] at hvalue
    refine ⟨allDigits_replicate 1, List.cons_ne_nil _ _, 0, ?_, ?_⟩
    · rw [← hvalue]
      rfl
    · rw [← hvalue]
      rfl
  next h =>
    refine ⟨(allDigits_toDigits d.value).of_sublist ?_, ?_, zeros.length, hvalue, ?_⟩
    · rw [← hsplit]
      exact List.sublist_append_left _ _
    · rw [← List.isEmpty_eq_false_iff]
      exact Bool.eq_false_iff.mpr h
    · rw [decimalLength, ← hsplit, List.length_append, List.length_replicate]

/-- The value of some digits is that of the whole number, moved to its place. -/
theorem toReal_eq (d : Digits) : d.toReal =
    Nat.ofDigitChars 10 d.significant 0 * 10 ^ (d.exponent + 1 - d.significant.length) := by
  obtain ⟨-, -, k, hvalue, hlength⟩ := d.exists_significant
  rw [toReal, ← hlength, ← hvalue, Nat.cast_mul, Nat.cast_pow, Nat.cast_ofNat, mul_assoc,
    ← zpow_natCast, ← zpow_add₀ (by norm_num)]
  congr 2
  push_cast
  ring

end Digits

/-! ## layouts -/

namespace Layout

/-- Digits all of which stand before the point. -/
theorem exists_whole (keep : Bool) {ds : List Char} (hds : AllDigits ds) (hne : ds ≠ []) {e : ℕ}
    (he : ds.length ≤ e + 1) : ∃ w : Written, w.WellFormed ∧
      positional keep ds (.ofNat e) = w.chars ∧
      w.value = Nat.ofDigitChars 10 ds 0 * 10 ^ ((e : ℤ) + 1 - ds.length) := by
  let zeros := e + 1 - ds.length
  let more := if keep then 1 else 0
  let w : Written := ⟨ds ++ List.replicate zeros '0', List.replicate more '0', none⟩
  have htake : ds.take (e + 1) = ds := List.take_of_length_le he
  have hdrop : ds.drop (e + 1) = [] := List.drop_of_length_le he
  have hdigits : w.digits = ds ++ List.replicate (zeros + more) '0' := by
    rw [Written.digits, List.append_assoc, List.replicate_append_replicate]
  refine ⟨w, ⟨?_, ?_, ?_⟩, ?_, ?_⟩
  · exact List.append_ne_nil_of_left_ne_nil hne _
  · exact hds.append (allDigits_replicate _)
  · exact allDigits_replicate _
  · rw [positional, htake, hdrop, Written.chars]
    cases keep <;> simp [w, zeros, more, Written.pointText, Written.powerText]
  · have hpower : ((zeros + more : ℕ) : ℤ) + w.power = e + 1 - ds.length := by
      rw [Written.power, List.length_replicate, Option.getD_none]
      push_cast [zeros, Nat.cast_sub he]
      ring
    rw [Written.value_of_zeros hdigits, hpower]

/-- Digits with the point among them. -/
theorem exists_fraction (keep : Bool) {ds : List Char} (hds : AllDigits ds) {e : ℕ}
    (he : e + 1 < ds.length) : ∃ w : Written, w.WellFormed ∧
      positional keep ds (.ofNat e) = w.chars ∧
      w.value = Nat.ofDigitChars 10 ds 0 * 10 ^ ((e : ℤ) + 1 - ds.length) := by
  let w : Written := ⟨ds.take (e + 1), ds.drop (e + 1), none⟩
  have hzeros : e + 1 - ds.length = 0 := by omega
  have hdigits : w.digits = ds := List.take_append_drop _ _
  refine ⟨w, ⟨?_, ?_, ?_⟩, ?_, ?_⟩
  · rw [ne_eq, List.take_eq_nil_iff]
    rintro (h | rfl)
    · exact nomatch h
    · exact nomatch he
  · exact hds.of_sublist (List.take_sublist _ _)
  · exact hds.of_sublist (List.drop_sublist _ _)
  · rw [positional, hzeros, List.replicate_zero, List.append_nil, Written.chars]
    cases hrest : ds.drop (e + 1) with
    | nil => exact absurd (List.drop_eq_nil_iff.mp hrest) (not_le.mpr he)
    | cons d rest => simp [w, hrest, Written.pointText, Written.powerText]
  · have hpower : w.power = e + 1 - ds.length := by
      rw [Written.power, List.length_drop, Option.getD_none]
      push_cast [Nat.cast_sub he.le]
      ring
    rw [Written.value, Nat.cast_ofNat, hdigits, hpower]

/-- Digits after a point and zeros. -/
theorem exists_small (keep : Bool) {ds : List Char} (hds : AllDigits ds) (hne : ds ≠ []) (e : ℕ) :
    ∃ w : Written, w.WellFormed ∧ positional keep ds (.negSucc e) = w.chars ∧
      w.value = Nat.ofDigitChars 10 ds 0 * 10 ^ (Int.negSucc e + 1 - ds.length) := by
  let w : Written := ⟨['0'], List.replicate e '0' ++ ds, none⟩
  refine ⟨w, ⟨?_, ?_, ?_⟩, ?_, ?_⟩
  · exact List.cons_ne_nil _ _
  · exact allDigits_replicate 1
  · exact (allDigits_replicate e).append hds
  · rw [positional, Written.chars]
    cases hrest : List.replicate e '0' ++ ds with
    | nil => exact absurd (List.append_eq_nil_iff.mp hrest).2 hne
    | cons d rest => simp [w, hrest, Written.pointText, Written.powerText]
  · have hdigits : Nat.ofDigitChars 10 w.digits 0 = Nat.ofDigitChars 10 ds 0 := by
      rw [Written.digits, List.singleton_append, ← List.cons_append, ← List.replicate_succ,
        Nat.ofDigitChars_append, Nat.ofDigitChars_replicate_zero, mul_zero]
    have hpower : w.power = Int.negSucc e + 1 - ds.length := by
      rw [Written.power, List.length_append, List.length_replicate, Option.getD_none,
        Int.negSucc_eq]
      push_cast
      ring
    rw [Written.value, Nat.cast_ofNat, hdigits, hpower]

/-- Digits in positional notation are a decimal. -/
theorem exists_positional (keep : Bool) {ds : List Char} (hds : AllDigits ds) (hne : ds ≠ [])
    (e : Int) : ∃ w : Written, w.WellFormed ∧ positional keep ds e = w.chars ∧
      w.value = Nat.ofDigitChars 10 ds 0 * 10 ^ (e + 1 - ds.length) := by
  cases e with
  | ofNat e =>
      obtain he | he := le_or_gt ds.length (e + 1)
      · exact exists_whole keep hds hne he
      · exact exists_fraction keep hds he
  | negSucc e => exact exists_small keep hds hne e

/-- Digits in scientific notation are a decimal. -/
theorem exists_pointed {ds : List Char} (hds : AllDigits ds) (hne : ds ≠ []) (e : Int) :
    ∃ w : Written, w.WellFormed ∧ pointed ds ++ 'e' :: exponentText e = w.chars ∧
      w.value = Nat.ofDigitChars 10 ds 0 * 10 ^ (e + 1 - ds.length) := by
  cases ds with
  | nil => exact absurd rfl hne
  | cons d ds =>
      refine ⟨⟨[d], ds, some e⟩, ⟨List.cons_ne_nil _ _, ?_, ?_⟩, ?_, ?_⟩
      · exact hds.of_sublist (List.singleton_sublist.mpr List.mem_cons_self)
      · exact hds.of_sublist (List.sublist_cons_self d ds)
      · cases ds <;> rfl
      · rw [Written.value, Written.digits, Written.power, List.singleton_append, List.length_cons,
          Option.getD_some]
        push_cast
        congr 2
        ring

/-- The text of a magnitude is a decimal that stands for its digits. -/
theorem exists_written (l : Layout) (d : Digits) :
    ∃ w : Written, w.WellFormed ∧ l.unsigned d = w.chars ∧ w.value = d.toReal := by
  obtain ⟨hds, hne, -⟩ := d.exists_significant
  rw [unsigned, d.toReal_eq]
  split
  · exact exists_positional l.keepFraction hds hne d.exponent
  · exact exists_pointed hds hne d.exponent

end Layout

end Fluxion

import Fluxion.Problem.Load
import Fluxion.Proofs.Token.Measure
import Fluxion.Proofs.Text.Decimal

/-!
# Fluxion.Proofs.Problem.Line

The forms of the lines of a problem file.

What a line is made of is said without a pattern: its words, white space that may or has to stand
between them, and the parts that are answered.  Patterns take as much as they can at every place, so
a line of the form is matched because no part can reach into the next one, and what is matched is of
the form.

* `Problem.FunctionForm`, `Problem.SeriesForm`, `Problem.TangentForm`, `Problem.RangeForm`: the
  forms;
* `Problem.functionForm_of_match`, `Problem.FunctionForm.match_eq` and those of the other lines: a
  pattern matches the lines of its form.
-/

namespace Fluxion

open Text

variable {β γ : Type} {cs rest text : List Char}

namespace Pattern

/-! ## patterns in steps -/

/-- Two patterns one after the other match if the second one matches what the first one leaves. -/
theorem bind_eq_some {p : Pattern β} {f : β → Pattern γ} {r : γ × List Char} :
    (p >>= f) cs = some r ↔ ∃ b m, p cs = some (b, m) ∧ f b m = some r := by
  change (p cs >>= fun q => f q.1 q.2) = some r ↔ _
  cases h : p cs with
  | none => simp
  | some q =>
      obtain ⟨b, m⟩ := q
      constructor
      · exact fun hf => ⟨b, m, rfl, hf⟩
      · rintro ⟨b', m', heq, hf⟩
        cases heq
        exact hf

theorem bind_of_some {p : Pattern β} {b : β} {m : List Char} (h : p cs = some (b, m))
    (f : β → Pattern γ) : (p >>= f) cs = f b m := by
  change (p cs >>= fun q => f q.1 q.2) = _
  rw [h]
  rfl

/-- A pattern matches a whole line if it leaves nothing. -/
theorem matchAll_eq_some {p : Pattern β} {b : β} :
    p.matchAll cs = some b ↔ p cs = some (b, []) := by
  unfold matchAll
  split
  · next h => simp [h]
  · next h =>
    constructor
    · exact nofun
    · intro hp
      exact absurd hp (h b)

/-! ## words and white space -/

/-- What is left behind a word is the rest of a text that begins with it. -/
theorem after?_eq_some {word : List Char} : after? word cs = some rest ↔ cs = word ++ rest := by
  unfold after?
  split
  · next h =>
    obtain ⟨tail, rfl⟩ := List.isPrefixOf_iff_prefix.mp h
    simp
  · next h =>
    constructor
    · exact nofun
    · rintro rfl
      exact absurd (List.isPrefixOf_iff_prefix.mpr (List.prefix_append _ _)) h

/-- A word matches itself at the beginning of a text. -/
theorem word_eq_some {s : String} : word s cs = some ((), rest) ↔ cs = s.toList ++ rest := by
  rw [← after?_eq_some, word]
  simp

/-- A word is found in front of any text. -/
theorem word_append (s : String) (rest : List Char) : word s (s.toList ++ rest) = some ((), rest) :=
  word_eq_some.mpr rfl

/-- White space, or nothing. -/
def Blank (b : List Char) : Prop := ∀ c ∈ b, isBlank c = true

/-- White space. -/
structure Gap (b : List Char) : Prop where
  nonempty : b ≠ []
  blank : Blank b

/-- The text does not begin with white space. -/
def NoBlank (rest : List Char) : Prop := ∀ c ∈ rest.head?, isBlank c = false

/-- The word begins with a character of this kind. -/
def StartsBy (p : Char → Bool) (s : String) : Prop := s.toList.head?.any p = true

instance (p : Char → Bool) (s : String) : Decidable (StartsBy p s) :=
  inferInstanceAs (Decidable (s.toList.head?.any p = true))

/-- What begins with a character of a kind does so whatever follows. -/
theorem StartsBy.exists_cons {p : Char → Bool} {s : String} (h : StartsBy p s) (rest : List Char) :
    ∃ c cs, s.toList ++ rest = c :: cs ∧ p c = true := by
  unfold StartsBy at h
  cases hs : s.toList with
  | nil =>
      rw [hs] at h
      cases h
  | cons c cs =>
      rw [hs] at h
      exact ⟨c, cs ++ rest, rfl, h⟩

/-- A word that does not begin with white space ends the white space before it. -/
theorem noBlank_word {s : String} (h : StartsBy (!isBlank ·) s) (rest : List Char) :
    NoBlank (s.toList ++ rest) := by
  obtain ⟨c, cs, hcs, hc⟩ := h.exists_cons rest
  rw [hcs]
  intro d hd
  rw [← Option.some_inj.mp hd]
  simpa using hc

/-- White space is taken from the front up to what does not begin with it. -/
theorem trimStart_append {b : List Char} (hb : Blank b) (hr : NoBlank rest) :
    trimStart (b ++ rest) = rest := by
  rw [trimStart, List.dropWhile_append_of_pos hb]
  cases rest with
  | nil => rfl
  | cons c rest => rw [List.dropWhile_cons_of_neg (by simp [hr c rfl])]

/-- Without white space at the start, a text begins with none whatever follows it. -/
theorem noBlank_trimStart_append (cs : List Char) (hr : NoBlank rest) :
    NoBlank (trimStart cs ++ rest) := by
  cases htrim : trimStart cs with
  | nil => exact hr
  | cons c ds =>
      have hhead := List.head?_dropWhile_not isBlank cs
      rw [← trimStart, htrim] at hhead
      rintro d hd
      obtain rfl : c = d := Option.some_inj.mp hd
      simpa using hhead

/-- White space at the start is cut off. -/
theorem exists_trimStart (cs : List Char) : ∃ b, Blank b ∧ cs = b ++ trimStart cs :=
  ⟨cs.takeWhile isBlank, fun _ hc => List.mem_takeWhile_imp hc,
    List.takeWhile_append_dropWhile.symm⟩

/-- The pattern for white space takes nothing else. -/
theorem exists_blanks (h : blanks cs = some ((), rest)) : ∃ b, Blank b ∧ cs = b ++ rest := by
  obtain rfl : trimStart cs = rest := congrArg Prod.snd (Option.some_inj.mp h)
  exact exists_trimStart cs

/-- The pattern for white space takes all of it. -/
theorem blanks_append {b : List Char} (hb : Blank b) (hr : NoBlank rest) :
    blanks (b ++ rest) = some ((), rest) := by
  rw [blanks, trimStart_append hb hr]

/-- The pattern for a gap takes white space, and not nothing. -/
theorem exists_gap (h : gap cs = some ((), rest)) : ∃ b, Gap b ∧ cs = b ++ rest := by
  cases cs with
  | nil => cases h
  | cons c cs =>
      unfold gap at h
      dsimp only at h
      split at h
      · next hc =>
        obtain rfl : trimStart cs = rest := congrArg Prod.snd (Option.some_inj.mp h)
        obtain ⟨b, hb, hcs⟩ := exists_trimStart cs
        refine ⟨c :: b, ⟨List.cons_ne_nil c b, List.forall_mem_cons.mpr ⟨hc, hb⟩⟩, ?_⟩
        rw [List.cons_append, ← hcs]
      · cases h

/-- The pattern for a gap takes all white space. -/
theorem gap_append {b : List Char} (hb : Gap b) (hr : NoBlank rest) :
    gap (b ++ rest) = some ((), rest) := by
  obtain ⟨hne, hb⟩ := hb
  obtain ⟨c, b, rfl⟩ := List.exists_cons_of_ne_nil hne
  obtain ⟨hc, hb⟩ := List.forall_mem_cons.mp hb
  rw [List.cons_append, gap]
  simp only [hc, if_true, trimStart_append hb hr]

/-! ## parts -/

/-- What is taken up to some characters has none of them. -/
theorem exists_upTo {stops x : List Char} (h : upTo stops cs = some (x, rest)) :
    (∀ c ∈ x, c ∉ stops) ∧ cs = x ++ rest := by
  obtain ⟨rfl, rfl⟩ := Prod.mk.inj (Option.some_inj.mp h)
  refine ⟨fun c hc => ?_, List.takeWhile_append_dropWhile.symm⟩
  simpa using List.mem_takeWhile_imp hc

/-- Characters are taken up to a word that begins with a stop. -/
theorem upTo_word {stops x : List Char} (hx : ∀ c ∈ x, c ∉ stops) {s : String}
    (hs : StartsBy stops.contains s) (rest : List Char) :
    upTo stops (x ++ (s.toList ++ rest)) = some (x, s.toList ++ rest) := by
  obtain ⟨c, cs, hcs, hc⟩ := hs.exists_cons rest
  rw [hcs]
  have hall : ∀ d ∈ x, (!stops.contains d) = true := fun d hd => by simpa using hx d hd
  rw [upTo, List.takeWhile_append_of_pos hall, List.dropWhile_append_of_pos hall,
    List.takeWhile_cons_of_neg (by simpa using hc), List.dropWhile_cons_of_neg (by simpa using hc),
    List.append_nil]

/-- A character that may be missing. -/
def AtMost (c : Char) (o : List Char) : Prop := o = [] ∨ o = [c]

/-- An optional character is taken once at most. -/
theorem exists_optional {c : Char} (h : optional c cs = some ((), rest)) :
    ∃ o, AtMost c o ∧ cs = o ++ rest := by
  cases cs with
  | nil =>
      obtain rfl := congrArg Prod.snd (Option.some_inj.mp h)
      exact ⟨[], .inl rfl, rfl⟩
  | cons d cs =>
      unfold optional at h
      dsimp only at h
      split at h
      · next hd =>
        obtain rfl := congrArg Prod.snd (Option.some_inj.mp h)
        exact ⟨[c], .inr rfl, by rw [hd]; rfl⟩
      · obtain rfl := congrArg Prod.snd (Option.some_inj.mp h)
        exact ⟨[], .inl rfl, rfl⟩

/-- An optional character is taken if it is there. -/
theorem optional_append {c : Char} {o : List Char} (ho : AtMost c o) (hr : rest.head? ≠ some c) :
    optional c (o ++ rest) = some ((), rest) := by
  obtain rfl | rfl := ho
  · cases rest with
    | nil => rfl
    | cons d rest =>
        have hd : d ≠ c := fun heq => hr (heq ▸ rfl)
        rw [List.nil_append, optional]
        simp only [if_neg hd]
  · rw [List.singleton_append, optional]
    simp only [if_true]

/-- White space around a character that may be missing. -/
theorem blanks_optional_blanks {b o b' : List Char} {c : Char} (hb : Blank b) (ho : AtMost c o)
    (hb' : Blank b') (hr : NoBlank rest) (hc : isBlank c = false) (hne : rest.head? ≠ some c)
    (k : Pattern γ) :
    (do blanks; optional c; blanks; k : Pattern γ) (b ++ (o ++ (b' ++ rest))) = k rest := by
  obtain rfl | rfl := ho
  · have hall : Blank (b ++ b') := List.forall_mem_append.mpr ⟨hb, hb'⟩
    have hnil : Blank [] := nofun
    have hopt : optional c rest = some ((), rest) := optional_append (.inl rfl) hne
    have hrest : blanks rest = some ((), rest) := blanks_append hnil hr
    rw [List.nil_append, ← List.append_assoc, bind_of_some (blanks_append hall hr),
      bind_of_some hopt, bind_of_some hrest]
  · have hstart : NoBlank ([c] ++ (b' ++ rest)) := by
      rintro d hd
      rwa [← Option.some_inj.mp hd]
    rw [bind_of_some (blanks_append hb hstart)]
    have hopt : optional c ([c] ++ (b' ++ rest)) = some ((), b' ++ rest) := by
      rw [List.singleton_append, optional]
      simp only [if_true]
    rw [bind_of_some hopt, bind_of_some (blanks_append hb' hr)]

/-! ## numbers -/

section

variable {P : List Char → β → Prop} {neg : β → β} {length : List Char → ℕ} {v : β}

/-- A number with a sign that was found is one of the form, if that holds of those without a sign.
-/
theorem exists_signed (neg : β → β)
    (hfound : ∀ {cs}, length cs ≠ 0 → ∃ t rest v, cs = t ++ rest ∧ P t v ∧ length cs = t.length)
    (h : signed length cs = some (text, rest)) : cs = text ++ rest ∧ ∃ v, Signed P neg text v := by
  obtain ⟨sign, body, rfl, hsign, hsigned⟩ := exists_signLength P neg cs
  simp only [signed, hsign, List.drop_left] at h
  by_cases hzero : length body = 0
  · simp [hzero] at h
  · obtain ⟨t, tail, v, rfl, ht, hlen⟩ := hfound hzero
    obtain ⟨w, hw⟩ := hsigned ht
    have hcut : sign ++ (t ++ tail) = (sign ++ t) ++ tail := (List.append_assoc _ _ _).symm
    have hsum : sign.length + t.length = (sign ++ t).length := List.length_append.symm
    simp only [hlen, hcut, hsum, List.take_left, List.drop_left] at h
    rw [if_neg (by rw [← hlen]; exact hzero)] at h
    obtain ⟨rfl, rfl⟩ := Prod.mk.inj (Option.some_inj.mp h)
    exact ⟨hcut, w, hw⟩

/-- A number with a sign is found before what does not go on with it. -/
theorem signed_append (h : Signed P neg text v) (hP : ∀ {cs v}, P cs v → NoSign cs)
    (hlen : ∀ {cs v}, P cs v → length (cs ++ rest) = cs.length) :
    signed length (text ++ rest) = some (text, rest) := by
  obtain ⟨sign, body, w, rfl, -, hbody, hsign, -⟩ := h.exists_sign hP
  have hne : body.length ≠ 0 := by
    obtain ⟨c, ds, rfl, -⟩ := hP hbody
    exact Nat.succ_ne_zero _
  have hdrop : (sign ++ body ++ rest).drop sign.length = body ++ rest := by
    rw [List.append_assoc, List.drop_left]
  have hsum : sign.length + body.length = (sign ++ body).length := List.length_append.symm
  simp only [signed, hsign rest, hdrop, hlen hbody, if_neg hne, hsum, List.take_left,
    List.drop_left]

end

/-- What matches as a whole number is the text of one. -/
theorem exists_whole (h : whole cs = some (text, rest)) :
    cs = text ++ rest ∧ ∃ n, WholeText text n :=
  exists_signed Neg.neg (fun hzero => by
    obtain ⟨ds, n, rest, hcs, hds, hlen⟩ := exists_numerals hzero
    exact ⟨ds, rest, n, hcs, hds, hlen⟩) h

/-- The text of a whole number is matched up to what is not a digit. -/
theorem whole_append {n : ℤ} (h : WholeText text n) (hr : NoDigit rest) :
    whole (text ++ rest) = some (text, rest) :=
  signed_append h Numerals.noSign fun hds => hds.digitsLength_append hr

/-- Some number begins with this character. -/
def startsNumber (c : Char) : Bool := isDigit c || c == '.' || isSign c

/-- The text begins like a number. -/
def StartsNumber (cs : List Char) : Prop := ∃ c ds, cs = c :: ds ∧ startsNumber c = true

/-- What begins as a number does so whatever follows. -/
theorem StartsNumber.append (h : StartsNumber cs) (rest : List Char) :
    StartsNumber (cs ++ rest) := by
  obtain ⟨c, ds, rfl, hc⟩ := h
  exact ⟨c, ds ++ rest, rfl, hc⟩

/-- A number does not begin with white space. -/
theorem StartsNumber.noBlank (h : StartsNumber cs) : NoBlank cs := by
  obtain ⟨c, ds, rfl, hc⟩ := h
  rintro d hd
  rw [← Option.some_inj.mp hd]
  simp only [startsNumber, isSign, Bool.or_eq_true, beq_iff_eq] at hc
  rcases hc with (hc | rfl) | rfl | rfl
  · exact Lexer.isBlank_of_isDigit hc
  all_goals decide

/-- A number begins with no character of another kind. -/
theorem StartsNumber.head?_ne (h : StartsNumber cs) {c : Char} (hc : startsNumber c = false) :
    cs.head? ≠ some c := by
  obtain ⟨d, ds, rfl, hd⟩ := h
  rintro heq
  rw [← Option.some_inj.mp heq, hd] at hc
  cases hc

/-- A number with a sign begins as a number. -/
theorem startsNumber_signed {P : List Char → β → Prop} {neg : β → β} {v : β}
    (h : Signed P neg text v) (hP : ∀ {cs v}, P cs v → StartsNumber cs) : StartsNumber text := by
  cases h with
  | plain hp => exact hP hp
  | plus => exact ⟨'+', _, rfl, by decide⟩
  | minus => exact ⟨'-', _, rfl, by decide⟩

/-- A row of digits begins as a number. -/
theorem startsNumber_numerals {n : ℤ} (h : Numerals cs n) : StartsNumber cs := by
  obtain ⟨hne, hds⟩ := h
  obtain ⟨c, cs, rfl⟩ := List.exists_cons_of_ne_nil hne
  exact ⟨c, cs, rfl, by rw [startsNumber, hds c List.mem_cons_self]; rfl⟩

/-- White space is not a digit. -/
theorem not_isDigit_of_isBlank {c : Char} (h : isBlank c = true) : isDigit c = false := by
  rw [Bool.eq_false_iff]
  intro hd
  rw [Lexer.isBlank_of_isDigit hd] at h
  cases h

/-- No number goes on with this character. -/
def endsNumber (c : Char) : Bool := !isDigit c && c != '.' && !isExponentMark c

/-- The first character tells whether a text ends a number before it. -/
theorem endsNumber_of_head (h : ∀ c ∈ rest.head?, endsNumber c = true) : EndsNumber rest := by
  have hall : ∀ c ∈ rest.head?, (isDigit c = false ∧ c ≠ '.') ∧ isExponentMark c = false := by
    intro c hc
    simpa [endsNumber] using h c hc
  exact ⟨fun c hc => (hall c hc).1, fun c hc => (hall c hc).2⟩

/-- A word ends a number if its first character does. -/
theorem endsNumber_word {s : String} (h : StartsBy endsNumber s) (rest : List Char) :
    EndsNumber (s.toList ++ rest) := by
  obtain ⟨c, cs, hcs, hc⟩ := h.exists_cons rest
  rw [hcs]
  apply endsNumber_of_head
  rintro d hd
  rwa [← Option.some_inj.mp hd]

/-- White space ends a number as what follows it does. -/
theorem endsNumber_blank {b : List Char} (hb : Blank b) (hr : EndsNumber rest) :
    EndsNumber (b ++ rest) := by
  cases b with
  | nil => exact hr
  | cons c b =>
      have hc := hb c List.mem_cons_self
      apply endsNumber_of_head
      rintro d hd
      obtain rfl : c = d := Option.some_inj.mp hd
      rw [endsNumber, not_isDigit_of_isBlank hc]
      have hdot : c ≠ '.' := by
        rintro rfl
        exact absurd hc (by decide)
      have hmark : isExponentMark c = false := by
        rw [Bool.eq_false_iff]
        intro hmark
        simp only [isExponentMark, Bool.or_eq_true, beq_iff_eq] at hmark
        rcases hmark with rfl | rfl <;> exact absurd hc (by decide)
      simp [hdot, hmark]

/-- An optional character that ends a number may be there or not. -/
theorem endsNumber_atMost {c : Char} {o : List Char} (ho : AtMost c o) (hc : endsNumber c = true)
    (hr : EndsNumber rest) : EndsNumber (o ++ rest) := by
  obtain rfl | rfl := ho
  · exact hr
  · apply endsNumber_of_head
    rintro d hd
    rwa [← Option.some_inj.mp hd]

section

variable {α : Type} [Arith α] {v : α}

/-- A number without a sign begins as a number. -/
theorem startsNumber_unsigned (h : Unsigned cs v) : StartsNumber cs := by
  obtain ⟨hm, -⟩ := h
  obtain ⟨c, ds, rfl, hc⟩ := hm.exists_cons
  refine ⟨c, _, rfl, ?_⟩
  obtain hc | rfl := hc
  · rw [startsNumber, hc]
    rfl
  · decide

/-- The text of a number is read as its value. -/
theorem readSigned_eq (h : NumberText text v) : Problem.readSigned text = v := by
  obtain ⟨sign, body, w, rfl, -, hbody, hsign, rfl⟩ := h.exists_sign Unsigned.noSign
  have hsign := hsign []
  rw [List.append_nil] at hsign
  have hread := hbody.readNumber_eq
  simp only [Problem.readSigned, hsign, List.drop_left, hread]

/-- The text of a number is matched up to what ends a number. -/
theorem number_append (h : NumberText text v) (hr : EndsNumber rest) :
    number (text ++ rest) = some (text, rest) :=
  signed_append h Unsigned.noSign fun hds => hds.length_append hr

end

/-- What matches as a number is the text of the number that is read from it. -/
theorem exists_number (α : Type) [Arith α] (h : number cs = some (text, rest)) :
    cs = text ++ rest ∧ NumberText text (Problem.readSigned text : α) := by
  obtain ⟨hcs, v, hv⟩ := exists_signed (Arith.neg : α → α) exists_unsigned h
  rw [readSigned_eq hv]
  exact ⟨hcs, hv⟩

end Pattern

namespace Problem

open Pattern

/-! ## the forms of the lines -/

/-- `$f(x) = …$` with white space around the function. -/
inductive FunctionForm : List Char → List Char → List Char → Prop
  | mk {b₁ b₂ b₃ x e : List Char} : Blank b₁ → Blank b₂ → Blank b₃ → ')' ∉ x → '$' ∉ e →
      FunctionForm ('$' :: b₁ ++ 'f' :: b₂ ++ '(' :: x ++ ')' :: b₃ ++ '=' :: e ++ ['$']) x e

/-- `Taylor series at … to $x^…$`, with the center, the variable, and the order as text and as a
number.  An opening and a closing bracket around the order may be left out, each for itself. -/
inductive SeriesForm {α : Type} [Arith α] :
    List Char → α → List Char → List Char → ℤ → Prop
  | mk {g₁ g₂ g₃ g₄ g₅ b₁ b₂ b₃ b₄ opening closing center x order : List Char} {v : α} {n : ℤ} :
      Gap g₁ → Gap g₂ → Gap g₃ → Gap g₄ → Gap g₅ → Blank b₁ → Blank b₂ → Blank b₃ → Blank b₄ →
      AtMost '\x7b' opening → AtMost '\x7d' closing →
      NumberText center v → (∀ c ∈ x, c ∉ ['^', '$']) → WholeText order n →
      SeriesForm ("Taylor".toList ++ g₁ ++ "series".toList ++ g₂ ++ "at".toList ++ g₃ ++ center
        ++ g₄ ++ "to".toList ++ g₅ ++ '$' :: x ++ '^' :: b₁ ++ opening ++ b₂ ++ order
        ++ b₃ ++ closing ++ b₄ ++ ['$']) v x order n

/-- `Tangent at $x=…$`, with the variable and the point. -/
inductive TangentForm {α : Type} [Arith α] : List Char → List Char → α → Prop
  | mk {g₁ g₂ b₁ b₂ x point : List Char} {v : α} : Gap g₁ → Gap g₂ → Blank b₁ → Blank b₂ →
      (∀ c ∈ x, c ∉ ['=', '$']) → NumberText point v →
      TangentForm ("Tangent".toList ++ g₁ ++ "at".toList ++ g₂ ++ '$' :: x ++ '=' :: b₁ ++ point
        ++ b₂ ++ ['$']) x v

/-- `Plot in range […, …]`, with both ends. -/
inductive RangeForm {α : Type} [Arith α] : List Char → α → α → Prop
  | mk {g₁ g₂ b₁ b₂ b₃ b₄ b₅ start stop : List Char} {v w : α} : Gap g₁ → Gap g₂ →
      Blank b₁ → Blank b₂ → Blank b₃ → Blank b₄ → Blank b₅ → NumberText start v →
      NumberText stop w →
      RangeForm ("Plot".toList ++ g₁ ++ "in".toList ++ g₂ ++ "range".toList ++ b₁ ++ '[' :: b₂
        ++ start ++ b₃ ++ ',' :: b₄ ++ stop ++ b₅ ++ [']']) v w

/-! ## lines of the forms are matched -/

variable {line x e : List Char}

/-- White space in front does not matter to a trimmed text. -/
theorem trim_append {b : List Char} (hb : Blank b) (cs : List Char) : trim (b ++ cs) = trim cs := by
  rw [trim, trim, strip, strip, List.dropWhile_append_of_pos hb]

/-- A line that is matched as a function has the form of one. -/
theorem functionForm_of_match (h : functionLine.matchAll line = some (x, e)) :
    ∃ e₀, FunctionForm line x e₀ ∧ trim e₀ = trim e := by
  obtain ⟨_, _, m₁, h⟩ := bind_eq_some.mp (matchAll_eq_some.mp h)
  obtain ⟨_, _, m₂, h⟩ := bind_eq_some.mp h
  obtain ⟨_, _, m₃, h⟩ := bind_eq_some.mp h
  obtain ⟨_, _, m₄, h⟩ := bind_eq_some.mp h
  obtain ⟨_, _, m₅, h⟩ := bind_eq_some.mp h
  obtain ⟨_, _, m₆, h⟩ := bind_eq_some.mp h
  obtain ⟨_, _, m₇, h⟩ := bind_eq_some.mp h
  obtain ⟨_, _, m₈, h⟩ := bind_eq_some.mp h
  obtain ⟨_, _, m₉, h⟩ := bind_eq_some.mp h
  obtain ⟨_, _, m₁₀, h⟩ := bind_eq_some.mp h
  obtain ⟨_, _, m₁₁, h⟩ := bind_eq_some.mp h
  obtain ⟨_, _, m₁₂, h⟩ := bind_eq_some.mp h
  cases h
  obtain rfl := word_eq_some.mp m₁
  obtain ⟨b₁, hb₁, rfl⟩ := exists_blanks m₂
  obtain rfl := word_eq_some.mp m₃
  obtain ⟨b₂, hb₂, rfl⟩ := exists_blanks m₄
  obtain rfl := word_eq_some.mp m₅
  obtain ⟨hx, rfl⟩ := exists_upTo m₆
  obtain rfl := word_eq_some.mp m₇
  obtain ⟨b₃, hb₃, rfl⟩ := exists_blanks m₈
  obtain rfl := word_eq_some.mp m₉
  obtain ⟨b₄, hb₄, rfl⟩ := exists_blanks m₁₀
  obtain ⟨he, rfl⟩ := exists_upTo m₁₁
  obtain rfl := word_eq_some.mp m₁₂
  refine ⟨b₄ ++ e, ?_, trim_append hb₄ e⟩
  have hx : ')' ∉ x := fun hmem => hx ')' hmem List.mem_cons_self
  have he : '$' ∉ b₄ ++ e := by
    rw [List.mem_append, not_or]
    exact ⟨fun hmem => absurd (hb₄ '$' hmem) (by decide),
      fun hmem => he '$' hmem List.mem_cons_self⟩
  simpa using FunctionForm.mk hb₁ hb₂ hb₃ hx he

/-- A line of the form of a function is matched, with its variable and its text. -/
theorem FunctionForm.match_eq (h : FunctionForm line x e) :
    functionLine.matchAll line = some (x, trimStart e) := by
  obtain @⟨b₁, b₂, b₃, x, e, hb₁, hb₂, hb₃, hx, he⟩ := h
  obtain ⟨b₄, hb₄, hcut⟩ := exists_trimStart e
  have hline : '$' :: b₁ ++ 'f' :: b₂ ++ '(' :: x ++ ')' :: b₃ ++ '=' :: e ++ ['$'] =
      "$".toList ++ (b₁ ++ ("f".toList ++ (b₂ ++ ("(".toList ++ (x ++ (")".toList ++
        (b₃ ++ ("=".toList ++ (b₄ ++ (trimStart e ++ ("$".toList ++ []))))))))))) := by
    conv_lhs => rw [hcut]
    simp
  have hx : ∀ c ∈ x, c ∉ [')'] := by
    rintro c hc hmem
    exact hx (List.mem_singleton.mp hmem ▸ hc)
  have he : ∀ c ∈ trimStart e, c ∉ ['$'] := by
    rintro c hc hmem
    rw [hcut] at he
    exact he (List.mem_append_right b₄ (List.mem_singleton.mp hmem ▸ hc))
  rw [hline, matchAll_eq_some, functionLine, bind_of_some (word_append "$" _),
    bind_of_some (blanks_append hb₁ (noBlank_word (by decide) _)), bind_of_some (word_append "f" _),
    bind_of_some (blanks_append hb₂ (noBlank_word (by decide) _)), bind_of_some (word_append "(" _),
    bind_of_some (upTo_word hx (by decide) _), bind_of_some (word_append ")" _),
    bind_of_some (blanks_append hb₃ (noBlank_word (by decide) _)), bind_of_some (word_append "=" _),
    bind_of_some (blanks_append hb₄ (noBlank_trimStart_append e (noBlank_word (by decide) _))),
    bind_of_some (upTo_word he (by decide) _), bind_of_some (word_append "$" _)]
  rfl

section

variable {α : Type} [Arith α] {v w : α} {center order point start stop : List Char} {n : ℤ}

/-- A line that is matched as a series has the form of one, with the numbers that are read. -/
theorem seriesForm_of_match (h : seriesLine.matchAll line = some (center, x, order)) :
    ∃ n, SeriesForm line (readSigned center : α) x order n := by
  obtain ⟨_, _, m₁, h⟩ := bind_eq_some.mp (matchAll_eq_some.mp h)
  obtain ⟨_, _, m₂, h⟩ := bind_eq_some.mp h
  obtain ⟨_, _, m₃, h⟩ := bind_eq_some.mp h
  obtain ⟨_, _, m₄, h⟩ := bind_eq_some.mp h
  obtain ⟨_, _, m₅, h⟩ := bind_eq_some.mp h
  obtain ⟨_, _, m₆, h⟩ := bind_eq_some.mp h
  obtain ⟨_, _, m₇, h⟩ := bind_eq_some.mp h
  obtain ⟨_, _, m₈, h⟩ := bind_eq_some.mp h
  obtain ⟨_, _, m₉, h⟩ := bind_eq_some.mp h
  obtain ⟨_, _, m₁₀, h⟩ := bind_eq_some.mp h
  obtain ⟨_, _, m₁₁, h⟩ := bind_eq_some.mp h
  obtain ⟨_, _, m₁₂, h⟩ := bind_eq_some.mp h
  obtain ⟨_, _, m₁₃, h⟩ := bind_eq_some.mp h
  obtain ⟨_, _, m₁₄, h⟩ := bind_eq_some.mp h
  obtain ⟨_, _, m₁₅, h⟩ := bind_eq_some.mp h
  obtain ⟨_, _, m₁₆, h⟩ := bind_eq_some.mp h
  obtain ⟨_, _, m₁₇, h⟩ := bind_eq_some.mp h
  obtain ⟨_, _, m₁₈, h⟩ := bind_eq_some.mp h
  obtain ⟨_, _, m₁₉, h⟩ := bind_eq_some.mp h
  obtain ⟨_, _, m₂₀, h⟩ := bind_eq_some.mp h
  obtain ⟨_, _, m₂₁, h⟩ := bind_eq_some.mp h
  cases h
  obtain rfl := word_eq_some.mp m₁
  obtain ⟨g₁, hg₁, rfl⟩ := exists_gap m₂
  obtain rfl := word_eq_some.mp m₃
  obtain ⟨g₂, hg₂, rfl⟩ := exists_gap m₄
  obtain rfl := word_eq_some.mp m₅
  obtain ⟨g₃, hg₃, rfl⟩ := exists_gap m₆
  obtain ⟨rfl, hcenter⟩ := exists_number α m₇
  obtain ⟨g₄, hg₄, rfl⟩ := exists_gap m₈
  obtain rfl := word_eq_some.mp m₉
  obtain ⟨g₅, hg₅, rfl⟩ := exists_gap m₁₀
  obtain rfl := word_eq_some.mp m₁₁
  obtain ⟨hx, rfl⟩ := exists_upTo m₁₂
  obtain rfl := word_eq_some.mp m₁₃
  obtain ⟨b₁, hb₁, rfl⟩ := exists_blanks m₁₄
  obtain ⟨opening, hopening, rfl⟩ := exists_optional m₁₅
  obtain ⟨b₂, hb₂, rfl⟩ := exists_blanks m₁₆
  obtain ⟨rfl, n, horder⟩ := exists_whole m₁₇
  obtain ⟨b₃, hb₃, rfl⟩ := exists_blanks m₁₈
  obtain ⟨closing, hclosing, rfl⟩ := exists_optional m₁₉
  obtain ⟨b₄, hb₄, rfl⟩ := exists_blanks m₂₀
  obtain rfl := word_eq_some.mp m₂₁
  refine ⟨n, ?_⟩
  simpa using SeriesForm.mk hg₁ hg₂ hg₃ hg₄ hg₅ hb₁ hb₂ hb₃ hb₄ hopening hclosing hcenter hx horder

/-- A line of the form of a series is matched, with its numbers and its variable. -/
theorem SeriesForm.match_eq (h : SeriesForm line v x order n) :
    ∃ center, seriesLine.matchAll line = some (center, x, order) ∧ readSigned center = v := by
  obtain @⟨g₁, g₂, g₃, g₄, g₅, b₁, b₂, b₃, b₄, opening, closing, center, x, order, v, n, hg₁, hg₂,
    hg₃, hg₄, hg₅, hb₁, hb₂, hb₃, hb₄, hopening, hclosing, hcenter, hx, horder⟩ := h
  refine ⟨center, ?_, readSigned_eq hcenter⟩
  have hend : EndsNumber (b₃ ++ (closing ++ (b₄ ++ ("$".toList ++ [])))) :=
    endsNumber_blank hb₃ (endsNumber_atMost hclosing (by decide)
      (endsNumber_blank hb₄ (endsNumber_word (by decide) _)))
  have hstart : StartsNumber (order ++ (b₃ ++ (closing ++ (b₄ ++ ("$".toList ++ []))))) :=
    (startsNumber_signed horder startsNumber_numerals).append _
  have hline : "Taylor".toList ++ g₁ ++ "series".toList ++ g₂ ++ "at".toList ++ g₃ ++ center
        ++ g₄ ++ "to".toList ++ g₅ ++ '$' :: x ++ '^' :: b₁ ++ opening ++ b₂ ++ order
        ++ b₃ ++ closing ++ b₄ ++ ['$'] =
      "Taylor".toList ++ (g₁ ++ ("series".toList ++ (g₂ ++ ("at".toList ++ (g₃ ++ (center ++
        (g₄ ++ ("to".toList ++ (g₅ ++ ("$".toList ++ (x ++ ("^".toList ++ (b₁ ++ (opening ++
        (b₂ ++ (order ++ (b₃ ++ (closing ++ (b₄ ++ ("$".toList ++ [])))))))))))))))))))) := by
    simp
  rw [hline, matchAll_eq_some, seriesLine, bind_of_some (word_append "Taylor" _),
    bind_of_some (gap_append hg₁ (noBlank_word (by decide) _)),
    bind_of_some (word_append "series" _),
    bind_of_some (gap_append hg₂ (noBlank_word (by decide) _)), bind_of_some (word_append "at" _),
    bind_of_some (gap_append hg₃
      ((startsNumber_signed hcenter startsNumber_unsigned).append _).noBlank),
    bind_of_some (number_append hcenter
      (endsNumber_blank hg₄.blank (endsNumber_word (by decide) _))),
    bind_of_some (gap_append hg₄ (noBlank_word (by decide) _)), bind_of_some (word_append "to" _),
    bind_of_some (gap_append hg₅ (noBlank_word (by decide) _)), bind_of_some (word_append "$" _),
    bind_of_some (upTo_word hx (by decide) _), bind_of_some (word_append "^" _),
    blanks_optional_blanks hb₁ hopening hb₂ hstart.noBlank (by decide)
      (hstart.head?_ne (by decide)),
    bind_of_some (whole_append horder hend.endsMantissa.noDigit),
    blanks_optional_blanks hb₃ hclosing hb₄ (noBlank_word (by decide) _) (by decide) (by decide),
    bind_of_some (word_append "$" _)]
  rfl

/-- A line that is matched as a tangent has the form of one. -/
theorem tangentForm_of_match (h : tangentLine.matchAll line = some (x, point)) :
    TangentForm line x (readSigned point : α) := by
  obtain ⟨_, _, m₁, h⟩ := bind_eq_some.mp (matchAll_eq_some.mp h)
  obtain ⟨_, _, m₂, h⟩ := bind_eq_some.mp h
  obtain ⟨_, _, m₃, h⟩ := bind_eq_some.mp h
  obtain ⟨_, _, m₄, h⟩ := bind_eq_some.mp h
  obtain ⟨_, _, m₅, h⟩ := bind_eq_some.mp h
  obtain ⟨_, _, m₆, h⟩ := bind_eq_some.mp h
  obtain ⟨_, _, m₇, h⟩ := bind_eq_some.mp h
  obtain ⟨_, _, m₈, h⟩ := bind_eq_some.mp h
  obtain ⟨_, _, m₉, h⟩ := bind_eq_some.mp h
  obtain ⟨_, _, m₁₀, h⟩ := bind_eq_some.mp h
  obtain ⟨_, _, m₁₁, h⟩ := bind_eq_some.mp h
  cases h
  obtain rfl := word_eq_some.mp m₁
  obtain ⟨g₁, hg₁, rfl⟩ := exists_gap m₂
  obtain rfl := word_eq_some.mp m₃
  obtain ⟨g₂, hg₂, rfl⟩ := exists_gap m₄
  obtain rfl := word_eq_some.mp m₅
  obtain ⟨hx, rfl⟩ := exists_upTo m₆
  obtain rfl := word_eq_some.mp m₇
  obtain ⟨b₁, hb₁, rfl⟩ := exists_blanks m₈
  obtain ⟨rfl, hpoint⟩ := exists_number α m₉
  obtain ⟨b₂, hb₂, rfl⟩ := exists_blanks m₁₀
  obtain rfl := word_eq_some.mp m₁₁
  simpa using TangentForm.mk hg₁ hg₂ hb₁ hb₂ hx hpoint

/-- A line of the form of a tangent is matched, with its variable and its number. -/
theorem TangentForm.match_eq (h : TangentForm line x v) :
    ∃ point, tangentLine.matchAll line = some (x, point) ∧ readSigned point = v := by
  obtain @⟨g₁, g₂, b₁, b₂, x, point, v, hg₁, hg₂, hb₁, hb₂, hx, hpoint⟩ := h
  refine ⟨point, ?_, readSigned_eq hpoint⟩
  have hline : "Tangent".toList ++ g₁ ++ "at".toList ++ g₂ ++ '$' :: x ++ '=' :: b₁ ++ point
        ++ b₂ ++ ['$'] =
      "Tangent".toList ++ (g₁ ++ ("at".toList ++ (g₂ ++ ("$".toList ++ (x ++ ("=".toList ++
        (b₁ ++ (point ++ (b₂ ++ ("$".toList ++ [])))))))))) := by
    simp
  rw [hline, matchAll_eq_some, tangentLine, bind_of_some (word_append "Tangent" _),
    bind_of_some (gap_append hg₁ (noBlank_word (by decide) _)), bind_of_some (word_append "at" _),
    bind_of_some (gap_append hg₂ (noBlank_word (by decide) _)), bind_of_some (word_append "$" _),
    bind_of_some (upTo_word hx (by decide) _), bind_of_some (word_append "=" _),
    bind_of_some (blanks_append hb₁
      ((startsNumber_signed hpoint startsNumber_unsigned).append _).noBlank),
    bind_of_some (number_append hpoint (endsNumber_blank hb₂ (endsNumber_word (by decide) _))),
    bind_of_some (blanks_append hb₂ (noBlank_word (by decide) _)), bind_of_some (word_append "$" _)]
  rfl

/-- A line that is matched as a range has the form of one. -/
theorem rangeForm_of_match (h : rangeLine.matchAll line = some (start, stop)) :
    RangeForm line (readSigned start : α) (readSigned stop) := by
  obtain ⟨_, _, m₁, h⟩ := bind_eq_some.mp (matchAll_eq_some.mp h)
  obtain ⟨_, _, m₂, h⟩ := bind_eq_some.mp h
  obtain ⟨_, _, m₃, h⟩ := bind_eq_some.mp h
  obtain ⟨_, _, m₄, h⟩ := bind_eq_some.mp h
  obtain ⟨_, _, m₅, h⟩ := bind_eq_some.mp h
  obtain ⟨_, _, m₆, h⟩ := bind_eq_some.mp h
  obtain ⟨_, _, m₇, h⟩ := bind_eq_some.mp h
  obtain ⟨_, _, m₈, h⟩ := bind_eq_some.mp h
  obtain ⟨_, _, m₉, h⟩ := bind_eq_some.mp h
  obtain ⟨_, _, m₁₀, h⟩ := bind_eq_some.mp h
  obtain ⟨_, _, m₁₁, h⟩ := bind_eq_some.mp h
  obtain ⟨_, _, m₁₂, h⟩ := bind_eq_some.mp h
  obtain ⟨_, _, m₁₃, h⟩ := bind_eq_some.mp h
  obtain ⟨_, _, m₁₄, h⟩ := bind_eq_some.mp h
  obtain ⟨_, _, m₁₅, h⟩ := bind_eq_some.mp h
  cases h
  obtain rfl := word_eq_some.mp m₁
  obtain ⟨g₁, hg₁, rfl⟩ := exists_gap m₂
  obtain rfl := word_eq_some.mp m₃
  obtain ⟨g₂, hg₂, rfl⟩ := exists_gap m₄
  obtain rfl := word_eq_some.mp m₅
  obtain ⟨b₁, hb₁, rfl⟩ := exists_blanks m₆
  obtain rfl := word_eq_some.mp m₇
  obtain ⟨b₂, hb₂, rfl⟩ := exists_blanks m₈
  obtain ⟨rfl, hstart⟩ := exists_number α m₉
  obtain ⟨b₃, hb₃, rfl⟩ := exists_blanks m₁₀
  obtain rfl := word_eq_some.mp m₁₁
  obtain ⟨b₄, hb₄, rfl⟩ := exists_blanks m₁₂
  obtain ⟨rfl, hstop⟩ := exists_number α m₁₃
  obtain ⟨b₅, hb₅, rfl⟩ := exists_blanks m₁₄
  obtain rfl := word_eq_some.mp m₁₅
  simpa using RangeForm.mk hg₁ hg₂ hb₁ hb₂ hb₃ hb₄ hb₅ hstart hstop

/-- A line of the form of a range is matched, with both numbers. -/
theorem RangeForm.match_eq (h : RangeForm line v w) :
    ∃ start stop, rangeLine.matchAll line = some (start, stop) ∧ readSigned start = v ∧
      readSigned stop = w := by
  obtain @⟨g₁, g₂, b₁, b₂, b₃, b₄, b₅, start, stop, v, w, hg₁, hg₂, hb₁, hb₂, hb₃, hb₄, hb₅, hstart,
    hstop⟩ := h
  refine ⟨start, stop, ?_, readSigned_eq hstart, readSigned_eq hstop⟩
  have hline : "Plot".toList ++ g₁ ++ "in".toList ++ g₂ ++ "range".toList ++ b₁ ++ '[' :: b₂
        ++ start ++ b₃ ++ ',' :: b₄ ++ stop ++ b₅ ++ [']'] =
      "Plot".toList ++ (g₁ ++ ("in".toList ++ (g₂ ++ ("range".toList ++ (b₁ ++ ("[".toList ++
        (b₂ ++ (start ++ (b₃ ++ (",".toList ++ (b₄ ++ (stop ++ (b₅ ++
        ("]".toList ++ [])))))))))))))) := by
    simp
  rw [hline, matchAll_eq_some, rangeLine, bind_of_some (word_append "Plot" _),
    bind_of_some (gap_append hg₁ (noBlank_word (by decide) _)), bind_of_some (word_append "in" _),
    bind_of_some (gap_append hg₂ (noBlank_word (by decide) _)),
    bind_of_some (word_append "range" _),
    bind_of_some (blanks_append hb₁ (noBlank_word (by decide) _)), bind_of_some (word_append "[" _),
    bind_of_some (blanks_append hb₂
      ((startsNumber_signed hstart startsNumber_unsigned).append _).noBlank),
    bind_of_some (number_append hstart (endsNumber_blank hb₃ (endsNumber_word (by decide) _))),
    bind_of_some (blanks_append hb₃ (noBlank_word (by decide) _)), bind_of_some (word_append "," _),
    bind_of_some (blanks_append hb₄
      ((startsNumber_signed hstop startsNumber_unsigned).append _).noBlank),
    bind_of_some (number_append hstop (endsNumber_blank hb₅ (endsNumber_word (by decide) _))),
    bind_of_some (blanks_append hb₅ (noBlank_word (by decide) _)), bind_of_some (word_append "]" _)]
  rfl

end

end Problem

end Fluxion

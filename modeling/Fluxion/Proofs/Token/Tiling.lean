import Fluxion.Proofs.Token.Origin

/-!
# Fluxion.Proofs.Token.Tiling

The tokens of a text cover it.

Each token is a piece of the text, and between two of them, in front of the first one and behind the
last one there is only white space (`Tiles`).  A text without tokens is covered in the same way up
to where no lexeme begins, or a name that is too long.

* `lexeme?_le`: a lexeme is no longer than the text;
* `stop_of_tokenize`: where the cutting of a text into tokens ends;
* `tiles_tokensFrom`: the tokens from a position on;
* `tokenize_tiled`: the tokens of a text, or those before its error.
-/

namespace Fluxion

/-- Where a token ends. -/
def Token.stop {α : Type} (t : Token α) : Nat := t.pos + t.text.length

namespace Lexer

open Text

variable {α : Type} {text cs : List Char} {pos n i j k : Nat} {kind : Kind}

/-! ## lexemes in the text -/

theorem charLength_le (c : Char) (cs : List Char) : charLength c cs ≤ cs.length := by
  cases cs with
  | nil => simp [charLength]
  | cons d cs =>
    simp only [charLength, List.length_cons]
    split <;> omega

theorem blankLength_le (cs : List Char) : blankLength cs ≤ cs.length :=
  (List.takeWhile_prefix isBlank).length_le

theorem bracketLength_le (word : List Char) (b : Char) (cs : List Char) :
    bracketLength word b cs ≤ cs.length := by
  have hchar := charLength_le b cs
  have hrest := charLength_le b
    (cs.drop (wordLength word cs + blankLength (cs.drop (wordLength word cs))))
  simp only [List.length_drop] at hrest
  simp only [bracketLength]
  split
  · simp_all
    omega
  · exact hchar

theorem exponentLength_le (cs : List Char) : exponentLength cs ≤ cs.length := by
  cases cs with
  | nil => simp [exponentLength]
  | cons c r =>
    have hsign := signLength_le r
    have hdigits := digitsLength_le (r.drop (signLength r))
    simp only [List.length_drop] at hdigits
    simp only [exponentLength, List.length_cons]
    split <;> omega

theorem numberLength_le (cs : List Char) : numberLength cs ≤ cs.length := by
  have hmantissa := mantissaLength_le cs
  have hexponent := exponentLength_le (cs.drop (mantissaLength cs))
  simp only [List.length_drop] at hexponent
  simp only [numberLength]
  split <;> omega

theorem functionLength_le (cs : List Char) : functionLength cs ≤ cs.length := by
  rw [functionLength, foldl_max_le]
  simp [wordLength_le]

/-- No alternative measures more than there is. -/
theorem alternative_le {a : Kind × (List Char → Nat)} (ha : a ∈ alternatives) (cs : List Char) :
    a.2 cs ≤ cs.length := by
  simp only [alternatives, List.mem_cons, List.not_mem_nil, or_false] at ha
  obtain rfl | rfl | rfl | rfl | rfl | rfl | rfl | rfl | rfl | rfl | rfl | rfl | rfl := ha
  · exact numberLength_le cs
  · exact bracketLength_le _ _ cs
  · exact bracketLength_le _ _ cs
  · exact charLength_le _ cs
  · exact charLength_le _ cs
  · exact charLength_le _ cs
  · exact charLength_le _ cs
  · exact charLength_le _ cs
  · exact wordLength_le _ cs
  · exact wordLength_le _ cs
  · exact functionLength_le cs
  · exact nameLength_le cs
  · exact blankLength_le cs

/-- A lexeme is no longer than the text. -/
theorem lexeme?_le (h : lexeme? cs = some (kind, n)) : n ≤ cs.length := by
  obtain ⟨length, ha, rfl, -⟩ := exists_alternative h
  exact alternative_le ha cs

section

variable [Arith α]

/-- The cutting ends behind the last character: no lexeme reaches beyond it. -/
theorem stop_of_scan {pos : Nat} {cs : List Char} {ts : Tokens α} (h : scan pos cs = .ok ts) :
    ts.stop = pos + cs.length := by
  match cs with
  | [] =>
      rw [scan] at h
      cases h
      rfl
  | c :: cs =>
      rw [scan] at h
      cases hl : lexeme? (c :: cs) with
      | none =>
          rw [hl] at h
          cases h
      | some q =>
          obtain ⟨kind, n⟩ := q
          simp only [hl] at h
          split at h
          · cases h
          · obtain ⟨rest, hrest, h⟩ := bind_eq_ok.mp h
            have hlt : (cs.drop (n - 1)).length < (c :: cs).length := by
              rw [List.length_drop, List.length_cons]
              omega
            have hstop : ts.stop = rest.stop := by
              split at h <;> cases h <;> rfl
            have hle := lexeme?_le hl
            have hne := lexeme?_ne_zero hl
            rw [hstop, stop_of_scan hrest, List.length_drop]
            rw [List.length_cons] at hle ⊢
            omega
termination_by cs.length

/-- The end of a text is behind its last character. -/
theorem stop_of_tokenize {ts : Tokens α} (h : tokenize text = .ok ts) : ts.stop = text.length := by
  rw [stop_of_scan h, Nat.zero_add]

end

/-- White space is what the last alternative measures. -/
theorem lexeme?_eq_blank (h : lexeme? cs = some (.blank, n)) : blankLength cs = n := by
  obtain ⟨length, ha, hlen, -⟩ := exists_alternative h
  simp only [alternatives, List.mem_cons, Prod.mk.injEq, reduceCtorEq, false_and, true_and, false_or,
    or_false, List.not_mem_nil] at ha
  rwa [← ha]

/-- No lexeme is found exactly if all alternatives fail. -/
theorem lexeme?_eq_none : lexeme? cs = none ↔ ∀ a ∈ alternatives, a.2 cs = 0 := by
  simp [lexeme?, List.findSome?_eq_none_iff]

/-- What comes behind the first characters of a kind is not of that kind. -/
theorem getElem?_takeWhile {p : Char → Bool} {c : Char}
    (h : cs[(cs.takeWhile p).length]? = some c) : p c = false := by
  induction cs with
  | nil => simp at h
  | cons d cs ih =>
    cases hd : p d with
    | false => simp_all
    | true => exact ih (by simpa [hd] using h)

/-- A name is not followed by a character that it could go on with. -/
theorem not_continuesName (h : nameLength cs = n) (hn : n ≠ 0) {c : Char} (hc : cs[n]? = some c) :
    continuesName c = false := by
  cases cs with
  | nil => simp at hc
  | cons d cs =>
    rw [nameLength] at h
    split at h
    · subst h
      rw [Nat.add_comm, List.getElem?_cons_succ] at hc
      exact getElem?_takeWhile hc
    · exact absurd h.symm hn

/-! ## tiles -/

/-- There is only white space between two positions of a text. -/
def Gap (text : List Char) (i j : Nat) : Prop :=
  i ≤ j ∧ ∀ k, i ≤ k → k < j → ∃ c, text[k]? = some c ∧ isBlank c = true

theorem Gap.refl (text : List Char) (i : Nat) : Gap text i i := ⟨Nat.le_refl i, by omega⟩

/-- A gap after a gap is a gap. -/
theorem Gap.trans (h : Gap text i j) (hjk : Gap text j k) : Gap text i k := by
  refine ⟨h.1.trans hjk.1, fun m him hmk => ?_⟩
  by_cases hm : m < j
  · exact h.2 m him hm
  · exact hjk.2 m (by omega) hmk

/-- White space at a position is a gap. -/
theorem gap_of_lexeme (h : lexeme? (text.drop pos) = some (.blank, n)) : Gap text pos (pos + n) := by
  have hblank : (text.drop pos).take n = (text.drop pos).takeWhile isBlank := by
    rw [← lexeme?_eq_blank h]
    exact (List.prefix_iff_eq_take.mp (List.takeWhile_prefix _)).symm
  have hle := lexeme?_le h
  refine ⟨Nat.le_add_right pos n, fun k hk hlt => ?_⟩
  obtain ⟨m, rfl⟩ := Nat.exists_eq_add_of_le hk
  obtain ⟨c, hc⟩ : ∃ c, (text.drop pos)[m]? = some c := ⟨_, List.getElem?_eq_getElem (by omega)⟩
  have hmem : c ∈ (text.drop pos).take n :=
    List.mem_of_getElem? ((List.getElem?_take_of_lt (by omega)).trans hc)
  exact ⟨c, List.getElem?_drop ▸ hc, List.mem_takeWhile_imp (hblank ▸ hmem)⟩

/-- No symbol is listed as the end of a text. -/
theorem kind_ne_endKind (s : Symbol α) : s.kind ≠ endKind := by
  cases s <;> simp [Symbol.kind, endKind]

variable [Arith α]

/-- A token is a piece of a text, and a whole name if it is one. -/
structure CutFrom (text : List Char) (t : Token α) : Prop where
  /-- a lexeme stands at the position of the token, and the token is its symbol -/
  read : ∃ kind n, ReadAt t t.pos (text.drop t.pos) kind n
  nonempty : t.text ≠ ""
  /-- the characters of the token stand at its position -/
  slice : (text.drop t.pos).take t.text.length = t.text.toList
  /-- a name is not too long -/
  short : ∀ x, t.symbol = .name x → t.text.length ≤ maxNameLength
  /-- no letter or underscore comes right behind a name -/
  whole : ∀ x, t.symbol = .name x → ∀ c, text[t.stop]? = some c → continuesName c = false

/-- Tokens cover a text from one position to another, with gaps between them. -/
def Tiles (text : List Char) : Nat → List (Token α) → Nat → Prop
  | start, [], stop => Gap text start stop
  | start, t :: ts, stop => Gap text start t.pos ∧ CutFrom text t ∧ Tiles text t.stop ts stop

/-- A gap before some tiles belongs to them. -/
theorem Tiles.blank {ts : List (Token α)} (hij : Gap text i j) (h : Tiles text j ts k) :
    Tiles text i ts k := by
  cases ts with
  | nil => exact hij.trans h
  | cons t ts => exact ⟨hij.trans h.1, h.2⟩

/-- A token is not empty. -/
theorem CutFrom.lt_stop {t : Token α} (h : CutFrom text t) : t.pos < t.stop := by
  have := String.length_eq_zero_iff.not.mpr h.nonempty
  rw [Token.stop]
  omega

/-- The positions of tokens increase, up to the end of the last one. -/
theorem Tiles.increasing {ts : List (Token α)} (h : Tiles text i ts j) :
    (ts.map (·.pos) ++ [j]).Pairwise (· < ·) ∧ ∀ p ∈ ts.map (·.pos) ++ [j], i ≤ p := by
  induction ts generalizing i with
  | nil => simpa using h.1
  | cons t ts ih =>
    obtain ⟨hgap, hcut, hrest⟩ := h
    obtain ⟨hpairwise, hle⟩ := ih hrest
    have hlt := hcut.lt_stop
    have hstart := hgap.1
    rw [List.map_cons, List.cons_append, List.pairwise_cons, List.forall_mem_cons]
    refine ⟨⟨fun p hp => ?_, hpairwise⟩, hstart, fun p hp => ?_⟩
    · have := hle p hp
      omega
    · have := hle p hp
      omega

/-- Tokens cover a text up to a position, one behind the other. -/
structure Tiled (text : List Char) (ts : List (Token α)) (stop : Nat) : Prop where
  tiles : Tiles text 0 ts stop
  increasing : (ts.map (·.pos) ++ [stop]).Pairwise (· < ·)

/-- Tiles from the beginning are those of the text. -/
theorem Tiles.tiled {ts : List (Token α)} (h : Tiles text 0 ts k) : Tiled text ts k :=
  ⟨h, h.increasing.1⟩

/-! ## the tokens of a text -/

/-- Only white space has no symbol. -/
theorem symbol?_eq_none (h : (symbol? cs kind : Option (Symbol α)) = none) : kind = .blank := by
  cases kind <;> first | rfl | cases h

/-- A token that is read is a piece of the text, as long as its lexeme. -/
theorem ReadAt.cutFrom {t : Token α} (h : ReadAt t pos (text.drop pos) kind n) :
    CutFrom text t ∧ t.stop = pos + n := by
  have hlength : t.text.length = n := by
    have := lexeme?_le h.lexeme
    simp only [h.text, String.length_ofList, List.length_take]
    omega
  have hstop : t.stop = pos + n := by rw [Token.stop, h.pos, hlength]
  have hname : ∀ x, t.symbol = .name x → kind = .name := fun x hx =>
    (symbol?_eq_name (h.symbol.trans (congrArg some hx))).1
  refine ⟨⟨?_, ?_, ?_, fun x hx => ?_, fun x hx c hc => ?_⟩, hstop⟩
  · rw [h.pos]
    exact ⟨kind, n, h⟩
  · intro hempty
    rw [hempty, String.length_empty] at hlength
    exact lexeme?_ne_zero h.lexeme hlength.symm
  · rw [h.pos, hlength, h.text, String.toList_ofList]
  · rw [hlength]
    exact h.short (hname x hx)
  · obtain rfl := hname x hx
    obtain ⟨-, hlen, hne⟩ := lexeme?_eq_name.mp h.lexeme
    rw [hstop, ← List.getElem?_drop] at hc
    exact not_continuesName hlen hne hc

/-- A lexeme in front of tokens that cover what is behind it. -/
theorem Tiles.cons {ts : List (Token α)} (h : lexeme? (text.drop pos) = some (kind, n))
    (hshort : kind = .name → n ≤ maxNameLength) (hrest : Tiles text (pos + n) ts j) :
    Tiles text pos (tokenOf pos ((text.drop pos).take n) kind ++ ts) j := by
  cases hs : (symbol? ((text.drop pos).take n) kind : Option (Symbol α)) with
  | none =>
    obtain rfl := symbol?_eq_none hs
    simpa [tokenOf_none hs] using hrest.blank (gap_of_lexeme h)
  | some s =>
    have hread : ReadAt ⟨s, String.ofList ((text.drop pos).take n), pos⟩ pos (text.drop pos) kind n :=
      ⟨h, hshort, hs, rfl, rfl⟩
    obtain ⟨hcut, hstop⟩ := hread.cutFrom
    rw [tokenOf_some hs]
    exact ⟨.refl text pos, hcut, hstop ▸ hrest⟩

/-- An error tells what stands at its position: nothing that any alternative matches, or a name that
is too long. -/
def Explains (text : List Char) : LexError → Prop
  | .invalidSymbol c p => text[p]? = some c ∧ ∀ a ∈ alternatives, a.2 (text.drop p) = 0
  | .longName x p =>
    lexeme? (text.drop p) = some (.name, x.length) ∧ (text.drop p).take x.length = x ∧
      maxNameLength < x.length

/-- The tokens from a position on cover the rest of the text, or what comes before an error. -/
theorem tiles_tokensFrom (hpos : pos ≤ text.length) :
    match (tokensFrom pos (text.drop pos) : Except LexError (List (Token α))) with
    | .ok ts => Tiles text pos ts text.length
    | .error e => Explains text e ∧ ∃ ts : List (Token α), Tiles text pos ts e.pos := by
  -- each lexeme leaves less of the text
  induction hk : text.length - pos using Nat.strong_induction_on generalizing pos with
  | _ k ih =>
    subst hk
    cases hcs : text.drop pos with
    | nil =>
      obtain rfl : pos = text.length := Nat.le_antisymm hpos (List.drop_eq_nil_iff.mp hcs)
      rw [tokensFrom_nil]
      exact Gap.refl text _
    | cons c cs =>
      have hlength : cs.length + 1 = text.length - pos := by
        rw [← List.length_drop, hcs, List.length_cons]
      have hc : text[pos]? = some c := by
        rw [← List.head?_drop, hcs, List.head?_cons]
      cases hl : lexeme? (c :: cs) with
      | none =>
        rw [tokensFrom_of_none hl]
        exact ⟨⟨hc, hcs ▸ lexeme?_eq_none.mp hl⟩, [], Gap.refl text pos⟩
      | some q =>
        obtain ⟨kind, n⟩ := q
        have hle := lexeme?_le hl
        have hne := lexeme?_ne_zero hl
        by_cases hlong : kind = .name ∧ maxNameLength < n
        · have hlen : ((c :: cs).take n).length = n := by
            rw [List.length_take]
            omega
          obtain ⟨rfl, hlong⟩ := hlong
          rw [tokensFrom_of_long hl hlong]
          refine ⟨?_, [], Gap.refl text pos⟩
          rw [Explains, hlen, hcs, hl]
          exact ⟨rfl, rfl, hlong⟩
        · have hshort : kind = .name → n ≤ maxNameLength := fun hname =>
            Nat.le_of_not_lt fun hlt => hlong ⟨hname, hlt⟩
          rw [List.length_cons] at hle
          have hbound : pos + n ≤ text.length := by omega
          have hrest := ih (text.length - (pos + n)) (by omega) hbound rfl
          rw [tokensFrom_of_lexeme hl hshort, drop_lexeme hl, ← hcs, List.drop_drop]
          rw [← hcs] at hl
          cases hr : (tokensFrom (pos + n) (text.drop (pos + n)) :
              Except LexError (List (Token α))) with
          | ok ts =>
            rw [hr] at hrest
            exact Tiles.cons hl hshort hrest
          | error e =>
            rw [hr] at hrest
            obtain ⟨hexplains, ts, hts⟩ := hrest
            exact ⟨hexplains, _, Tiles.cons hl hshort hts⟩

/-- **The tokens of a text tile it.**  Every text has tokens that cover it up to its end, or an error
somewhere in it that tells what no token can be read of, and tokens that cover all before it. -/
theorem tokenize_tiled (text : List Char) :
    match (tokenize text : Except LexError (Tokens α)) with
    | .ok ts => ts.stop = text.length ∧ Tiled text ts.tokens ts.stop ∧
        ∀ t ∈ ts.tokens, t.symbol.kind ≠ endKind
    | .error e => e.pos < text.length ∧ Explains text e ∧
        ∃ ts : List (Token α), Tiled text ts e.pos := by
  have h := tiles_tokensFrom (α := α) (Nat.zero_le text.length)
  rw [List.drop_zero] at h
  cases hr : (tokenize text : Except LexError (Tokens α)) with
  | ok ts =>
    have hstop := stop_of_tokenize hr
    rw [tokensFrom_of_tokenize hr] at h
    exact ⟨hstop, hstop ▸ h.tiled, fun t _ => kind_ne_endKind t.symbol⟩
  | error e =>
    have herror : (tokensFrom 0 text : Except LexError (List (Token α))) = .error e := by
      rw [tokensFrom, ← tokenize, hr]
      rfl
    rw [herror] at h
    obtain ⟨hexplains, ts, hts⟩ := h
    exact ⟨by simpa using pos_of_tokensFrom_eq_error herror, hexplains, ts, hts.tiled⟩

end Lexer

end Fluxion

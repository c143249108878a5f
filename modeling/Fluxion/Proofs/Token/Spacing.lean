import Fluxion.Proofs.Token.Plain

/-!
# Fluxion.Proofs.Token.Spacing

Tokens do not depend on the white space between them.

A lexeme that is measured without a look behind it is measured in the same way in front of any white
space.  Only brackets look over white space, at the character behind it, and that one is the same
whenever the next token is.

* `visible_cases`: the alternatives that give a token;
* `lexeme?_respaced`: a lexeme in front of other white space;
* `tokenize_respaced`: the tokens of a text with other white space between them.
-/

namespace Fluxion.Lexer

open Text

variable {cs ds x r r' : List Char} {n : Nat}

/-! ## lexemes in front of white space -/

/-- The end of a text, or white space. -/
def Detached (r : List Char) : Prop := ∀ c ∈ r.head?, isBlank c = true

/-- A lexeme without white space does not go on in white space. -/
theorem le_of_solidTo (h : SolidTo (x ++ r) n) (hn : n ≤ (x ++ r).length) (hr : Detached r) :
    n ≤ x.length := by
  cases r with
  | nil => simpa using hn
  | cons c r =>
    by_contra hlt
    have hmem : c ∈ (x ++ c :: r).take n := by
      rw [List.take_append, List.mem_append]
      right
      obtain ⟨k, hk⟩ := Nat.exists_eq_add_of_lt (not_le.mp hlt)
      have hsub : n - x.length = k + 1 := by omega
      rw [hsub, List.take_succ_cons]
      exact List.mem_cons_self
    have hblank := hr c (by simp)
    rw [h c hmem] at hblank
    cases hblank

/-- A measure that looks at a lexeme only, in front of other white space. -/
theorem Local.respaced {f : List Char → Nat} (hf : Local f) (hs : Solid f)
    (hbound : ∀ cs, f cs ≤ cs.length) (h : f (x ++ r) ≤ x.length) (hr' : Detached r') :
    f (x ++ r') = f (x ++ r) := by
  have hle : f (x ++ r') ≤ x.length := le_of_solidTo (hs _) (hbound _) hr'
  have heq := hf (x ++ r) x.length h
  have heq' := hf (x ++ r') x.length hle
  rw [List.take_left] at heq heq'
  rw [← heq, ← heq']

/-- The character behind white space. -/
def behindBlanks (cs : List Char) : Option Char := (cs.dropWhile isBlank).head?

theorem behindBlanks_append (x : List Char) (h : behindBlanks r' = behindBlanks r) :
    behindBlanks (x ++ r') = behindBlanks (x ++ r) := by
  unfold behindBlanks at h ⊢
  rw [List.dropWhile_append, List.dropWhile_append]
  split
  · exact h
  · next hne => cases hx : x.dropWhile isBlank <;> simp_all

theorem drop_blankLength (cs : List Char) : cs.drop (blankLength cs) = cs.dropWhile isBlank :=
  (congrArg (List.drop _) List.takeWhile_append_dropWhile.symm).trans List.drop_left

/-- A bracket is found behind its word and white space, or at the start. -/
theorem bracketLength_eq (word : List Char) (b : Char) (cs : List Char) :
    bracketLength word b cs =
      if wordLength word cs ≠ 0 ∧ behindBlanks (cs.drop (wordLength word cs)) = some b then
        wordLength word cs + blankLength (cs.drop (wordLength word cs)) + 1
      else charLength b cs := by
  have hbehind (ds : List Char) : charLength b (ds.drop (blankLength ds)) ≠ 0 ↔
      behindBlanks ds = some b := by
    rw [drop_blankLength, behindBlanks]
    cases ds.dropWhile isBlank <;> simp [charLength]
  simp only [bracketLength, ← List.drop_drop, Bool.and_eq_true, bne_iff_ne, hbehind]

/-- White space that ends within a text. -/
theorem blankLength_respaced (h : blankLength (x ++ r) < x.length) (r' : List Char) :
    blankLength (x ++ r') = blankLength (x ++ r) := by
  rw [blankLength, List.takeWhile_append] at h
  rw [blankLength, blankLength, List.takeWhile_append, List.takeWhile_append]
  split at h
  · rw [List.length_append] at h
    omega
  · next hne => rw [if_neg hne, if_neg hne]

/-- A bracket is measured over white space, but not by how much there is of it. -/
theorem bracketLength_respaced {word : List Char} {b : Char} (hw : solidWord word = true)
    (hx : x ≠ []) (h : bracketLength word b (x ++ r) ≤ x.length) (hr' : Detached r')
    (hbehind : behindBlanks r' = behindBlanks r) :
    bracketLength word b (x ++ r') = bracketLength word b (x ++ r) := by
  have hchar : charLength b (x ++ r') = charLength b (x ++ r) := by
    rw [charLength_append b hx, charLength_append b hx]
  have hword (hle : wordLength word (x ++ r) ≤ x.length) :
      wordLength word (x ++ r') = wordLength word (x ++ r) :=
    (local_wordLength word).respaced (solid_wordLength hw) (wordLength_le word) hle hr'
  have hdrop (s : List Char) (hle : wordLength word (x ++ r) ≤ x.length) :
      (x ++ s).drop (wordLength word (x ++ r)) = x.drop (wordLength word (x ++ r)) ++ s :=
    List.drop_append_of_le_length hle
  rw [bracketLength_eq] at h ⊢
  rw [bracketLength_eq]
  by_cases hsized : wordLength word (x ++ r) ≠ 0 ∧
      behindBlanks ((x ++ r).drop (wordLength word (x ++ r))) = some b
  · rw [if_pos hsized] at h ⊢
    have hle : wordLength word (x ++ r) ≤ x.length := by omega
    have hlength : (x.drop (wordLength word (x ++ r))).length + wordLength word (x ++ r) =
        x.length := by
      rw [List.length_drop]
      omega
    rw [hdrop _ hle] at h hsized ⊢
    have hlt : blankLength (x.drop (wordLength word (x ++ r)) ++ r) <
        (x.drop (wordLength word (x ++ r))).length := by omega
    rw [hword hle, hdrop _ hle, blankLength_respaced hlt r', behindBlanks_append _ hbehind,
      if_pos hsized]
  · rw [if_neg hsized, ← hchar]
    refine if_neg fun hsized' => hsized ?_
    have hle : wordLength word (x ++ r) ≤ x.length := by
      have hlength : wordLength word (x ++ r') = word.length := by
        unfold wordLength at hsized' ⊢
        split at hsized' <;> simp_all
      have hle' : wordLength word (x ++ r') ≤ x.length :=
        le_of_solidTo (solid_wordLength hw _) (wordLength_le word _) hr'
      have := wordLength_le_length word (x ++ r)
      omega
    rw [hword hle, hdrop _ hle] at hsized'
    rw [hdrop _ hle]
    exact ⟨hsized'.1, (behindBlanks_append _ hbehind).symm.trans hsized'.2⟩

/-- The alternatives that give a token. -/
def visible : List (Kind × (List Char → Nat)) := alternatives.take 12

/-- Of the alternatives only brackets look behind white space. -/
theorem visible_cases {a : Kind × (List Char → Nat)} (ha : a ∈ visible) :
    Plain a.2 ∨ ∃ word b, solidWord word = true ∧ isBlank b = false ∧
      a.2 = bracketLength word b := by
  simp only [visible, alternatives, List.take, List.mem_cons, List.not_mem_nil, or_false] at ha
  obtain rfl | rfl | rfl | rfl | rfl | rfl | rfl | rfl | rfl | rfl | rfl | rfl := ha
  · exact .inl plain_number
  · exact .inr ⟨_, _, by decide, by decide, rfl⟩
  · exact .inr ⟨_, _, by decide, by decide, rfl⟩
  · exact .inl (plain_char (by decide))
  · exact .inl (plain_char (by decide))
  · exact .inl (plain_char (by decide))
  · exact .inl (plain_char (by decide))
  · exact .inl (plain_char (by decide))
  · exact .inl (plain_word (by decide))
  · exact .inl (plain_word (by decide))
  · exact .inl plain_function
  · exact .inl plain_name

theorem visible_respaced {a : Kind × (List Char → Nat)} (ha : a ∈ visible) (hx : x ≠ [])
    (h : a.2 (x ++ r) ≤ x.length) (hr' : Detached r')
    (hbehind : behindBlanks r' = behindBlanks r) : a.2 (x ++ r') = a.2 (x ++ r) := by
  obtain hplain | ⟨word, b, hw, -, hf⟩ := visible_cases ha
  · exact hplain.isLocal.respaced hplain.solid hplain.le h hr'
  · rw [hf] at h ⊢
    exact bracketLength_respaced hw hx h hr' hbehind

/-- White space is tried last. -/
theorem lexeme?_visible (cs : List Char) :
    lexeme? cs = (visible.findSome? (attempt cs)).or (attempt cs (Kind.blank, blankLength)) := by
  have halternatives : alternatives = visible ++ [(Kind.blank, blankLength)] := rfl
  have hlexeme : lexeme? cs = alternatives.findSome? (attempt cs) := rfl
  rw [hlexeme, halternatives, List.findSome?_append]
  simp

/-- A lexeme that gives a token is the first one among these alternatives. -/
theorem lexeme?_eq_visible {kind : Kind} (hkind : kind ≠ .blank) :
    lexeme? cs = some (kind, n) ↔ visible.findSome? (attempt cs) = some (kind, n) := by
  rw [lexeme?_visible]
  cases visible.findSome? (attempt cs) with
  | some q => simp
  | none =>
    simp only [Option.none_or, attempt, reduceCtorEq, iff_false]
    intro h
    split at h
    · cases h
    · cases h
      exact hkind rfl

/-- A lexeme in front of other white space, with the same character behind it. -/
theorem lexeme?_respaced {kind : Kind} (hkind : kind ≠ .blank)
    (h : lexeme? (x ++ r) = some (kind, x.length)) (hr' : Detached r')
    (hbehind : behindBlanks r' = behindBlanks r) :
    lexeme? (x ++ r') = some (kind, x.length) := by
  have hx : x ≠ [] := by
    rintro rfl
    exact lexeme?_ne_zero h rfl
  rw [lexeme?_eq_visible hkind, List.findSome?_eq_some_iff] at h ⊢
  obtain ⟨before, a, after, hvisible, ha, hbefore⟩ := h
  have hmeasure : a.2 (x ++ r) ≤ x.length := by
    unfold attempt at ha
    split at ha
    · cases ha
    · exact (Prod.mk.inj (Option.some.inj ha)).2.le
  have hmem : a ∈ visible := by rw [hvisible]; simp
  refine ⟨before, a, after, hvisible, ?_, fun b hb => ?_⟩
  · rw [attempt, visible_respaced hmem hx hmeasure hr' hbehind]
    exact ha
  · have hzero := attempt_eq_none.mp (hbefore b hb)
    have hb' : b ∈ visible := by rw [hvisible]; simp [hb]
    rw [attempt_eq_none, visible_respaced hb' hx (by omega) hr' hbehind, hzero]

/-! ## tokens with other white space between them -/

/-- White space. -/
def AllBlank (cs : List Char) : Prop := ∀ c ∈ cs, isBlank c = true

instance (cs : List Char) : Decidable (AllBlank cs) :=
  decidable_of_iff (cs.all isBlank = true) List.all_eq_true

/-- Words in their order, with white space between neighbours. -/
inductive Spaced : List (List Char) → List Char → Prop where
  | nil : Spaced [] []
  | single (w : List Char) : Spaced [w] w
  | cons (w gap : List Char) {v : List Char} {ws : List (List Char)} {cs : List Char}
      (hne : gap ≠ []) (hgap : AllBlank gap) (h : Spaced (v :: ws) cs) :
      Spaced (w :: v :: ws) (w ++ (gap ++ cs))

theorem dropWhile_allBlank (h : AllBlank cs) (ds : List Char) :
    (cs ++ ds).dropWhile isBlank = ds.dropWhile isBlank := by
  rw [List.dropWhile_append, List.dropWhile_eq_nil_iff.mpr h]
  rfl

theorem Spaced.eq_cons {c : Char} {w : List Char} {ws : List (List Char)}
    (h : Spaced ((c :: w) :: ws) cs) : ∃ ds, cs = c :: ds := by
  cases h with
  | single => exact ⟨w, rfl⟩
  | cons _ _ hne hgap h => exact ⟨_, rfl⟩

theorem Solid.isBlank_eq_false {f : List Char → Nat} (hf : Solid f) {c : Char} (cs : List Char)
    (h : f (c :: cs) ≠ 0) : isBlank c = false := by
  obtain ⟨n, hn⟩ := Nat.exists_eq_succ_of_ne_zero h
  apply hf (c :: cs) c
  rw [hn, List.take_succ_cons]
  exact List.mem_cons_self

theorem isBlank_of_bracketLength {word : List Char} {b c : Char} (hw : solidWord word = true)
    (hb : isBlank b = false) (h : bracketLength word b (c :: cs) ≠ 0) : isBlank c = false := by
  rw [bracketLength_eq] at h
  split at h
  · next hsized => exact (solid_wordLength hw).isBlank_eq_false _ hsized.1
  · exact (solid_charLength hb).isBlank_eq_false _ h

/-- No token begins with white space. -/
theorem isBlank_of_visible {a : Kind × (List Char → Nat)} (ha : a ∈ visible) {c : Char}
    (cs : List Char) (h : a.2 (c :: cs) ≠ 0) : isBlank c = false := by
  obtain hplain | ⟨word, b, hw, hb, hf⟩ := visible_cases ha
  · exact hplain.solid.isBlank_eq_false cs h
  · rw [hf] at h
    exact isBlank_of_bracketLength hw hb h

theorem isBlank_of_lexeme {kind : Kind} (hkind : kind ≠ .blank) {c : Char}
    (h : lexeme? (c :: cs) = some (kind, n)) : isBlank c = false := by
  rw [lexeme?_eq_visible hkind] at h
  obtain ⟨a, ha, hattempt⟩ := List.exists_of_findSome?_eq_some h
  refine isBlank_of_visible ha cs fun hzero => ?_
  rw [attempt_eq_none.mpr hzero] at hattempt
  cases hattempt

/-- White space in front of a text that does not begin with any. -/
theorem lexeme?_gap (hne : cs ≠ []) (hgap : AllBlank cs) (hs : Starts ds) :
    lexeme? (cs ++ ds) = some (.blank, cs.length) := by
  have hlength : blankLength (cs ++ ds) = cs.length := by
    obtain ⟨d, ds, rfl, hd⟩ := hs
    rw [blankLength, List.takeWhile_append_of_pos hgap, List.takeWhile_cons, hd]
    simp
  have hvisible : visible.findSome? (attempt (cs ++ ds)) = none := by
    rw [List.findSome?_eq_none_iff]
    intro a ha
    obtain ⟨c, cs, rfl⟩ := List.exists_cons_of_ne_nil hne
    rw [attempt_eq_none]
    by_contra hzero
    have hblank := hgap c List.mem_cons_self
    rw [isBlank_of_visible ha (cs ++ ds) hzero] at hblank
    cases hblank
  rw [lexeme?_visible, hvisible, Option.none_or, attempt]
  simp [hlength, hne]

variable {α : Type}

/-- What a token is, wherever it stands. -/
def content (t : Token α) : Symbol α × List Char := (t.symbol, t.text.toList)

variable [Arith α]

theorem ne_blank_of_symbol {kind : Kind} {s : Symbol α} (hs : symbol? x kind = some s) :
    kind ≠ .blank := by
  rintro rfl
  cases hs

/-- A text is cut into tokens and white space.  Tokens may be recorded at any position. -/
inductive Cut : List Char → List (Token α) → Prop where
  | nil : Cut [] []
  | gap {x rest : List Char} {ts : List (Token α)}
      (h : lexeme? (x ++ rest) = some (.blank, x.length)) (hrest : Cut rest ts) : Cut (x ++ rest) ts
  | token {x rest : List Char} {ts : List (Token α)} {kind : Kind} {s : Symbol α} (pos : Nat)
      (h : lexeme? (x ++ rest) = some (kind, x.length)) (hs : symbol? x kind = some s)
      (hshort : kind = .name → x.length ≤ maxNameLength) (hrest : Cut rest ts) :
      Cut (x ++ rest) (⟨s, String.ofList x, pos⟩ :: ts)

theorem cut_of_tokensFrom {pos : Nat} {cs : List Char} {ts : List (Token α)}
    (h : tokensFrom pos cs = .ok ts) : Cut cs ts := by
  match cs with
  | [] =>
    rw [tokensFrom_nil] at h
    cases h
    exact .nil
  | c :: cs =>
    obtain ⟨kind, n, ts, hlexeme, hshort, hts, rfl⟩ := tokensFrom_cons h
    rw [drop_lexeme hlexeme] at hts
    have hn := lexeme?_ne_zero hlexeme
    have hrest := cut_of_tokensFrom hts
    have hlength : ((c :: cs).take n).length = n := by
      have := lexeme?_le hlexeme
      rw [List.length_take]
      omega
    have hsplit := List.take_append_drop n (c :: cs)
    have hx : lexeme? ((c :: cs).take n ++ (c :: cs).drop n) =
        some (kind, ((c :: cs).take n).length) := by
      rw [hsplit, hlength]
      exact hlexeme
    cases hs : (symbol? ((c :: cs).take n) kind : Option (Symbol α)) with
    | none =>
      obtain rfl := symbol?_eq_none hs
      rw [tokenOf_none hs, ← hsplit]
      exact .gap hx hrest
    | some s =>
      have hcut := Cut.token pos hx hs (fun hk => hlength.symm ▸ hshort hk) hrest
      rw [hsplit] at hcut
      rw [tokenOf_some hs]
      exact hcut
termination_by cs.length

/-- No token begins with white space. -/
theorem Cut.starts {t : Token α} {ts : List (Token α)} (h : Cut cs (t :: ts)) :
    Starts t.text.toList := by
  generalize hts : t :: ts = us at h
  induction h with
  | nil => cases hts
  | gap h hrest ih => exact ih hts
  | @token x rest _ kind s pos h hs hshort hrest ih =>
    cases hts
    have hx : x ≠ [] := fun hx => lexeme?_ne_zero h (by simp [hx])
    obtain ⟨c, x, rfl⟩ := List.exists_cons_of_ne_nil hx
    refine ⟨c, x, String.toList_ofList, isBlank_of_lexeme (ne_blank_of_symbol hs) h⟩

/-- Behind white space stands the first character of the first token. -/
theorem Cut.behindBlanks_eq {ts : List (Token α)} (h : Cut cs ts) :
    behindBlanks cs = ts.head?.bind fun t => t.text.toList.head? := by
  induction h with
  | nil => rfl
  | @gap x rest ts h hrest ih =>
    have hx : AllBlank x := by
      have htake : (x ++ rest).take (blankLength (x ++ rest)) = (x ++ rest).takeWhile isBlank :=
        (List.prefix_iff_eq_take.mp (List.takeWhile_prefix isBlank)).symm
      rw [lexeme?_eq_blank h, List.take_left] at htake
      intro c hc
      rw [htake] at hc
      exact List.mem_takeWhile_imp hc
    rw [← ih, behindBlanks, behindBlanks, dropWhile_allBlank hx]
  | @token x rest ts kind s pos h hs hshort hrest ih =>
    have hstarts := (Cut.token pos h hs hshort hrest).starts
    obtain ⟨c, y, hy, hc⟩ := hstarts
    rw [String.toList_ofList] at hy
    subst hy
    simp [behindBlanks, hc]

/-- Tokens with other white space between them are the same tokens at other positions. -/
theorem Cut.respaced {ts : List (Token α)} (h : Cut cs ts)
    (hspaced : Spaced (ts.map (·.text.toList)) ds) (pos' : Nat) :
    ∃ us : List (Token α), tokensFrom pos' ds = .ok us ∧ us.map content = ts.map content := by
  induction h generalizing ds pos' with
  | nil =>
    cases hspaced
    exact ⟨[], tokensFrom_nil pos', rfl⟩
  | gap h hrest ih => exact ih hspaced pos'
  | @token x rest ts kind s pos h hs hshort hrest ih =>
    have hx : x ≠ [] := fun hx => lexeme?_ne_zero h (by simp [hx])
    -- the token is taken from in front of what comes behind it now
    have htoken {r' : List Char} {us : List (Token α)} (hr' : Detached r')
        (hbehind : behindBlanks r' = behindBlanks rest)
        (hus : tokensFrom (pos' + x.length) r' = .ok us)
        (hcontent : us.map content = ts.map content) :
        ∃ us : List (Token α), tokensFrom pos' (x ++ r') = .ok us ∧
          us.map content = content ⟨s, String.ofList x, pos⟩ :: ts.map content := by
      have hlexeme := lexeme?_respaced (ne_blank_of_symbol hs) h hr' hbehind
      refine ⟨⟨s, String.ofList x, pos'⟩ :: us, ?_, by simp [content, hcontent]⟩
      rw [tokensFrom_append hx hlexeme hshort, hus, tokenOf_some hs]
      rfl
    rw [List.map_cons, String.toList_ofList] at hspaced
    have hbehind := hrest.behindBlanks_eq
    cases ts with
    | nil =>
      cases hspaced
      have hnil : Detached [] := by simp [Detached]
      have hend := htoken hnil hbehind.symm (tokensFrom_nil _) rfl
      rwa [List.append_nil] at hend
    | cons u ts =>
      obtain ⟨c, v, hv, hc⟩ := hrest.starts
      cases hspaced with
      | @cons _ gap _ _ ds hne hgap hspaced =>
        obtain ⟨us, hus, hcontent⟩ := ih hspaced (pos' + x.length + gap.length)
        simp only [hv] at hspaced
        obtain ⟨ds, rfl⟩ := hspaced.eq_cons
        have hlexeme := lexeme?_gap hne hgap ⟨c, ds, rfl, hc⟩
        apply htoken _ _ _ hcontent
        · intro d hd
          obtain ⟨e, gap, rfl⟩ := List.exists_cons_of_ne_nil hne
          exact hgap d (by simp_all)
        · rw [hbehind, behindBlanks, dropWhile_allBlank hgap]
          simp [hv, hc]
        · rw [tokensFrom_append hne hlexeme (fun hk => by cases hk), hus, tokenOf_none rfl]
          rfl

/-- Tokens of a text, joined with other white space, are the tokens of what they are joined to. -/
theorem tokenize_respaced {ts : Tokens α} (h : tokenize cs = .ok ts)
    (hspaced : Spaced (ts.tokens.map (·.text.toList)) ds) :
    ∃ us : Tokens α, tokenize ds = .ok us ∧ us.tokens.map content = ts.tokens.map content := by
  have htokens := tokensFrom_of_tokenize h
  obtain ⟨us, hus, hcontent⟩ := (cut_of_tokensFrom htokens).respaced hspaced 0
  obtain ⟨stop, htext⟩ := exists_tokenize hus
  exact ⟨⟨us, stop⟩, htext, hcontent⟩

end Fluxion.Lexer

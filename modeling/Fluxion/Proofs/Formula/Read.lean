import Fluxion.Failure
import Fluxion.Proofs.Formula.Phrase

/-!
# Fluxion.Proofs.Formula.Read

Which tokens are a formula.

* `Expr.ofTokens_eq_ok`: exactly the tokens with a derivation are an expression, and it is the one
  that the derivation denotes;
* `Phrase.inRange_sum`: the tokens and the end are never read beyond;
* `Formula.namesOf_spec`: the table of names is filled unless there are too many distinct names;
* `Formula.ofTokens_spec`: both together, with what is reported otherwise.
-/

namespace Fluxion

open Phrase (bare FoundIn Via)

variable {α : Type}

/-! ## expressions -/

/-- Reading all tokens, without the proof that the phrase is shorter. -/
theorem Expr.ofTokens_eq (ts : Tokens α) :
    Expr.ofTokens ts = match bare (Phrase.sum ts.stop ts.tokens) with
      | .error fault => .error fault
      | .ok (e, []) => .ok e
      | .ok (_, t :: rest) =>
        if t.symbol.isCloser then .error ⟨.unmatched (.ofToken t), rest.length + 1⟩
        else .error ⟨.trailing (.ofToken t), rest.length + 1⟩ := by
  unfold Expr.ofTokens
  cases Phrase.sum ts.stop ts.tokens with
  | error fault => rfl
  | ok p =>
      obtain ⟨e, rest, hlt⟩ := p
      cases rest with
      | nil => rfl
      | cons t rest => rfl

theorem Expr.ofTokens_of_derivation {ts : Tokens α} {d : Grammar.Sum α}
    (hd : d.yield = symbols ts.tokens) : Expr.ofTokens ts = .ok d.denote := by
  have hts : symbols ts.tokens = d.yield ++ [] := by rw [hd, List.append_nil]
  obtain ⟨rest, hsum, hrest⟩ := Phrase.complete_sum d ts.tokens hts Grammar.ends_nil
  rw [Expr.ofTokens_eq, hsum]
  cases rest with
  | nil => rfl
  | cons t rest => exact nomatch hrest

/-- What is read of all tokens: an expression with a derivation, or a fault found among them. -/
theorem Expr.ofTokens_sound (ts : Tokens α) :
    match Expr.ofTokens ts with
    | .ok e => ∃ d : Grammar.Sum α, d.yield = symbols ts.tokens ∧ d.denote = e
    | .error fault => FoundIn ts.stop ts.tokens fault := by
  have hsum : Phrase.Sound ts.stop ts.tokens _ (bare (Phrase.sum ts.stop ts.tokens)) :=
    Phrase.sound_sum ts.tokens
  rw [Expr.ofTokens_eq]
  cases hr : bare (Phrase.sum ts.stop ts.tokens) with
  | error fault =>
      rw [hr] at hsum
      exact hsum
  | ok q =>
      rw [hr] at hsum
      obtain ⟨e, rest⟩ := q
      obtain ⟨taken, hts, hd⟩ := hsum
      cases rest with
      | nil =>
          rw [hts, List.append_nil]
          exact hd
      | cons t rest =>
          have hsuffix : t :: rest <:+ ts.tokens := ⟨taken, hts.symm⟩
          by_cases hc : t.symbol.isCloser = true
          · simp only [hc, if_true]
            exact .place hsuffix rfl
          · simp only [hc]
            exact .place hsuffix rfl

/-- Exactly the tokens with a derivation are an expression, the one that the derivation denotes. -/
theorem Expr.ofTokens_eq_ok {ts : Tokens α} {e : Expr α} :
    Expr.ofTokens ts = .ok e ↔ ∃ d : Grammar.Sum α, d.yield = symbols ts.tokens ∧ d.denote = e := by
  constructor
  · intro h
    have hsound := Expr.ofTokens_sound ts
    rw [h] at hsound
    exact hsound
  · intro h
    obtain ⟨d, hd, rfl⟩ := h
    exact Expr.ofTokens_of_derivation hd

theorem Expr.foundIn_of_ofTokens {ts : Tokens α} {fault : GrammarFault}
    (h : Expr.ofTokens ts = .error fault) : FoundIn ts.stop ts.tokens fault := by
  have hsound := Expr.ofTokens_sound ts
  rw [h] at hsound
  exact hsound

/-! ## the cursor -/

/-- The places of all tokens, with the end behind them. -/
def Tokens.places (ts : Tokens α) : List Place := ts.tokens.map .ofToken ++ [⟨none, ts.stop⟩]

/-- The place that a cursor points at if it counts the tokens that are taken: that of the first
token left, or the end. -/
def Tokens.current? (ts : Tokens α) (unread : Nat) : Option Place :=
  ts.places[ts.tokens.length - unread]?

/-- As long as the tokens left are the last ones, the cursor points at a token or the end. -/
theorem Tokens.current?_of_suffix {ts : Tokens α} {left : List (Token α)}
    (h : left <:+ ts.tokens) : ts.current? left.length = some (Place.first ts.stop left) := by
  obtain ⟨taken, htaken⟩ := h
  rw [Tokens.current?, Tokens.places, ← htaken, List.length_append, Nat.add_sub_cancel]
  cases left with
  | nil => simp [Place.first]
  | cons t rest => simp [Place.first]

/-- The cursor points at a token or the end after a rule: at the first token that is left, or at the
place that the fault is about. -/
def Phrase.InRange (ts : Tokens α) : Except GrammarFault (Expr α × List (Token α)) → Prop
  | .ok (_, rest) => ts.current? rest.length = some (Place.first ts.stop rest)
  | .error fault => ∃ p, ts.current? fault.unread = some p ∧
      (fault.error.found? = some p ∨ fault.error.found? = none)

/-- **No rule moves the cursor out of range**, from wherever among the tokens of a text it starts. -/
theorem Phrase.Sound.inRange {ts : Tokens α} {us : List (Token α)} (hus : us <:+ ts.tokens)
    {D : List (Symbol α) → Expr α → Prop} {r : Except GrammarFault (Expr α × List (Token α))}
    (h : Sound ts.stop us D r) : InRange ts r := by
  cases r with
  | ok q =>
      obtain ⟨e, rest⟩ := q
      obtain ⟨taken, rfl, -⟩ := h
      exact Tokens.current?_of_suffix ((List.suffix_append taken rest).trans hus)
  | error fault =>
      cases FoundIn.mono h hus with
      | place hleft hfound => exact ⟨_, Tokens.current?_of_suffix hleft, .inl hfound⟩
      | word hleft ht hsymbol hname => exact ⟨_, Tokens.current?_of_suffix hleft, .inr rfl⟩

/-- The cursor stays in range while the tokens of a text are read. -/
theorem Phrase.inRange_sum (ts : Tokens α) : InRange ts (bare (Phrase.sum ts.stop ts.tokens)) :=
  (Phrase.sound_sum ts.tokens).inRange List.suffix_rfl

/-! ## names -/

/-- The name that a symbol stands for. -/
def Symbol.name? : Symbol α → Option String
  | .name x => some x
  | _ => none

theorem Symbol.name?_eq_some {s : Symbol α} {x : String} : s.name? = some x ↔ s = .name x := by
  cases s <;> simp [Symbol.name?]

namespace Formula

/-- The distinct names among tokens. -/
def distinctNames (ts : List (Token α)) : Finset String :=
  ((symbols ts).filterMap Symbol.name?).toFinset

/-- A table without repetitions has room for one more name unless it is full. -/
theorem add_spec {names : Names} (x : String) (hn : names.Nodup) (hle : names.length ≤ maxNames) :
    match names.add x with
    | .ok names' => names'.Nodup ∧ names'.length ≤ maxNames ∧
        names'.toFinset = insert x names.toFinset
    | .error _ => maxNames < (insert x names.toFinset).card := by
  unfold Names.add
  by_cases hx : names.contains x = true
  · rw [if_pos hx]
    have hmem : x ∈ names.toFinset := List.mem_toFinset.mpr (List.contains_iff_mem.mp hx)
    exact ⟨hn, hle, (Finset.insert_eq_self.mpr hmem).symm⟩
  · rw [if_neg hx]
    have hnot : x ∉ names := fun h => hx (List.contains_iff_mem.mpr h)
    have hnot' : x ∉ names.toFinset := fun h => hnot (List.mem_toFinset.mp h)
    by_cases hfull : maxNames ≤ names.length
    · rw [if_pos hfull, Finset.card_insert_of_notMem hnot', List.toFinset_card_of_nodup hn]
      exact Nat.lt_succ_of_le hfull
    · rw [if_neg hfull]
      constructor
      · exact List.Nodup.append hn (List.nodup_singleton x) (by simpa using hnot)
      · constructor
        · rw [List.length_append, List.length_singleton]
          omega
        · rw [List.toFinset_append]
          ext y
          simp

theorem distinctNames_of_name {t : Token α} {x : String} (h : t.symbol = .name x)
    (ts : List (Token α)) : distinctNames (t :: ts) = insert x (distinctNames ts) := by
  simp [distinctNames, h, Symbol.name?]

theorem distinctNames_of_other {t : Token α} (h : t.symbol.name? = none) (ts : List (Token α)) :
    distinctNames (t :: ts) = distinctNames ts := by
  simp [distinctNames, h]

theorem namesOf_of_other {t : Token α} (h : t.symbol.name? = none) (names : Names)
    (ts : List (Token α)) : namesOf names (t :: ts) = namesOf names ts := by
  rw [namesOf]
  cases hs : t.symbol with
  | name x => simp [hs, Symbol.name?] at h
  | _ => rfl

/-- The table is filled unless there are too many distinct names; then the first name that finds no
place is reported. -/
theorem namesOf_spec (ts : List (Token α)) {names : Names} (hn : names.Nodup)
    (hle : names.length ≤ maxNames) :
    match namesOf names ts with
    | .ok names' => names'.Nodup ∧ names'.length ≤ maxNames ∧
        names'.toFinset = names.toFinset ∪ distinctNames ts
    | .error e => maxNames < (names.toFinset ∪ distinctNames ts).card ∧
        ∃ t ∈ ts, ∃ x, t.symbol = .name x ∧ e = .namesFull ⟨⟩ t.text t.pos := by
  induction ts generalizing names with
  | nil => exact ⟨hn, hle, by simp [distinctNames]⟩
  | cons t ts ih =>
      cases hname : t.symbol.name? with
      | none =>
          rw [namesOf_of_other hname, distinctNames_of_other hname]
          have h := ih hn hle
          cases hr : namesOf names ts with
          | ok names' => rwa [hr] at h
          | error e =>
              rw [hr] at h
              obtain ⟨hcard, u, hu, hrest⟩ := h
              exact ⟨hcard, u, List.mem_cons_of_mem t hu, hrest⟩
      | some x =>
          have hs : t.symbol = .name x := Symbol.name?_eq_some.mp hname
          have hadd := add_spec x hn hle
          rw [distinctNames_of_name hs, namesOf, hs, Finset.union_insert, ← Finset.insert_union]
          cases hr : names.add x with
          | error e =>
              simp only [hr] at hadd ⊢
              constructor
              · exact hadd.trans_le (Finset.card_le_card Finset.subset_union_left)
              · exact ⟨t, List.mem_cons_self, x, hs, rfl⟩
          | ok names' =>
              simp only [hr] at hadd ⊢
              obtain ⟨hn', hle', hset⟩ := hadd
              have h := ih hn' hle'
              rw [hset] at h
              cases hr' : namesOf names' ts with
              | ok names'' =>
                  simp only [hr'] at h ⊢
                  exact h
              | error e =>
                  simp only [hr'] at h ⊢
                  obtain ⟨hcard, u, hu, hrest⟩ := h
                  exact ⟨hcard, u, List.mem_cons_of_mem t hu, hrest⟩

/-- From an empty table: it is filled exactly if the distinct names are not too many. -/
theorem namesOf_isOk_iff (ts : List (Token α)) :
    (∃ names, namesOf [] ts = .ok names) ↔ (distinctNames ts).card ≤ maxNames := by
  have h := namesOf_spec ts List.nodup_nil (Nat.zero_le maxNames)
  rw [List.toFinset_nil, Finset.empty_union] at h
  cases hr : namesOf [] ts with
  | ok names =>
      simp only [hr] at h
      obtain ⟨hn, hle, hset⟩ := h
      rw [← hset, List.toFinset_card_of_nodup hn]
      exact ⟨fun _ => hle, fun _ => ⟨names, rfl⟩⟩
  | error e =>
      simp only [hr] at h
      constructor
      · intro h
        obtain ⟨names, hnames⟩ := h
        exact nomatch hnames
      · intro hle
        omega

/-! ## formulas -/

/-- The place of an error in reading tokens: that of a token, or the end. -/
inductive LocatedIn (ts : Tokens α) : ReadError → Prop where
  | grammar {left : List (Token α)} {e : GrammarError} (hleft : left <:+ ts.tokens)
      (hfound : e.found? = some (Place.first ts.stop left)) : LocatedIn ts (.grammar e)
  | namesFull {t : Token α} {x : String} (ht : t ∈ ts.tokens) (hs : t.symbol = .name x) :
      LocatedIn ts (.namesFull ⟨⟩ t.text t.pos)

/-- The kinds of failures to read tokens. -/
def syntaxKinds : List FailureKind :=
  [.grouping, .trailingInput, .unexpectedToken, .tooManyVariables]

theorem LocatedIn.kind_mem {ts : Tokens α} {e : ReadError} (h : LocatedIn ts e) :
    (Failure.ofRead e).kind ∈ syntaxKinds := by
  cases h with
  | namesFull ht hs => simp [Failure.ofRead, syntaxKinds]
  | @grammar left e hleft hfound =>
      cases e with
      | noFunction name => exact nomatch hfound
      | _ => simp [Failure.ofRead, syntaxKinds]

/-- Every function among tokens has one of the known names. -/
def WordsKnown (ts : List (Token α)) : Prop :=
  ∀ t ∈ ts, ∀ name, t.symbol = .function name → ∃ f : Fn, name = f.name

theorem ofTokens_of_expr {ts : Tokens α} {root : Expr α} (h : Expr.ofTokens ts = .ok root) :
    ofTokens ts = (namesOf [] ts.tokens).map (⟨root, ·⟩) := by
  unfold ofTokens
  rw [h]
  cases namesOf [] ts.tokens with
  | ok names => rfl
  | error e => rfl

theorem ofTokens_of_fault {ts : Tokens α} {fault : GrammarFault}
    (h : Expr.ofTokens ts = .error fault) :
    ofTokens ts =
      match namesOf [] (ts.tokens.take (ts.tokens.length - fault.unread)) with
      | .ok _ => .error (.grammar fault.error)
      | .error e => .error e := by
  simp only [ofTokens, h]
  cases namesOf [] (ts.tokens.take (ts.tokens.length - fault.unread)) with
  | ok names => rfl
  | error e => rfl

/-- An error about names is about a name among the tokens. -/
theorem locatedIn_of_namesOf {ts : Tokens α} {us : List (Token α)} (hus : us ⊆ ts.tokens)
    {e : ReadError} (h : namesOf [] us = .error e) : LocatedIn ts e := by
  have hspec := namesOf_spec us List.nodup_nil (Nat.zero_le maxNames)
  rw [h] at hspec
  obtain ⟨-, t, ht, x, hs, rfl⟩ := hspec
  exact .namesFull (hus ht) hs

/-- Tokens are refused at the place of one of them or of the end, or for a command word that is no
function. -/
theorem locatedIn_or_word_of_ofTokens {ts : Tokens α} {e : ReadError}
    (h : ofTokens ts = .error e) :
    LocatedIn ts e ∨ ∃ t ∈ ts.tokens, ∃ name, t.symbol = .function name ∧
      Fn.ofName? name = none ∧ e = .grammar (.noFunction name) := by
  cases hr : Expr.ofTokens ts with
  | ok root =>
      rw [ofTokens_of_expr hr] at h
      cases hn : namesOf [] ts.tokens with
      | ok names =>
          rw [hn] at h
          exact nomatch h
      | error e' =>
          rw [hn] at h
          obtain rfl := Except.error.inj h
          exact .inl (locatedIn_of_namesOf (List.Subset.refl _) hn)
  | error fault =>
      rw [ofTokens_of_fault hr] at h
      cases hn : namesOf [] (ts.tokens.take (ts.tokens.length - fault.unread)) with
      | error e' =>
          rw [hn] at h
          obtain rfl := Except.error.inj h
          exact .inl (locatedIn_of_namesOf (List.take_subset _ _) hn)
      | ok names =>
          rw [hn] at h
          obtain rfl := Except.error.inj h
          cases Expr.foundIn_of_ofTokens hr with
          | place hleft hfound => exact .inl (.grammar hleft hfound)
          | word hleft ht hsymbol hname => exact .inr ⟨_, ht, _, hsymbol, hname, rfl⟩

theorem locatedIn_of_ofTokens {ts : Tokens α} (hw : WordsKnown ts.tokens) {e : ReadError}
    (h : ofTokens ts = .error e) : LocatedIn ts e := by
  obtain hloc | ⟨t, ht, name, hs, hname, -⟩ := locatedIn_or_word_of_ofTokens h
  · exact hloc
  · obtain ⟨f, rfl⟩ := hw t ht name hs
    rw [Phrase.ofName?_eq_some.mpr rfl] at hname
    exact nomatch hname

/-- A formula is read of tokens if its expression is, and its table is that of the names. -/
theorem ofTokens_eq_ok {ts : Tokens α} {f : Formula α} :
    ofTokens ts = .ok f ↔
      Expr.ofTokens ts = .ok f.root ∧ namesOf [] ts.tokens = .ok f.vars := by
  cases hr : Expr.ofTokens ts with
  | ok root =>
      rw [ofTokens_of_expr hr]
      cases hn : namesOf [] ts.tokens with
      | ok names =>
          constructor
          · intro h
            cases h
            exact ⟨rfl, rfl⟩
          · intro ⟨hroot, hnames⟩
            rw [Except.ok.inj hroot, Except.ok.inj hnames]
            rfl
      | error e =>
          constructor
          · exact fun h => nomatch h
          · exact fun ⟨_, h⟩ => nomatch h
  | error fault =>
      rw [ofTokens_of_fault hr]
      constructor
      · intro h
        split at h <;> exact nomatch h
      · exact fun ⟨h, _⟩ => nomatch h

theorem ofTokens_isOk_iff (ts : Tokens α) :
    (∃ f, ofTokens ts = .ok f) ↔
      (∃ d : Grammar.Sum α, d.yield = symbols ts.tokens) ∧
        (distinctNames ts.tokens).card ≤ maxNames := by
  rw [← namesOf_isOk_iff]
  constructor
  · intro ⟨f, hf⟩
    obtain ⟨hroot, hnames⟩ := ofTokens_eq_ok.mp hf
    obtain ⟨d, hd, -⟩ := Expr.ofTokens_eq_ok.mp hroot
    exact ⟨⟨d, hd⟩, f.vars, hnames⟩
  · intro ⟨⟨d, hd⟩, names, hn⟩
    exact ⟨⟨d.denote, names⟩, ofTokens_eq_ok.mpr ⟨Expr.ofTokens_of_derivation hd, hn⟩⟩

/-- The root of a formula is what its derivation denotes. -/
theorem root_of_derivation {ts : Tokens α} {d : Grammar.Sum α} (hd : d.yield = symbols ts.tokens)
    {f : Formula α} (hf : ofTokens ts = .ok f) : f.root = d.denote := by
  have hroot := (ofTokens_eq_ok.mp hf).1
  rw [Expr.ofTokens_of_derivation hd] at hroot
  exact (Except.ok.inj hroot).symm

/-- **Reading tokens decides the grammar.**  Tokens are a formula exactly if they have a derivation
and not too many distinct names; the derivation is then the only one, and the expression is what it
denotes.  All else is refused as a mistake in the grammar or for its names, at the place of one of
the tokens or at the end. -/
theorem ofTokens_spec (ts : Tokens α) (hw : WordsKnown ts.tokens) :
    ((∃ f, ofTokens ts = .ok f) ↔
      (∃ d : Grammar.Sum α, d.yield = symbols ts.tokens) ∧
        (distinctNames ts.tokens).card ≤ maxNames) ∧
    (∀ f, ofTokens ts = .ok f →
      ∃ d : Grammar.Sum α, d.yield = symbols ts.tokens ∧ f.root = d.denote ∧
        ∀ d' : Grammar.Sum α, d'.yield = symbols ts.tokens → d' = d) ∧
    (∀ e, ofTokens ts = .error e → (Failure.ofRead e).kind ∈ syntaxKinds ∧ LocatedIn ts e) := by
  constructor
  · exact ofTokens_isOk_iff ts
  · constructor
    · intro f hf
      obtain ⟨⟨d, hd⟩, -⟩ := (ofTokens_isOk_iff ts).mp ⟨f, hf⟩
      exact ⟨d, hd, root_of_derivation hd hf, fun d' hd' => Grammar.Sum.unique (hd'.trans hd.symm)⟩
    · intro e he
      have hloc := locatedIn_of_ofTokens hw he
      exact ⟨hloc.kind_mem, hloc⟩

/-- The tokens of `-\sin x^2 + y`. -/
def sineTokens : Tokens Nat where
  tokens := [⟨.minus, "-", 0⟩, ⟨.function "sin", "\\sin", 1⟩, ⟨.name "x", "x", 6⟩, ⟨.caret, "^", 7⟩,
    ⟨.number 2, "2", 8⟩, ⟨.plus, "+", 10⟩, ⟨.name "y", "y", 12⟩]
  stop := 13

/-- Their derivation. -/
def sineDerivation : Grammar.Sum Nat :=
  ⟨⟨.negation (.function .sin
      (.fraction (.power (.exponent (.atom (.name "x")) (.base (.atom (.number 2))))))), .nil⟩,
    .cons .plus ⟨.fraction (.power (.base (.atom (.name "y")))), .nil⟩ .nil⟩

theorem ofTokens_sineTokens :
    WordsKnown sineTokens.tokens ∧
      ∃ f, ofTokens sineTokens = .ok f ∧
        f.root = .bin .add (.neg (.app .sin (.bin .pow (.var "x") (.num 2)))) (.var "y") ∧
        ∀ d : Grammar.Sum Nat, d.yield = symbols sineTokens.tokens → d = sineDerivation := by
  have hw : WordsKnown sineTokens.tokens := by
    intro t ht name hs
    simp only [sineTokens, List.mem_cons, List.not_mem_nil, or_false] at ht
    obtain rfl | rfl | rfl | rfl | rfl | rfl | rfl := ht
    all_goals cases hs
    exact ⟨.sin, rfl⟩
  have hd : sineDerivation.yield = symbols sineTokens.tokens := rfl
  obtain ⟨hok, hroot, -⟩ := ofTokens_spec sineTokens hw
  obtain ⟨f, hf⟩ := hok.mpr ⟨⟨sineDerivation, hd⟩, by decide⟩
  obtain ⟨d, -, hf', hunique⟩ := hroot f hf
  have hsame := hunique sineDerivation hd
  subst hsame
  exact ⟨hw, f, hf, hf', hunique⟩

end Formula

end Fluxion

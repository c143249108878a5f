import Fluxion.Article.Basic
import Fluxion.Proofs.Expr.Legend
import Fluxion.Proofs.Number.Layout

/-!
# Fluxion.Proofs.Article.Marks

The structure of a LaTeX text: where it gives its title, and where its environments begin and end.

The marks of a text are listed in the order in which they stand in it.  A word could also come about
where two texts meet, so what is said of a text is what it does in front of another one.

* `count_begins`, `count_ends`, `count_title`: marks are counted by the words that make them;
* `still_of_calm`: a text without these words makes no mark in front of a character that is in none
  of them;
* `Expr.still_tex`: the text of an expression makes no mark if its names make none;
* `Numeral.notMem_plain`: the text of a number has no command in it.
-/

namespace Fluxion

/-- What a command says about the structure of a text. -/
inductive Landmark where
  | title
  | begins (environment : List Char)
  | ends (environment : List Char)
  deriving DecidableEq

namespace Landmark

/-- The beginning of a title. -/
def titleWord : List Char := "\\title\x7b".toList

/-- What stands in front of the name of an environment that begins. -/
def beginWord : List Char := "\\begin\x7b".toList

/-- What stands in front of the name of an environment that ends. -/
def endWord : List Char := "\\end\x7b".toList

/-- The words that make marks. -/
def words : List (List Char) := [titleWord, beginWord, endWord]

/-- The text in front of the next closing bracket, if there is one. -/
def argument : List Char → Option (List Char)
  | [] => none
  | c :: cs => if c = '\x7d' then some [] else (argument cs).map (c :: ·)

/-- The mark at the beginning of a text. -/
def at? (text : List Char) : Option Landmark :=
  if titleWord <+: text then some title
  else if beginWord <+: text then (argument (text.drop beginWord.length)).map begins
  else if endWord <+: text then (argument (text.drop endWord.length)).map ends
  else none

end Landmark

open Landmark

/-- The marks of a text in their order. -/
def marks : List Char → List Landmark
  | [] => []
  | c :: cs => (at? (c :: cs)).toList ++ marks cs

/-- In how many places a word occurs in a text. -/
def occurrences (word : List Char) : List Char → ℕ
  | [] => 0
  | c :: cs => (if word <+: c :: cs then 1 else 0) + occurrences word cs

variable {xs ys rest env : List Char} {ms ns : List Landmark} {c : Char}

/-! ## marks are occurrences of words -/

/-- The argument of a command ends at the first closing bracket. -/
theorem Landmark.argument_eq_some (henv : '\x7d' ∉ env) :
    argument xs = some env ↔ env ++ ['\x7d'] <+: xs := by
  induction xs generalizing env with
  | nil => simp [argument]
  | cons x xs ih =>
      cases env with
      | nil => simp [argument, eq_comm]
      | cons d env =>
          obtain ⟨hd, henv⟩ := not_or.mp (List.mem_cons.not.mp henv)
          by_cases hx : x = '\x7d'
          · rw [hx] at *
            simp [argument, Ne.symm hd]
          · simp only [argument, if_neg hx, Option.map_eq_some_iff, List.cons.injEq,
              List.cons_append, List.cons_prefix_cons, ← ih henv]
            constructor
            · rintro ⟨found, hfound, rfl, rfl⟩
              exact ⟨rfl, hfound⟩
            · rintro ⟨rfl, hfound⟩
              exact ⟨env, hfound, rfl, rfl⟩

/-- A word and what follows it. -/
theorem append_prefix_iff (word : List Char) :
    word ++ ys <+: xs ↔ word <+: xs ∧ ys <+: xs.drop word.length := by
  constructor
  · rintro ⟨rest, rfl⟩
    rw [List.append_assoc, List.drop_left]
    exact ⟨List.prefix_append _ _, List.prefix_append _ _⟩
  · rintro ⟨⟨rest, rfl⟩, hys⟩
    rw [List.drop_left] at hys
    exact (List.prefix_append_right_inj word).mpr hys

/-- The words differ in their second or third character, so a text begins with one of them at
most. -/
theorem not_prefix_of_take_ne {word other : List Char} (h : word <+: xs)
    (hne : word.take 3 ≠ other.take 3) (hword : 3 ≤ word.length) (hother : 3 ≤ other.length) :
    ¬ other <+: xs := by
  intro h'
  obtain ⟨rest, rfl⟩ := h
  obtain ⟨rest', heq⟩ := h'
  have htake := congrArg (List.take 3) heq
  rw [List.take_append_of_le_length hother, List.take_append_of_le_length hword] at htake
  exact hne htake.symm

/-- A title is found where its word begins. -/
theorem Landmark.at?_eq_title : at? xs = some title ↔ titleWord <+: xs := by
  unfold at?
  split_ifs with ht hb he
  · simp [ht]
  all_goals simp [ht]

/-- The beginning of an environment is found where its words begin. -/
theorem Landmark.at?_eq_begins (henv : '\x7d' ∉ env) :
    at? xs = some (begins env) ↔ beginWord ++ (env ++ ['\x7d']) <+: xs := by
  rw [append_prefix_iff, ← argument_eq_some henv]
  unfold at?
  split_ifs with ht hb he
  · have hb : ¬ beginWord <+: xs := not_prefix_of_take_ne ht (by decide) (by decide) (by decide)
    simp [hb]
  · simp [hb]
  all_goals simp [hb]

/-- The end of an environment is found where its words begin. -/
theorem Landmark.at?_eq_ends (henv : '\x7d' ∉ env) :
    at? xs = some (ends env) ↔ endWord ++ (env ++ ['\x7d']) <+: xs := by
  rw [append_prefix_iff, ← argument_eq_some henv]
  unfold at?
  split_ifs with ht hb he
  · have he : ¬ endWord <+: xs := not_prefix_of_take_ne ht (by decide) (by decide) (by decide)
    simp [he]
  · have he : ¬ endWord <+: xs := not_prefix_of_take_ne hb (by decide) (by decide) (by decide)
    simp [he]
  · simp [he]
  · simp [he]

/-- Marks are counted by a word if that is what makes them. -/
theorem count_marks {m : Landmark} {word : List Char} (h : ∀ {xs}, at? xs = some m ↔ word <+: xs)
    (text : List Char) : (marks text).count m = occurrences word text := by
  induction text with
  | nil => rfl
  | cons c cs ih =>
      rw [marks, List.count_append, ih, occurrences]
      congr 1
      cases hat : at? (c :: cs) with
      | none =>
          have hword : ¬ word <+: c :: cs := fun hp => by simp [h.mpr hp] at hat
          rw [if_neg hword]
          rfl
      | some found =>
          have hword : word <+: c :: cs ↔ found = m := by rw [← h, hat, Option.some_inj]
          simp [List.count_singleton, hword]

/-- Titles are counted by their word. -/
theorem count_title (text : List Char) : (marks text).count title = occurrences titleWord text :=
  count_marks at?_eq_title text

/-- Beginnings of an environment are counted by their words. -/
theorem count_begins (henv : '\x7d' ∉ env) (text : List Char) :
    (marks text).count (begins env) = occurrences (beginWord ++ (env ++ ['\x7d'])) text :=
  count_marks (at?_eq_begins henv) text

/-- Ends of an environment are counted by their words. -/
theorem count_ends (henv : '\x7d' ∉ env) (text : List Char) :
    (marks text).count (ends env) = occurrences (endWord ++ (env ++ ['\x7d'])) text :=
  count_marks (at?_eq_ends henv) text

/-! ## what a text does in front of another -/

/-- In front of any text, a text makes these marks. -/
def Marked (xs : List Char) (ms : List Landmark) : Prop :=
  ∀ rest, marks (xs ++ rest) = ms ++ marks rest

/-- Texts one after the other make their marks one after the other. -/
theorem Marked.append (hx : Marked xs ms) (hy : Marked ys ns) : Marked (xs ++ ys) (ms ++ ns) :=
  fun rest => by rw [List.append_assoc, hx, hy, List.append_assoc]

/-- A text by itself makes the marks that it makes in front of any other. -/
theorem Marked.marks_eq (h : Marked xs ms) : marks xs = ms := by
  have hall := h []
  rwa [List.append_nil, marks, List.append_nil] at hall

/-- The text begins with a character that is in none of the words. -/
def Apart (xs : List Char) : Prop := ∃ c cs, xs = c :: cs ∧ ∀ word ∈ words, c ∉ word

theorem Apart.append (h : Apart xs) (ys : List Char) : Apart (xs ++ ys) := by
  obtain ⟨c, cs, rfl, hc⟩ := h
  exact ⟨c, cs ++ ys, rfl, hc⟩

/-- The text makes no mark unless what follows helps to make it. -/
def Still (xs : List Char) : Prop := ∀ rest, Apart rest → marks (xs ++ rest) = marks rest

/-- A text without marks of its own makes none with what follows. -/
theorem Marked.still (h : Marked xs []) : Still xs := fun rest _ => h rest

/-- Behind a text without marks a still one stays still. -/
theorem Marked.append_still (hx : Marked xs []) (hy : Still ys) : Still (xs ++ ys) := by
  intro rest hrest
  rw [List.append_assoc, hx, hy rest hrest]
  rfl

/-- A still text adds no mark in front of one that begins apart from all words. -/
theorem Still.append_marked (hx : Still xs) (hy : Marked ys ms) (h : Apart ys) :
    Marked (xs ++ ys) ms := by
  intro rest
  rw [List.append_assoc, hx _ (h.append rest), hy]

/-- Still texts with a text between them that makes no mark. -/
theorem Still.join (hx : Still xs) {text : List Char} (htext : Marked text []) (h : Apart text)
    (hy : Still ys) : Still (xs ++ (text ++ ys)) := by
  intro rest hrest
  rw [List.append_assoc, hx _ ((h.append ys).append rest), htext.append_still hy rest hrest]

theorem marked_nil : Marked [] [] := fun _ => rfl

/-- Nothing is found where none of the words begins. -/
theorem Landmark.at?_eq_none (h : ∀ word ∈ words, ¬ word <+: xs) : at? xs = none := by
  rw [at?, if_neg (h titleWord (by decide)), if_neg (h beginWord (by decide)),
    if_neg (h endWord (by decide))]

/-- All words begin with a command. -/
theorem marked_of_notMem (h : '\\' ∉ xs) : Marked xs [] := by
  intro rest
  induction xs with
  | nil => rfl
  | cons c cs ih =>
      obtain ⟨hc, hcs⟩ := not_or.mp (List.mem_cons.not.mp h)
      have hnone : at? (c :: (cs ++ rest)) = none := by
        apply at?_eq_none
        intro word hword hprefix
        simp only [words, List.mem_cons, List.not_mem_nil, or_false] at hword
        rcases hword with rfl | rfl | rfl <;> exact hc (List.cons_prefix_cons.mp hprefix).1
      rw [List.cons_append, marks, hnone]
      exact ih hcs

/-- A word that ends before the next text ends in this one. -/
theorem prefix_of_prefix_append {word : List Char} (hc : c ∉ word) (h : word <+: xs ++ c :: rest) :
    word <+: xs := by
  have hx : xs ++ [c] <+: xs ++ c :: rest :=
    (List.prefix_append_right_inj xs).mpr ⟨rest, rfl⟩
  obtain hword | hword := List.prefix_or_prefix_of_prefix h hx
  · obtain rfl | hword := List.prefix_concat_iff.mp hword
    · exact absurd (List.mem_append_right xs (List.mem_singleton_self c)) hc
    · exact hword
  · exact absurd (hword.subset (List.mem_append_right xs (List.mem_singleton_self c))) hc

/-- None of the words occurs in the text. -/
def Calm (s : String) : Prop := ∀ word ∈ words, ¬ word <:+: s.toList

instance (s : String) : Decidable (Calm s) :=
  inferInstanceAs (Decidable (∀ word ∈ words, ¬ word <:+: s.toList))

/-- A text in which none of the words occurs is still. -/
theorem still_of_not_infix (h : ∀ word ∈ words, ¬ word <:+: xs) : Still xs := by
  rintro - ⟨c, cs, rfl, hc⟩
  induction xs with
  | nil => rfl
  | cons x xs ih =>
      have hnone : at? (x :: (xs ++ c :: cs)) = none := by
        apply at?_eq_none
        intro word hword hprefix
        exact h word hword (prefix_of_prefix_append (hc word hword) hprefix).isInfix
      rw [List.cons_append, marks, hnone]
      exact ih fun word hword hin => h word hword (hin.trans (List.suffix_cons x xs).isInfix)

theorem still_of_calm {s : String} (h : Calm s) : Still s.toList := still_of_not_infix h

/-- All words have a bracket in them, and names have none. -/
theorem calm_of_isName {α : Type} [Arith α] {x : String} (h : Lexer.IsName α x) : Calm x := by
  obtain ⟨hlexeme, -⟩ := h.lexeme
  obtain ⟨-, hlen, -⟩ := Lexer.lexeme?_eq_name.mp hlexeme
  have hbracket : ∀ word ∈ words, '\x7b' ∈ word := by decide
  intro word hword hin
  have hmem : '\x7b' ∈ x.toList := hin.subset (hbracket word hword)
  exact absurd (Lexer.isNameChar_of_nameLength hlen _ hmem) (by decide)

/-! ## texts of expressions -/

section

open Grammar Lexer Numeral Fluxion.Expr

/-- Opening brackets make no mark. -/
theorem marked_openText (b : Bracket) : Marked (openText b) [] := by
  cases b <;> exact fun _ => rfl

/-- Closing brackets make no mark. -/
theorem marked_closeText (b : Bracket) : Marked (closeText b) [] := by
  cases b <;> exact fun _ => rfl

/-- Closing brackets are in none of the words. -/
theorem apart_closeText (b : Bracket) : Apart (closeText b) := by
  cases b with
  | paren => exact ⟨' ', _, rfl, by decide⟩
  | curly => exact ⟨'\x7d', _, rfl, by decide⟩

/-- In brackets a still text makes no mark, whatever follows. -/
theorem Still.enclosed (h : Still xs) (b : Bracket) :
    Marked (openText b ++ (xs ++ closeText b)) [] :=
  (marked_openText b).append (h.append_marked (marked_closeText b) (apart_closeText b))

/-- In braces a still text makes no mark, whatever follows. -/
theorem Still.braced {s : String} (h : Still s.toList) : Marked (braced s).toList [] := by
  rw [toList_braced]
  exact h.enclosed .curly

variable {α : Type}

/-- Brackets keep a text still. -/
theorem Still.wrapped [Arith α] {s : String} (h : Still s.toList) (e : Expr α) (brackets : Bool) :
    Still (e.wrapped brackets s).toList := by
  rw [toList_wrapped]
  split
  · exact (h.enclosed .paren).still
  · exact h

variable [Numeral α]

/-- Numbers and names of an expression bring no mark into its text. -/
def Expr.Quiet (e : Expr α) : Prop :=
  (∀ v ∈ e.numbers, '\\' ∉ (plain v).toList) ∧ ∀ x ∈ e.names, Calm x

/-- An expression is quiet if its parts are. -/
theorem Expr.partwise_quiet : Partwise fun e : Expr α => e.Quiet :=
  (partwise_numbers _).and (partwise_names _)

/-- The command of a function makes no mark. -/
theorem marked_function (f : Fn) : Marked ("\\" ++ f.name ++ " ").toList [] := by
  cases f <;> exact fun _ => rfl

/-- The text of an expression makes no mark. -/
theorem Expr.still_tex [Arith α] {e : Expr α} (h : e.Quiet) : Still e.tex.toList := by
  induction e with
  | num v => exact (marked_of_notMem (h.1 v (List.mem_singleton_self v))).still
  | var x => exact still_of_calm (h.2 x (List.mem_singleton_self x))
  | bin op a b iha ihb =>
      obtain ⟨ha, hb⟩ := partwise_quiet.bin.mp h
      have ha := iha ha
      have hb := ihb hb
      cases op with
      | add =>
          rw [tex, String.toList_append, String.toList_append, List.append_assoc]
          exact ha.join (fun _ => rfl) ⟨' ', _, rfl, by decide⟩ hb
      | sub =>
          rw [tex, String.toList_append, String.toList_append, List.append_assoc]
          exact ha.join (fun _ => rfl) ⟨' ', _, rfl, by decide⟩ (hb.wrapped _ _)
      | mul =>
          rw [tex, String.toList_append, String.toList_append, List.append_assoc]
          exact (ha.wrapped _ _).join (fun _ => rfl) ⟨' ', _, rfl, by decide⟩ (hb.wrapped _ _)
      | div =>
          have hfrac : Marked "\\frac".toList [] := fun _ => rfl
          rw [tex, String.toList_append, String.toList_append]
          exact ((hfrac.append ha.braced).append hb.braced).still
      | pow =>
          rw [tex, String.toList_append, String.toList_append, List.append_assoc]
          exact (ha.wrapped _ _).join (fun _ => rfl) ⟨'^', _, rfl, by decide⟩ hb.braced.still
  | neg a ih =>
      have hsign : Marked "-".toList [] := fun _ => rfl
      rw [tex, String.toList_append]
      exact hsign.append_still ((ih (partwise_quiet.neg.mp h)).wrapped _ _)
  | app f a ih =>
      have ha := ih (partwise_quiet.app.mp h)
      by_cases hf : f = .sqrt
      · have hroot : Marked "\\sqrt".toList [] := fun _ => rfl
        rw [hf, tex, String.toList_append]
        exact (hroot.append ha.braced).still
      · rw [tex_app_of_ne hf, String.toList_append]
        exact (marked_function f).append_still (ha.wrapped _ _)

end

/-! ## texts of numbers -/

open Text in
theorem Written.WellFormed.notMem_chars {w : Written} (hw : w.WellFormed) : '\\' ∉ w.chars := by
  have hdigits {ds : List Char} (hds : AllDigits ds) : '\\' ∉ ds :=
    fun hmem => absurd (hds _ hmem) (by decide)
  rw [Written.chars, List.mem_append, List.mem_append]
  rintro (hmem | hmem | hmem)
  · exact hdigits hw.whole hmem
  · obtain hpoint | hmem := Written.mem_pointText hmem
    · exact absurd hpoint (by decide)
    · exact hdigits hw.fraction hmem
  · cases hexp : w.exponent with
    | none =>
        rw [hexp] at hmem
        exact absurd hmem List.not_mem_nil
    | some e =>
        obtain ⟨sign, ds, htext, hsign, hds, -⟩ := Written.exists_exponentText e
        rw [hexp, Written.powerText, htext, List.mem_cons, List.mem_cons] at hmem
        obtain hmark | rfl | hmem := hmem
        · exact absurd hmark (by decide)
        · exact absurd hsign (by decide)
        · exact hdigits hds hmem

/-- No layout writes a command. -/
theorem Layout.notMem_write (l : Layout) (v : Float) : '\\' ∉ (l.write v).toList := by
  have hsign : '\\' ∉ (if isSigned v then "-" else "").toList := by
    split <;> decide
  unfold Layout.write
  split
  · decide
  · cases Magnitude.ofFloat? v with
    | none =>
        rw [String.toList_append, List.mem_append]
        exact not_or.mpr ⟨hsign, by decide⟩
    | some m =>
        obtain ⟨w, hw, htext, -⟩ := exists_written l (l.digitsOf v.abs m)
        rw [String.toList_append, String.toList_ofList, htext, List.mem_append]
        exact not_or.mpr ⟨hsign, hw.notMem_chars⟩

/-- There is no command in the text of a number. -/
theorem Numeral.notMem_plain (v : Float) : '\\' ∉ (plain v).toList := by
  change '\\' ∉ (if twelve v == "-0" then "0" else twelve v).toList
  split
  · decide
  · exact Layout.notMem_write _ v

end Fluxion

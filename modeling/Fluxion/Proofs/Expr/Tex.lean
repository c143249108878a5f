import Fluxion.Proofs.Expr.Symbols
import Fluxion.Proofs.Token.Lexer

/-!
# Fluxion.Proofs.Expr.Tex

The text of an expression.

* `Expr.lexes_tex`: the text is cut into the symbols of the expression;
* `Expr.tex_regroup`: grouping sums and products to the left leaves the text as it is.
-/

namespace Fluxion

variable {α : Type}

namespace Numeral

variable [Arith α] [Numeral α]

/-- The number that the text of a number is read as. -/
def reread (v : α) : α :=
  let (mantissa, exponent) := Text.readNumber (plain v).toList
  Arith.ofDecimal mantissa exponent

/-- The text of a number is one numeral. -/
structure IsNumeral (v : α) : Prop where
  nonempty : (plain v).toList ≠ []
  whole : Text.numberLength (plain v).toList = (plain v).toList.length

instance (v : α) : Decidable (IsNumeral v) :=
  decidable_of_iff
    ((plain v).toList ≠ [] ∧ Text.numberLength (plain v).toList = (plain v).toList.length)
    ⟨fun ⟨hne, hlen⟩ => ⟨hne, hlen⟩, fun h => ⟨h.nonempty, h.whole⟩⟩

end Numeral

namespace Expr

open Grammar Lexer Numeral

/-! ## what an expression is made of -/

/-- The numbers in an expression. -/
def numbers : Expr α → List α
  | num v => [v]
  | var _ => []
  | bin _ a b => a.numbers ++ b.numbers
  | neg a | app _ a => a.numbers

/-- The names in an expression. -/
def names : Expr α → List String
  | num _ => []
  | var x => [x]
  | bin _ a b => a.names ++ b.names
  | neg a | app _ a => a.names

/-- An expression with other numbers. -/
def mapNumbers (f : α → α) : Expr α → Expr α
  | num v => num (f v)
  | var x => var x
  | bin op a b => bin op (a.mapNumbers f) (b.mapNumbers f)
  | neg a => neg (a.mapNumbers f)
  | app g a => app g (a.mapNumbers f)

@[simp] theorem isAdditive_mapNumbers (f : α → α) (e : Expr α) :
    (e.mapNumbers f).isAdditive = e.isAdditive := by
  cases e <;> rfl

@[simp] theorem isLoose_mapNumbers (f : α → α) (e : Expr α) :
    (e.mapNumbers f).isLoose = e.isLoose := by
  cases e <;> rfl

@[simp] theorem isLeaf_mapNumbers (f : α → α) (e : Expr α) :
    (e.mapNumbers f).isLeaf = e.isLeaf := by
  cases e <;> rfl

@[simp] theorem isVar_mapNumbers (f : α → α) (e : Expr α) :
    (e.mapNumbers f).isVar = e.isVar := by
  cases e <;> rfl

@[simp] theorem size_mapNumbers (f : α → α) (e : Expr α) : (e.mapNumbers f).size = e.size := by
  induction e with
  | num v => rfl
  | var x => rfl
  | bin op a b iha ihb => simp only [mapNumbers, size, iha, ihb]
  | neg a ih => simp only [mapNumbers, size, ih]
  | app g a ih => simp only [mapNumbers, size, ih]

@[simp] theorem names_mapNumbers (f : α → α) (e : Expr α) : (e.mapNumbers f).names = e.names := by
  induction e with
  | num v => rfl
  | var x => rfl
  | bin op a b iha ihb => simp only [mapNumbers, names, iha, ihb]
  | neg a ih => simp only [mapNumbers, names, ih]
  | app g a ih => simp only [mapNumbers, names, ih]

/-- An expression stays atomic if its numbers keep their sign. -/
theorem isAtomic_mapNumbers [Arith α] {f : α → α} {e : Expr α}
    (h : ∀ v ∈ e.numbers, Arith.negative (f v) = Arith.negative v) :
    (e.mapNumbers f).isAtomic = e.isAtomic := by
  cases e with
  | num v => rw [mapNumbers, isAtomic, h v (List.mem_singleton_self v), isAtomic]
  | var | bin | neg | app => rfl

/-! ## texts that spell symbols -/

/-- In front of a boundary, a text adds these symbols. -/
structure Spells [Arith α] (text : List Char) (l : List (Symbol α)) : Prop where
  starts : Starts text
  lexes {rest : List Char} {m : List (Symbol α)} (hr : Boundary rest) (h : Lexes rest m) :
    Lexes (text ++ rest) (l ++ m)

section

variable [Arith α] {s t text rest : List Char} {l m : List (Symbol α)} {sign : Symbol α}

/-- Brackets are not white space. -/
theorem starts_open (b : Bracket) (cs : List Char) : Starts (openText b ++ cs) := by
  cases b with
  | paren => exact ⟨'\\', _, rfl, by decide⟩
  | curly => exact ⟨'\x7b', _, rfl, by decide⟩

/-- Brackets keep a text apart from what follows, whatever that is. -/
theorem Spells.lexes_enclosed (hs : Spells s l) (b : Bracket) (h : Lexes rest m) :
    Lexes (openText b ++ (s ++ closeText b) ++ rest) (enclosed b l ++ m) := by
  rw [List.append_assoc, List.append_assoc, enclosed, List.cons_append, List.append_assoc]
  exact lexes_open b (hs.lexes (boundary_close b rest) (lexes_close b h))

/-- Brackets around a text spell brackets around its symbols. -/
theorem Spells.enclosed (hs : Spells s l) (b : Bracket) :
    Spells (openText b ++ (s ++ closeText b)) (Expr.enclosed b l) where
  starts := starts_open b _
  lexes _ h := hs.lexes_enclosed b h

/-- Two texts with a sign between them. -/
theorem Spells.join (hs : Spells s l) (hsign : Joins text sign) (ht : Spells t m) :
    Spells (s ++ (text ++ t)) (l ++ sign :: m) where
  starts := hs.starts.append _
  lexes {rest n} hr h := by
    rw [List.append_assoc, List.append_assoc, List.append_assoc]
    exact hs.lexes (hsign.boundary _) (hsign.lexes (ht.starts.append rest) (ht.lexes hr h))

/-- A minus in front of a text. -/
theorem Spells.neg (hs : Spells s l) : Spells ('-' :: s) (.minus :: l) where
  starts := ⟨'-', s, rfl, by decide⟩
  lexes hr h := lexes_minus (hs.lexes hr h)

/-- A fraction of two texts. -/
theorem Spells.fraction (hs : Spells s l) (ht : Spells t m) :
    Spells ("\\frac".toList ++ ((openText .curly ++ (s ++ closeText .curly)) ++
      (openText .curly ++ (t ++ closeText .curly))))
      (.fraction :: (Expr.enclosed .curly l ++ Expr.enclosed .curly m)) where
  starts := ⟨'\\', _, rfl, by decide⟩
  lexes {rest n} hr h := by
    rw [List.append_assoc, List.append_assoc (openText .curly ++ (s ++ closeText .curly)),
      List.cons_append, List.append_assoc (Expr.enclosed .curly l)]
    exact lexes_fraction (hs.lexes_enclosed .curly (ht.lexes_enclosed .curly h))

/-- A text to the power of another one. -/
theorem Spells.power (hs : Spells s l) (ht : Spells t m) :
    Spells (s ++ '^' :: (openText .curly ++ (t ++ closeText .curly)))
      (l ++ .caret :: Expr.enclosed .curly m) where
  starts := hs.starts.append _
  lexes {rest n} hr h := by
    rw [List.append_assoc, List.append_assoc]
    exact hs.lexes (.caret _) (lexes_caret (ht.lexes_enclosed .curly h))

/-- A function in front of its operand, with a space between. -/
theorem Spells.function (hs : Spells s l) (f : Fn) :
    Spells ('\\' :: (f.name.toList ++ ' ' :: s)) (.function f.name :: l) where
  starts := ⟨'\\', _, rfl, by decide⟩
  lexes {rest m} hr h := by
    rw [List.cons_append, List.append_assoc]
    exact lexes_function f (.inl rfl) ((hs.lexes hr h).afterBlank (hs.starts.append rest))

/-- A function whose operand stands in curly brackets. -/
theorem Spells.root (hs : Spells s l) (f : Fn) :
    Spells ('\\' :: (f.name.toList ++ (openText .curly ++ (s ++ closeText .curly))))
      (.function f.name :: Expr.enclosed .curly l) where
  starts := ⟨'\\', _, rfl, by decide⟩
  lexes {rest m} hr h := by
    rw [List.cons_append, List.append_assoc]
    exact lexes_function f (.inr rfl) (hs.lexes_enclosed .curly h)

end

/-! ## the text of an expression spells its symbols -/

/-- A numeral does not begin with white space. -/
theorem starts_of_isNumeral [Arith α] [Numeral α] {v : α} (h : IsNumeral v) :
    Starts (plain v).toList := by
  cases htext : (plain v).toList with
  | nil => exact absurd htext h.nonempty
  | cons c cs =>
      have hlen : Text.numberLength (c :: cs) ≠ 0 := by
        rw [← htext, h.whole, htext]
        exact Nat.succ_ne_zero _
      exact ⟨c, cs, rfl, isBlank_of_numberLength hlen⟩

theorem toList_braced (s : String) :
    (braced s).toList = openText .curly ++ (s.toList ++ closeText .curly) := by
  rw [braced, String.toList_append, String.toList_append, List.append_assoc]
  rfl

section

variable [Arith α] {a b e : Expr α}

/-- Sums, differences and products are not atomic. -/
theorem not_isAtomic_of_isLoose (h : e.isLoose = true) : e.isAtomic = false := by
  cases e with
  | bin | neg | app => rfl
  | num | var => exact nomatch h

/-- Sums and differences are not atomic. -/
theorem not_isAtomic_of_isAdditive (h : e.isAdditive = true) : e.isAtomic = false := by
  cases e with
  | bin | neg | app => rfl
  | num | var => exact nomatch h

/-- Brackets are set around what is not atomic, where they are asked for. -/
theorem toList_wrapped (e : Expr α) (brackets : Bool) (s : String) :
    (e.wrapped brackets s).toList =
      if brackets && !e.isAtomic then openText .paren ++ (s.toList ++ closeText .paren)
      else s.toList := by
  unfold wrapped
  split
  · rw [String.toList_append, String.toList_append, List.append_assoc]
    rfl
  · rfl

theorem wrapped_false (e : Expr α) (s : String) : e.wrapped false s = s := by
  rw [wrapped, Bool.false_and]
  rfl

/-- An operand's text has brackets only depending on what kind of expression the operand is. -/
theorem wrapped_congr (h : a.isAtomic = b.isAtomic) (brackets : Bool) (s : String) :
    a.wrapped brackets s = b.wrapped brackets s := by
  rw [wrapped, wrapped, h]

/-- A text spells its symbols with brackets or without, as they are shown. -/
theorem Spells.wrapped {s : String} {l : List (Symbol α)} (hs : Spells s.toList l)
    {brackets shown : Bool} (h : (brackets && !e.isAtomic) = shown) :
    Spells (e.wrapped brackets s).toList (enclosedIf shown l) := by
  rw [toList_wrapped, h]
  cases shown with
  | true => exact hs.enclosed .paren
  | false => exact hs

/-- Brackets that are only called for around what is no single unit are written. -/
theorem Spells.wrapped_self {s : String} {l : List (Symbol α)} (hs : Spells s.toList l)
    {brackets : Bool} (h : brackets = true → e.isAtomic = false) :
    Spells (e.wrapped brackets s).toList (enclosedIf brackets l) := by
  apply hs.wrapped
  cases brackets with
  | true => rw [h rfl, Bool.not_false, Bool.and_true]
  | false => rw [Bool.false_and]

end

section

variable [Arith α] [Numeral α]

/-- Numbers and names of an expression read back: numbers are not negative, and the text of each is
one numeral; each name is cut out of a text as it stands. -/
structure Legible (e : Expr α) : Prop where
  nonneg : ∀ v ∈ e.numbers, Arith.negative v = false
  numeral : ∀ v ∈ e.numbers, IsNumeral v
  name : ∀ x ∈ e.names, IsName α x

namespace Legible

variable {op : BinOp} {f : Fn} {a b e : Expr α}

/-- The left operand of what is legible is legible. -/
theorem left (h : (bin op a b).Legible) : a.Legible where
  nonneg v hv := h.nonneg v (List.mem_append_left _ hv)
  numeral v hv := h.numeral v (List.mem_append_left _ hv)
  name x hx := h.name x (List.mem_append_left _ hx)

/-- The right operand of what is legible is legible. -/
theorem right (h : (bin op a b).Legible) : b.Legible where
  nonneg v hv := h.nonneg v (List.mem_append_right _ hv)
  numeral v hv := h.numeral v (List.mem_append_right _ hv)
  name x hx := h.name x (List.mem_append_right _ hx)

/-- The operand of a legible negation is legible. -/
theorem neg (h : (Expr.neg a).Legible) : a.Legible := ⟨h.nonneg, h.numeral, h.name⟩

/-- The operand of a function that is legible is legible. -/
theorem app (h : (Expr.app f a).Legible) : a.Legible := ⟨h.nonneg, h.numeral, h.name⟩

/-- Numbers and variables, and nothing else, are single units. -/
theorem isAtomic_eq (h : e.Legible) : e.isAtomic = e.isLeaf := by
  cases e with
  | num v => rw [isAtomic, h.nonneg v (List.mem_singleton_self v), isLeaf, Bool.not_false]
  | var | bin | neg | app => rfl

end Legible

/-- Brackets around sums and differences. -/
theorem Spells.wrapped_sum {e : Expr α} {l : List (Symbol α)} (hs : Spells e.tex.toList l) :
    Spells (e.wrapped e.isAdditive e.tex).toList (enclosedIf e.isAdditive l) :=
  hs.wrapped_self not_isAtomic_of_isAdditive

/-- Brackets around sums, differences and products. -/
theorem Spells.wrapped_loose {e : Expr α} {l : List (Symbol α)} (hs : Spells e.tex.toList l) :
    Spells (e.wrapped e.isLoose e.tex).toList (enclosedIf e.isLoose l) :=
  hs.wrapped_self not_isAtomic_of_isLoose

/-- Brackets around the base of a power, unless it is a leaf. -/
theorem Spells.wrapped_base {e : Expr α} {l : List (Symbol α)} (h : e.Legible)
    (hs : Spells e.tex.toList l) :
    Spells (e.wrapped (!e.isVar) e.tex).toList (enclosedIf (!e.isLeaf) l) := by
  apply hs.wrapped
  rw [h.isAtomic_eq]
  cases e <;> rfl

/-- All functions but the root are written in one way. -/
theorem tex_app_of_ne {f : Fn} (hf : f ≠ .sqrt) (a : Expr α) :
    (app f a).tex = "\\" ++ f.name ++ " " ++ a.wrapped a.isLoose a.tex := by
  cases f with
  | sqrt => exact absurd rfl hf
  | sin | cos | tan | cot | arcsin | arccos | arctan | arccot | ln => rfl

/-- The text of a legible expression spells its symbols, with the numbers that it shows. -/
theorem spells_tex {e : Expr α} (h : e.Legible) :
    Spells e.tex.toList (e.mapNumbers reread).spelling := by
  induction e with
  | num v =>
      have hv : IsNumeral v := h.numeral v (List.mem_singleton_self v)
      exact ⟨starts_of_isNumeral hv, fun hr hrest => lexes_number hr hv.whole hv.nonempty hrest⟩
  | var x =>
      have hx : IsName α x := h.name x (List.mem_singleton_self x)
      exact ⟨hx.starts, fun hr hrest => lexes_isName hx hr hrest⟩
  | bin op a b iha ihb =>
      have ha := iha h.left
      have hb := ihb h.right
      cases op with
      | add =>
          rw [tex, String.toList_append, String.toList_append, List.append_assoc]
          exact ha.join .plus hb
      | sub =>
          rw [tex, String.toList_append, String.toList_append, List.append_assoc, mapNumbers,
            spelling, isAdditive_mapNumbers]
          exact ha.join .minus hb.wrapped_sum
      | mul =>
          rw [tex, String.toList_append, String.toList_append, List.append_assoc, mapNumbers,
            spelling, isAdditive_mapNumbers, isAdditive_mapNumbers]
          exact ha.wrapped_sum.join .dot hb.wrapped_sum
      | div =>
          rw [tex, String.toList_append, String.toList_append, toList_braced, toList_braced,
            List.append_assoc]
          exact ha.fraction hb
      | pow =>
          rw [tex, String.toList_append, String.toList_append, toList_braced, List.append_assoc,
            mapNumbers, spelling, isLeaf_mapNumbers]
          exact (ha.wrapped_base h.left).power hb
  | neg a ih =>
      rw [tex, String.toList_append, mapNumbers, spelling, isLoose_mapNumbers]
      exact (ih h.neg).wrapped_loose.neg
  | app f a ih =>
      have ha := ih h.app
      rw [mapNumbers, spelling, isLoose_mapNumbers]
      by_cases hf : f = .sqrt
      · rw [if_pos hf, hf, tex, String.toList_append, toList_braced]
        exact ha.root .sqrt
      · rw [if_neg hf, tex_app_of_ne hf]
        simp only [String.toList_append, List.append_assoc]
        exact ha.wrapped_loose.function f

/-- The text of an expression is cut into its symbols. -/
theorem lexes_tex {e : Expr α} (h : e.Legible) :
    Lexes e.tex.toList (e.mapNumbers reread).spelling := by
  have hall := (spells_tex h).lexes .stop lexes_nil
  rw [List.append_nil, List.append_nil] at hall
  exact hall

/-! ## expressions with the same text -/

/-- A sum that is regrouped to the left is written as before. -/
theorem tex_addLeft (left e : Expr α) : (addLeft left e).tex = left.tex ++ " + " ++ e.tex := by
  induction e with
  | bin op b c ihb ihc =>
      cases op with
      | add => rw [addLeft, tex, ihb, tex, String.append_assoc, String.append_assoc,
          String.append_assoc, String.append_assoc, String.append_assoc]
      | sub => rw [addLeft, tex, ihb, tex, String.append_assoc, String.append_assoc,
          String.append_assoc, String.append_assoc, String.append_assoc]
      | mul | div | pow => rfl
  | num | var | neg | app => rfl

/-- A product that is regrouped to the left is written as before. -/
theorem tex_mulLeft (left e : Expr α) :
    (mulLeft left e).tex =
      left.wrapped left.isAdditive left.tex ++ " \\cdot " ++ e.wrapped e.isAdditive e.tex := by
  induction e with
  | bin op b c ihb ihc =>
      cases op with
      | mul =>
          have hadd : (bin .mul b c).isAdditive = false := rfl
          rw [mulLeft, tex, isAdditive_mulLeft, wrapped_false, ihb, hadd, wrapped_false, tex]
          simp only [String.append_assoc]
      | add | sub | div | pow => rfl
  | num | var | neg | app => rfl

/-- Grouping sums and products to the left leaves the text as it is. -/
theorem tex_regroup (e : Expr α) : e.regroup.tex = e.tex := by
  induction e with
  | num v => rfl
  | var x => rfl
  | bin op a b iha ihb =>
      have ha := wrapped_congr (isAtomic_regroup a)
      have hb := wrapped_congr (isAtomic_regroup b)
      cases op with
      | add => rw [regroup, tex_addLeft, iha, ihb, tex]
      | sub => simp only [regroup, tex, isAdditive_regroup, iha, ihb, hb]
      | mul =>
          rw [regroup, tex_mulLeft, isAdditive_regroup, isAdditive_regroup, iha, ihb, ha, hb, tex]
      | div => simp only [regroup, tex, iha, ihb]
      | pow => simp only [regroup, tex, isVar_regroup, iha, ihb, ha]
  | neg a ih =>
      have ha := wrapped_congr (isAtomic_regroup a)
      simp only [regroup, tex, isLoose_regroup, ih, ha]
  | app f a ih =>
      have ha := wrapped_congr (isAtomic_regroup a)
      by_cases hf : f = .sqrt
      · rw [hf, regroup, tex, ih, tex]
      · rw [regroup, tex_app_of_ne hf, tex_app_of_ne hf, isLoose_regroup, ih, ha]

/-- Numbers of the same text and sign may stand for each other. -/
theorem tex_mapNumbers {f : α → α} {e : Expr α}
    (h : ∀ v ∈ e.numbers, plain (f v) = plain v ∧ Arith.negative (f v) = Arith.negative v) :
    (e.mapNumbers f).tex = e.tex := by
  induction e with
  | num v => exact (h v (List.mem_singleton_self v)).1
  | var x => rfl
  | bin op a b iha ihb =>
      have hna := fun v hv => h v (List.mem_append_left _ hv)
      have hnb := fun v hv => h v (List.mem_append_right _ hv)
      have ha := wrapped_congr (isAtomic_mapNumbers fun v hv => (hna v hv).2)
      have hb := wrapped_congr (isAtomic_mapNumbers fun v hv => (hnb v hv).2)
      cases op with
      | add => rw [mapNumbers, tex, iha hna, ihb hnb, tex]
      | sub => rw [mapNumbers, tex, isAdditive_mapNumbers, iha hna, ihb hnb, hb, tex]
      | mul =>
          rw [mapNumbers, tex, isAdditive_mapNumbers, isAdditive_mapNumbers, iha hna, ihb hnb, ha,
            hb, tex]
      | div => rw [mapNumbers, tex, iha hna, ihb hnb, tex]
      | pow => rw [mapNumbers, tex, isVar_mapNumbers, iha hna, ihb hnb, ha, tex]
  | neg a ih =>
      have ha := wrapped_congr (isAtomic_mapNumbers (e := a) fun v hv => (h v hv).2)
      rw [mapNumbers, tex, isLoose_mapNumbers, ih h, ha, tex]
  | app g a ih =>
      have ha := wrapped_congr (isAtomic_mapNumbers (e := a) fun v hv => (h v hv).2)
      by_cases hg : g = .sqrt
      · rw [hg, mapNumbers, tex, ih h, tex]
      · rw [mapNumbers, tex_app_of_ne hg, tex_app_of_ne hg, isLoose_mapNumbers, ih h, ha]

end

end Expr

end Fluxion

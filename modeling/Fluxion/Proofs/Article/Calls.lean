import Fluxion.Proofs.Article.Marks
import Fluxion.Proofs.Stateful

/-!
# Fluxion.Proofs.Article.Calls

What a call on an article writes, whether it fails or not.

Most calls add a block of text to a started article: environments in pairs, and nothing else that
makes a mark.

* `block_environment`, `block_formula`: texts that are blocks;
* `Article.step_perform`: what a single call can do.
-/

namespace Fluxion

/-! ## calls -/

/-- All phrases. -/
def Phrases.all (p : Phrases) : List String := p.starters ++ p.transitions ++ p.placeholders

/-- A choice is one of the phrases. -/
def Chooser.IsFair (chooser : Chooser) : Prop := ∀ n lines, lines ≠ [] → chooser n lines ∈ lines

namespace Article

/-- A call on an article. -/
inductive Call where
  | title (title author : String)
  | start
  | finish
  | abstract (text : String)
  | heading (title : String)
  | paragraph (text : String)
  | starter
  | transition
  | placeholder
  | formula (e : Expr Float) (lhs : String)
  | narratedFormula (e : Expr Float) (lhs : String)
  | image (file caption : String)

namespace Call

/-- The call as it is run. -/
def writing : Call → Writing Unit
  | title t u => Article.title t u
  | start => Article.start
  | finish => Article.finish
  | abstract t => Article.abstract t
  | heading t => Article.newSection t
  | paragraph t => Article.paragraph t
  | starter => Article.starter
  | transition => Article.transition
  | placeholder => Article.placeholder
  | formula e lhs => Article.formula e lhs
  | narratedFormula e lhs => Article.narratedFormula e lhs
  | image file caption => Article.image file caption

/-- The texts that a call is given, the names of an expression among them. -/
def texts : Call → List String
  | title t u => [t, u]
  | start | finish | starter | transition | placeholder => []
  | abstract t | heading t | paragraph t => [t]
  | formula e lhs | narratedFormula e lhs => lhs :: e.names
  | image file caption => [file, caption]

/-- None of the texts that a call is given makes a mark. -/
def Calm (c : Call) : Prop := ∀ s ∈ c.texts, Fluxion.Calm s

end Call

/-- An article after a call, which may fail. -/
def perform (a : Article) (c : Call) : Article := (exec c.writing a).2

/-- An article after calls, of which each may fail. -/
def after (a : Article) (calls : List Call) : Article := calls.foldl perform a

/-- Calls one after the other. -/
theorem after_append (a : Article) (calls more : List Call) :
    a.after (calls ++ more) = (a.after calls).after more := List.foldl_append

/-- The last call is performed on what the others leave. -/
theorem after_concat (a : Article) (calls : List Call) (c : Call) :
    a.after (calls ++ [c]) = (a.after calls).perform c := by
  rw [after_append]
  rfl

/-! ## blocks of text -/

/-- The environments inside a document. -/
def environments : List String := ["abstract", "equation", "itemize", "figure"]

/-- Environments open and close in pairs, one inside or after the other. -/
inductive Nested : List Landmark → Prop
  | nil : Nested []
  | pair {env : String} {inner rest : List Landmark} : env ∈ environments → Nested inner →
      Nested rest → Nested (.begins env.toList :: (inner ++ .ends env.toList :: rest))

/-- Nested marks one after the other are nested. -/
theorem Nested.append {ms ns : List Landmark} (hm : Nested ms) (hn : Nested ns) :
    Nested (ms ++ ns) := by
  induction hm with
  | nil => exact hn
  | pair henv hinner hrest _ ih =>
      rw [List.cons_append, List.append_assoc, List.cons_append]
      exact .pair henv hinner ih

/-- The text writes environments in pairs, in front of any other. -/
def Block (s : String) : Prop := ∃ ms, Marked s.toList ms ∧ Nested ms

/-- The text ends with the end of a line. -/
def EndsLine (s : String) : Prop := ∃ u, s = u ++ "\n"

section Blocks

variable {s t text : String} {ms ns : List Landmark}

/-- What is written before the end of a line does not matter to it. -/
theorem EndsLine.append (h : EndsLine t) (s : String) : EndsLine (s ++ t) := by
  obtain ⟨u, rfl⟩ := h
  exact ⟨s ++ u, String.append_assoc.symm⟩

/-- Blocks one after the other are a block. -/
theorem Block.append (hs : Block s) (ht : Block t) : Block (s ++ t) := by
  obtain ⟨ms, hms, hnms⟩ := hs
  obtain ⟨ns, hns, hnns⟩ := ht
  rw [Block, String.toList_append]
  exact ⟨ms ++ ns, hms.append hns, hnms.append hnns⟩

/-- Texts one after the other make their marks one after the other. -/
theorem marked_append (hs : Marked s.toList ms) (ht : Marked t.toList ns) :
    Marked (s ++ t).toList (ms ++ ns) := by
  rw [String.toList_append]
  exact hs.append ht

/-- A text in front of one that keeps it apart. -/
theorem marked_before (hs : Still s.toList) (ht : Marked t.toList ms) (h : Apart t.toList) :
    Marked (s ++ t).toList ms := by
  rw [String.toList_append]
  exact hs.append_marked ht h

theorem block_of_marked (h : Marked s.toList []) : Block s := ⟨[], h, .nil⟩

/-- A line of text. -/
theorem marked_line (h : Still s.toList) : Marked (s ++ "\n").toList [] :=
  marked_before h (fun _ => rfl) ⟨'\n', _, rfl, by decide⟩

/-- The argument of a command. -/
theorem marked_braced (h : Still s.toList) : Marked (braced s).toList [] := h.braced

/-- A block that is an environment. -/
theorem block_environment {name : String} (hname : name ∈ environments)
    (h : Marked text.toList []) : Block (beginning name ++ text ++ (ending name ++ "\n")) := by
  have hmarked : Marked (beginning name).toList [.begins name.toList] ∧
      Marked (ending name ++ "\n").toList [.ends name.toList] := by
    simp only [environments, List.mem_cons, List.not_mem_nil, or_false] at hname
    rcases hname with rfl | rfl | rfl | rfl <;> exact ⟨fun _ => rfl, fun _ => rfl⟩
  exact ⟨_, marked_append (marked_append hmarked.1 h) hmarked.2, .pair hname .nil .nil⟩

end Blocks

/-! ## what calls write -/

section Texts

variable {text lhs rhs file caption : String}

/-- The text of a title. -/
def titleText (title author : String) : String :=
  "\\title" ++ braced title ++ "\n\\author" ++ braced author ++ "\n"

/-- The text of a title makes its mark. -/
theorem marked_titleText {title author : String} (ht : Calm title) (hu : Calm author) :
    Marked (titleText title author).toList [.title] := by
  have hopen : Marked ("\\title" ++ "\x7b").toList [.title] := fun _ => rfl
  have htitle : Marked (title ++ "\x7d").toList [] :=
    marked_before (still_of_calm ht) (fun _ => rfl) ⟨'\x7d', _, rfl, by decide⟩
  have hauthor : Marked "\n\\author".toList [] := fun _ => rfl
  have hline : Marked "\n".toList [] := fun _ => rfl
  have hall := marked_append (marked_append (marked_append (marked_append hopen htitle) hauthor)
    (marked_braced (still_of_calm hu))) hline
  simpa only [titleText, Article.braced, Expr.braced, String.append_assoc, List.append_nil]
    using hall

/-- An abstract is a block. -/
theorem block_abstract (h : Calm text) :
    Block (beginning "abstract" ++ "\n" ++ text ++ "\n" ++ ending "abstract" ++ "\n") := by
  have hstart : Marked "\n".toList [] := fun _ => rfl
  have habstract : "abstract" ∈ environments := by decide
  have hall := block_environment habstract
    (marked_append hstart (marked_line (still_of_calm h)))
  simpa only [String.append_assoc] using hall

/-- The heading of a section is a block. -/
theorem block_heading (h : Calm text) :
    Block ("\\newpage\n\\section" ++ braced text ++ "\n") := by
  have hstart : Marked "\\newpage\n\\section".toList [] := fun _ => rfl
  have hline : Marked "\n".toList [] := fun _ => rfl
  exact block_of_marked (marked_append
    (marked_append hstart (marked_braced (still_of_calm h))) hline)

/-- Both sides of an equation are still. -/
theorem still_equation (hlhs : Calm lhs) (hrhs : Still rhs.toList) :
    Still ((if lhs.isEmpty then "" else lhs ++ " = ") ++ rhs).toList := by
  rw [String.toList_append]
  apply Marked.append_still _ hrhs
  split
  · exact marked_nil
  · exact marked_before (still_of_calm hlhs) (fun _ => rfl) ⟨' ', _, rfl, by decide⟩

/-- An equation is a block. -/
theorem block_equation (hlhs : Calm lhs) (hrhs : Still rhs.toList) : Block (equation lhs rhs) := by
  have hstart : Marked "\n".toList [] := fun _ => rfl
  have hequation : "equation" ∈ environments := by decide
  have hall := block_environment hequation
    (marked_append hstart (marked_line (still_equation hlhs hrhs)))
  simpa only [equation, String.append_assoc] using hall

/-- The definition of a label makes no mark. -/
theorem marked_definition {label tex : String} (hlabel : Still label.toList)
    (htex : Still tex.toList) :
    Marked ("\\item $" ++ label ++ " = " ++ tex ++ "$\n").toList [] := by
  have hitem : Marked "\\item $".toList [] := fun _ => rfl
  have hlabel : Marked (label ++ " = ").toList [] :=
    marked_before hlabel (fun _ => rfl) ⟨' ', _, rfl, by decide⟩
  have htex : Marked (tex ++ "$\n").toList [] :=
    marked_before htex (fun _ => rfl) ⟨'$', _, rfl, by decide⟩
  have hall := marked_append (marked_append hitem hlabel) htex
  simpa only [String.append_assoc, List.append_nil] using hall

/-- Lines that make no mark make none together. -/
theorem marked_join {lines : List String} (h : ∀ s ∈ lines, Marked s.toList []) :
    Marked (String.join lines).toList [] := by
  induction lines with
  | nil => exact marked_nil
  | cons s lines ih =>
      rw [String.join_cons]
      exact marked_append (h s List.mem_cons_self) (ih fun t ht => h t (List.mem_cons_of_mem s ht))

/-- No label makes a mark. -/
theorem calm_of_mem_labels {label : String} (h : label ∈ labels) : Calm label := by
  have hall : ∀ x ∈ labels, Calm x := by decide
  exact hall label h

/-- Items under a line that announces them. -/
theorem block_items {items : String} (h : Marked items.toList []) :
    Block ("Where:\n" ++ beginning "itemize" ++ "\n" ++ items ++ ending "itemize" ++ "\n") := by
  have hhead : Marked "Where:\n".toList [] := fun _ => rfl
  have hstart : Marked "\n".toList [] := fun _ => rfl
  have hitemize : "itemize" ∈ environments := by decide
  have hall := (block_of_marked hhead).append
    (block_environment hitemize (marked_append hstart h))
  simpa only [String.append_assoc] using hall

/-- The list of definitions is a block. -/
theorem block_whereList {definitions : List (String × String)}
    (h : ∀ d ∈ definitions, Still d.1.toList ∧ Still d.2.toList) :
    Block (whereList definitions) := by
  unfold whereList
  split
  · exact block_of_marked marked_nil
  · apply block_items
    apply marked_join
    intro s hs
    obtain ⟨d, hd, rfl⟩ := List.mem_map.mp hs
    exact marked_definition (h d hd).1 (h d hd).2

/-- A formula in parts. -/
theorem block_formula {e : Expr Float} {o : Outline Float} (h : e.outline = .ok o)
    (hlhs : Calm lhs) (hnames : ∀ x ∈ e.names, Calm x) :
    Block (equation lhs o.root.tex ++ whereList o.definitions) := by
  have hlabels : ∀ x ∈ labels, Expr.Quiet (.var x : Expr Float) := fun x hx =>
    ⟨fun v hv => absurd hv List.not_mem_nil, fun y hy => by
      rw [List.mem_singleton.mp hy]
      exact calm_of_mem_labels hx⟩
  have hquiet : e.Quiet := ⟨fun v _ => Numeral.notMem_plain v, hnames⟩
  obtain ⟨hroot, hparts⟩ := Expr.partwise_quiet.outline hlabels hquiet h
  apply (block_equation hlhs (Expr.still_tex hroot)).append
  apply block_whereList
  intro d hd
  obtain ⟨definition, hmem, rfl⟩ := List.mem_map.mp hd
  have hlabel : definition.1 ∈ labels := Expr.label_mem_of_outline h hmem
  exact ⟨still_of_calm (calm_of_mem_labels hlabel), Expr.still_tex (hparts _ hmem)⟩

/-- A formula ends its line. -/
theorem endsLine_formula (lhs : String) (o : Outline Float) :
    EndsLine (equation lhs o.root.tex ++ whereList o.definitions) := by
  unfold whereList
  split
  · rw [String.append_empty]
    exact ⟨_, rfl⟩
  · exact EndsLine.append ⟨_, rfl⟩ _

/-- An image is a block. -/
theorem block_image (hfile : Calm file) (hcaption : Calm caption) :
    Block (beginning "figure" ++ "[h]\n\\centering\n\\includegraphics[width=0.8\\textwidth]"
      ++ braced file ++ "\n"
      ++ (if caption.isEmpty then "" else "\\caption" ++ braced caption ++ "\n")
      ++ ending "figure" ++ "\n") := by
  have hline : Marked "\n".toList [] := fun _ => rfl
  have hstart : Marked "[h]\n\\centering\n\\includegraphics[width=0.8\\textwidth]".toList [] :=
    fun _ => rfl
  have hbelow : Marked
      (if caption.isEmpty then "" else "\\caption" ++ braced caption ++ "\n").toList [] := by
    split
    · exact marked_nil
    · have hcommand : Marked "\\caption".toList [] := fun _ => rfl
      exact marked_append
        (marked_append hcommand (marked_braced (still_of_calm hcaption))) hline
  have hfigure : "figure" ∈ environments := by decide
  have hall := block_environment hfigure (marked_append (marked_append
    (marked_append hstart (marked_braced (still_of_calm hfile))) hline) hbelow)
  simpa only [String.append_assoc] using hall

end Texts

/-! ## what a call does -/

/-- The choice is fair, and no phrase makes a mark. -/
structure Fit (a : Article) : Prop where
  chooser : a.chooser.IsFair
  phrases : ∀ s ∈ a.phrases.all, Calm s

/-- An article with more text, at the same stage. -/
structure Adds (a : Article) (s : String) (a' : Article) : Prop where
  eq : a' = { a with chosen := a'.chosen, text := a.text ++ s }

section Running

variable {a a' a'' : Article} {s t : String} {c : Call}

namespace Adds

theorem text_eq (h : Adds a s a') : a'.text = a.text ++ s := by rw [h.eq]

theorem stage_eq (h : Adds a s a') : a'.stage = a.stage := by rw [h.eq]

/-- What is written leaves the article fit. -/
theorem fit (h : Adds a s a') (hfit : a.Fit) : a'.Fit := by
  rw [h.eq]
  exact ⟨hfit.chooser, hfit.phrases⟩

/-- What is written first stands first. -/
theorem trans (h : Adds a s a') (h' : Adds a' t a'') : Adds a (s ++ t) a'' := by
  constructor
  rw [h'.eq, h.eq]
  simp only [String.append_assoc]

end Adds

/-- A call out of its stage is refused, and nothing changes. -/
theorem exec_require (stages : List Stage) (a : Article) :
    exec (require stages) a =
      if a.stage ∈ stages then (.ok ⟨⟩, a) else (.error (.wrongStage a.stage), a) := by
  rw [require, exec_bind_of_ok exec_get]
  by_cases h : a.stage ∈ stages
  · rw [if_pos h, List.contains_eq_mem, decide_eq_true h]
    rfl
  · rw [if_neg h, List.contains_eq_mem, decide_eq_false h]
    rfl

/-- A call that is made at its stage. -/
theorem exec_require_bind {stages : List Stage} (h : a.stage ∈ stages) {γ : Type}
    (f : Unit → Writing γ) : exec (require stages >>= f) a = exec (f ⟨⟩) a :=
  exec_bind_of_ok (by rw [exec_require, if_pos h]) f

/-- A call that is made at another stage than its own does nothing. -/
theorem exec_require_bind_of_notMem {stages : List Stage} (h : a.stage ∉ stages) {γ : Type}
    (f : Unit → Writing γ) :
    exec (require stages >>= f) a = (.error (.wrongStage a.stage), a) :=
  exec_bind_of_error (by rw [exec_require, if_neg h]) f

theorem exec_append (s : String) (a : Article) :
    exec (append s) a = (.ok ⟨⟩, { a with text := a.text ++ s }) := rfl

/-- Choosing gives a phrase or the default, and is counted. -/
theorem exec_choose (lines : List String) (default : String) (a : Article) :
    ∃ s n, exec (choose lines default) a = (.ok s, { a with chosen := n }) ∧
      (a.chooser.IsFair → s = default ∨ s ∈ lines) := by
  rw [choose]
  by_cases h : lines.isEmpty
  · rw [if_pos h]
    exact ⟨default, a.chosen, rfl, fun _ => .inl rfl⟩
  · rw [if_neg h]
    exact ⟨a.chooser a.chosen lines, a.chosen + 1, rfl,
      fun hfair => .inr (hfair _ _ (mt List.isEmpty_iff.mpr h))⟩

/-- The call adds a text of one kind, and that is all. -/
def Writes (call : Writing Unit) (a : Article) (P : String → Prop) : Prop :=
  ∃ s a', exec call a = (.ok ⟨⟩, a') ∧ Adds a s a' ∧ P s

/-- Less may be said of what is written. -/
theorem Writes.mono {call : Writing Unit} {P Q : String → Prop} (h : Writes call a P)
    (hPQ : ∀ s, P s → Q s) : Writes call a Q := by
  obtain ⟨s, a', hexec, hadds, hs⟩ := h
  exact ⟨s, a', hexec, hadds, hPQ s hs⟩

/-- A phrase makes no mark. -/
theorem still_phrase {lines : Phrases → List String} {default t : String} (hfit : a.Fit)
    (hdefault : Calm default) (hlines : lines a.phrases ⊆ a.phrases.all)
    (ht : a.chooser.IsFair → t = default ∨ t ∈ lines a.phrases) : Still t.toList := by
  obtain rfl | ht := ht hfit.chooser
  · exact still_of_calm hdefault
  · exact still_of_calm (hfit.phrases t (hlines ht))

section Started

variable (h : a.stage = .started)
include h

/-- In a started article a text is written as it is. -/
theorem writes_append (s : String) :
    Writes (do require [.started]; append s) a (· = s) := by
  refine ⟨s, { a with text := a.text ++ s }, ?_, ⟨rfl⟩, rfl⟩
  rw [exec_require_bind (by simp [h]), exec_append]

/-- A phrase in its frame. -/
theorem writes_phrase (lines : Phrases → List String) (default : String)
    (frame : String → String) :
    Writes (do require [.started]; append (frame (← choose (lines (← get).phrases) default))) a
      fun s => ∃ t, s = frame t ∧ (a.chooser.IsFair → t = default ∨ t ∈ lines a.phrases) := by
  obtain ⟨t, n, hchoose, ht⟩ := exec_choose (lines a.phrases) default a
  refine ⟨frame t, { a with chosen := n, text := a.text ++ frame t }, ?_, ⟨rfl⟩, t, rfl, ht⟩
  rw [exec_require_bind (by simp [h]), exec_bind_of_ok exec_get, exec_bind_of_ok hchoose,
    exec_append]

/-- A starter is a block that ends its line. -/
theorem writes_starter : Writes starter a fun s => (a.Fit → Block s) ∧ EndsLine s := by
  apply (writes_phrase h (·.starters) defaultStarter fun t => "\n" ++ t ++ "\n").mono
  rintro - ⟨t, rfl, ht⟩
  refine ⟨fun hfit => ?_, "\n" ++ t, rfl⟩
  rw [String.append_assoc]
  have hline : Marked "\n".toList [] := fun _ => rfl
  have hstill := still_phrase hfit (by decide) (by simp [Phrases.all]) ht
  exact (block_of_marked hline).append (block_of_marked (marked_line hstill))

/-- A transition is a block. -/
theorem writes_transition : Writes transition a fun s => a.Fit → Block s := by
  apply (writes_phrase h (·.transitions) defaultTransition fun t => t ++ " ").mono
  rintro - ⟨t, rfl, ht⟩ hfit
  have hstill := still_phrase hfit (by decide) (by simp [Phrases.all]) ht
  exact block_of_marked (marked_before hstill (fun _ => rfl) ⟨' ', _, rfl, by decide⟩)

/-- A placeholder is a block that ends its line. -/
theorem writes_placeholder : Writes placeholder a fun s => (a.Fit → Block s) ∧ EndsLine s := by
  apply (writes_phrase h (·.placeholders) defaultPlaceholder fun t => t ++ "\n\n").mono
  rintro - ⟨t, rfl, ht⟩
  refine ⟨fun hfit => ?_, t ++ "\n", ?_⟩
  · have hstill := still_phrase hfit (by decide) (by simp [Phrases.all]) ht
    exact block_of_marked (marked_before hstill (fun _ => rfl) ⟨'\n', _, rfl, by decide⟩)
  · rw [String.append_assoc]
    rfl

/-- A formula is written as a whole, or the call fails and writes nothing. -/
theorem writes_formula (e : Expr Float) (lhs : String) :
    (∃ err, exec (formula e lhs) a = (.error err, a)) ∨
      Writes (formula e lhs) a fun s =>
        ((∀ t ∈ lhs :: e.names, Calm t) → Block s) ∧ EndsLine s := by
  cases ho : e.outline with
  | error err =>
      left
      refine ⟨.labels err, ?_⟩
      rw [formula, exec_require_bind (by simp [h]), ho]
      rfl
  | ok o =>
      right
      have hformula : formula e lhs =
          (do require [.started]; append (equation lhs o.root.tex ++ whereList o.definitions)) := by
        rw [formula, ho]
      rw [hformula]
      apply (writes_append h _).mono
      rintro - rfl
      refine ⟨fun hcalm => ?_, endsLine_formula lhs o⟩
      exact block_formula ho (hcalm lhs List.mem_cons_self)
        fun x hx => hcalm x (List.mem_cons_of_mem lhs hx)

/-- A narrated formula is written as a whole, or the phrase that leads to it stays. -/
theorem writes_narratedFormula (e : Expr Float) (lhs : String) :
    ∃ r s a', exec (narratedFormula e lhs) a = (r, a') ∧ Adds a s a' ∧
      (a.Fit → (∀ t ∈ lhs :: e.names, Calm t) → Block s) ∧ EndsLine s := by
  obtain ⟨s₁, a₁, hstarter, hadds₁, hblock₁, hline₁⟩ := writes_starter h
  have h₁ : a₁.stage = .started := hadds₁.stage_eq.trans h
  rw [narratedFormula, exec_bind_of_ok hstarter]
  obtain ⟨err, hformula⟩ | ⟨s₂, a₂, hformula, hadds₂, hblock₂, -⟩ := writes_formula h₁ e lhs
  · rw [exec_bind_of_error hformula]
    exact ⟨_, s₁, a₁, rfl, hadds₁, fun hfit _ => hblock₁ hfit, hline₁⟩
  · have h₂ : a₂.stage = .started := hadds₂.stage_eq.trans h₁
    obtain ⟨s₃, a₃, htransition, hadds₃, hblock₃⟩ := writes_transition h₂
    have h₃ : a₃.stage = .started := hadds₃.stage_eq.trans h₂
    obtain ⟨s₄, a₄, hplaceholder, hadds₄, hblock₄, hline₄⟩ := writes_placeholder h₃
    rw [exec_bind_of_ok hformula, exec_bind_of_ok htransition, hplaceholder]
    refine ⟨_, _, a₄, rfl, ((hadds₁.trans hadds₂).trans hadds₃).trans hadds₄, ?_, hline₄.append _⟩
    intro hfit hcalm
    have hfit₁ := hadds₁.fit hfit
    have hfit₂ := hadds₂.fit hfit₁
    exact (((hblock₁ hfit).append (hblock₂ hcalm)).append (hblock₃ hfit₂)).append
      (hblock₄ (hadds₃.fit hfit₂))

end Started

/-- What a call can do: nothing, one of the three steps of the frame, or adding a block of text to a
started article.  Only a transition leaves its line open. -/
inductive Step (a : Article) : Call → Article → Prop
  | idle (c : Call) : Step a c a
  | title (t u : String) : a.stage = .new →
      Step a (.title t u) { a with text := a.text ++ titleText t u, stage := .titled }
  | start : a.stage = .new ∨ a.stage = .titled →
      Step a .start
        { a with text := a.text ++ (beginning "document" ++ "\n\\maketitle\n"), stage := .started }
  | finish : a.stage = .started →
      Step a .finish { a with text := a.text ++ (ending "document" ++ "\n"), stage := .ended }
  | adds {c : Call} {s : String} {a' : Article} : a.stage = .started → Adds a s a' →
      (a.Fit → c.Calm → Block s) → c = .transition ∨ EndsLine s → Step a c a'

/-- A call whose stage has not come, or is over, does nothing. -/
theorem step_of_not_started {f : Unit → Writing Unit} (hc : c.writing = require [.started] >>= f)
    (h : a.stage ≠ .started) : Step a c (a.perform c) := by
  rw [perform, hc, exec_require_bind_of_notMem (by simpa using h)]
  exact .idle c

/-- What a call writes in a started article is a step. -/
theorem Writes.step (hs : a.stage = .started) (h : Writes c.writing a fun s =>
    (a.Fit → c.Calm → Block s) ∧ (c = .transition ∨ EndsLine s)) : Step a c (a.perform c) := by
  obtain ⟨s, a', hexec, hadds, hblock, hline⟩ := h
  rw [perform, hexec]
  exact .adds hs hadds hblock hline

/-- A call that only adds a text, at its stage. -/
theorem step_append {s : String} (hc : c.writing = do require [.started]; append s)
    (hblock : c.Calm → Block s) (hline : EndsLine s) : Step a c (a.perform c) := by
  by_cases h : a.stage = .started
  · apply Writes.step h
    rw [hc]
    apply (writes_append h s).mono
    rintro t rfl
    exact ⟨fun _ => hblock, .inr hline⟩
  · exact step_of_not_started hc h

/-- **What a call does.**  A call on an article takes one of the steps, whether it fails or not. -/
theorem step_perform (a : Article) (c : Call) : Step a c (a.perform c) := by
  cases c with
  | title t u =>
      by_cases h : a.stage = .new
      · have hexec : a.perform (.title t u) =
            { a with text := a.text ++ titleText t u, stage := .titled } := by
          rw [perform, Call.writing, Article.title, exec_require_bind (by simp [h])]
          rfl
        rw [hexec]
        exact .title t u h
      · rw [perform, Call.writing, Article.title, exec_require_bind_of_notMem (by simpa using h)]
        exact .idle _
  | start =>
      by_cases h : a.stage = .new ∨ a.stage = .titled
      · have hexec : a.perform .start = { a with
            text := a.text ++ (beginning "document" ++ "\n\\maketitle\n"), stage := .started } := by
          rw [perform, Call.writing, Article.start, exec_require_bind (by simpa using h)]
          rfl
        rw [hexec]
        exact .start h
      · rw [perform, Call.writing, Article.start, exec_require_bind_of_notMem (by simpa using h)]
        exact .idle _
  | finish =>
      by_cases h : a.stage = .started
      · have hexec : a.perform .finish =
            { a with text := a.text ++ (ending "document" ++ "\n"), stage := .ended } := by
          rw [perform, Call.writing, Article.finish, exec_require_bind (by simp [h])]
          rfl
        rw [hexec]
        exact .finish h
      · exact step_of_not_started rfl h
  | abstract t =>
      exact step_append rfl (fun hcalm => block_abstract (hcalm t List.mem_cons_self)) ⟨_, rfl⟩
  | heading t =>
      exact step_append rfl (fun hcalm => block_heading (hcalm t List.mem_cons_self)) ⟨_, rfl⟩
  | paragraph t =>
      apply step_append rfl _ ⟨_, rfl⟩
      exact fun hcalm => block_of_marked (marked_line (still_of_calm (hcalm t List.mem_cons_self)))
  | starter =>
      by_cases h : a.stage = .started
      · exact ((writes_starter h).mono fun s hs => ⟨fun hfit _ => hs.1 hfit, .inr hs.2⟩).step h
      · exact step_of_not_started rfl h
  | transition =>
      by_cases h : a.stage = .started
      · exact ((writes_transition h).mono fun s hs => ⟨fun hfit _ => hs hfit, .inl rfl⟩).step h
      · exact step_of_not_started rfl h
  | placeholder =>
      by_cases h : a.stage = .started
      · exact ((writes_placeholder h).mono fun s hs => ⟨fun hfit _ => hs.1 hfit, .inr hs.2⟩).step h
      · exact step_of_not_started rfl h
  | formula e lhs =>
      by_cases h : a.stage = .started
      · obtain ⟨err, hexec⟩ | hwrites := writes_formula h e lhs
        · rw [perform, Call.writing, hexec]
          exact .idle _
        · exact (hwrites.mono fun s hs => ⟨fun _ hcalm => hs.1 hcalm, .inr hs.2⟩).step h
      · exact step_of_not_started rfl h
  | narratedFormula e lhs =>
      by_cases h : a.stage = .started
      · obtain ⟨r, s, a', hexec, hadds, hblock, hline⟩ := writes_narratedFormula h e lhs
        rw [perform, Call.writing, hexec]
        exact .adds h hadds hblock (.inr hline)
      · have hstarter : exec starter a = (.error (.wrongStage a.stage), a) :=
          exec_require_bind_of_notMem (by simpa using h) _
        rw [perform, Call.writing, Article.narratedFormula, exec_bind_of_error hstarter]
        exact .idle _
  | image file caption =>
      apply step_append rfl _ ⟨_, rfl⟩
      exact fun hcalm => block_image (hcalm file List.mem_cons_self)
        (hcalm caption (List.mem_cons_of_mem _ List.mem_cons_self))

end Running

end Article

end Fluxion

import Fluxion.Proofs.Article.Calls
import Fluxion.Proofs.Formula.Labels

/-!
# Fluxion.Proofs.Article.Course

The course of an article, call by call.

Text is only added, so the marks of an article grow at their end, and the stage tells which there
are: `Course` relates the two.  A call keeps the relation whatever it does (`Step.proper`), and so
does any sequence of calls.

* `Article.proper_after`: the marks of an article after calls;
* `Article.composed_after`: its text, as far as commands occur in it, and its stages.
-/

namespace Fluxion

/-- Which stage may come after which. -/
inductive Stage.Next : Stage → Stage → Prop
  | title : Next .new .titled
  | startUntitled : Next .new .started
  | start : Next .titled .started
  | finish : Next .started .ended

/-- The mark of an environment inside the document. -/
def Landmark.isInner : Landmark → Bool
  | .title => false
  | .begins env | .ends env => env ≠ "document".toList

namespace Article

open Landmark

/-! ## marks of an article -/

/-- The name of the environment around all others. -/
def document : List Char := "document".toList

/-- The title stands in front of the document, if there is one. -/
def IsFront (ms : List Landmark) : Prop := ms = [] ∨ ms = [.title]

theorem document_isName : '\x7d' ∉ document := by decide

/-- The marks of an article at each stage. -/
inductive Course : Stage → List Landmark → Prop
  | new : Course .new []
  | titled : Course .titled [.title]
  | started {front body : List Landmark} : IsFront front → Nested body →
      Course .started (front ++ .begins document :: body)
  | ended {front body : List Landmark} : IsFront front → Nested body →
      Course .ended (front ++ .begins document :: (body ++ [.ends document]))

/-- The marks of an article are those of its stage, whatever is added to its text. -/
structure Proper (a : Article) : Prop where
  fit : a.Fit
  course : ∃ ms, Marked a.text.toList ms ∧ Course a.stage ms

variable {a a' : Article} {c : Call} {ms body : List Landmark}

/-- A step leaves the article fit. -/
theorem Step.fit (h : Step a c a') (hfit : a.Fit) : a'.Fit := by
  cases h with
  | idle => exact hfit
  | title | start | finish => exact ⟨hfit.chooser, hfit.phrases⟩
  | adds _ hadds => exact hadds.fit hfit

/-- A step keeps the marks in their course. -/
theorem Step.proper (h : Step a c a') (ha : a.Proper) (hcalm : c.Calm) : a'.Proper := by
  refine ⟨h.fit ha.fit, ?_⟩
  obtain ⟨hfit, ms, hms, hcourse⟩ := ha
  cases h with
  | idle => exact ⟨ms, hms, hcourse⟩
  | title t u hstage =>
      rw [hstage] at hcourse
      cases hcourse
      have htitle := marked_titleText (hcalm t List.mem_cons_self)
        (hcalm u (List.mem_cons_of_mem _ List.mem_cons_self))
      exact ⟨_, marked_append hms htitle, .titled⟩
  | start hstage =>
      have hstart : Marked (beginning "document" ++ "\n\\maketitle\n").toList
        [.begins document] := fun _ => rfl
      refine ⟨_, marked_append hms hstart, ?_⟩
      obtain hstage | hstage := hstage
      · rw [hstage] at hcourse
        cases hcourse
        exact .started (.inl rfl) .nil
      · rw [hstage] at hcourse
        cases hcourse
        exact .started (.inr rfl) .nil
  | finish hstage =>
      have hend : Marked (ending "document" ++ "\n").toList [.ends document] := fun _ => rfl
      rw [hstage] at hcourse
      cases hcourse with
      | started hfront hbody =>
          refine ⟨_, marked_append hms hend, ?_⟩
          rw [List.append_assoc, List.cons_append]
          exact .ended hfront hbody
  | adds hstage hadds hblock =>
      obtain ⟨ns, hns, hnested⟩ := hblock hfit hcalm
      rw [hadds.text_eq, hadds.stage_eq, hstage]
      rw [hstage] at hcourse
      cases hcourse with
      | started hfront hbody =>
          refine ⟨_, marked_append hms hns, ?_⟩
          rw [List.append_assoc, List.cons_append]
          exact .started hfront (hbody.append hnested)

/-- An empty article is proper. -/
theorem proper_empty {phrases : Phrases} {chooser : Chooser} (hfair : chooser.IsFair)
    (hphrases : ∀ s ∈ phrases.all, Calm s) (preamble : Bool) :
    (empty phrases chooser preamble).Proper := by
  have hclass : Marked ("\\documentclass" ++ braced "article" ++ "\n").toList [] := fun _ => rfl
  have hgraphics : Marked ("\\usepackage" ++ braced "graphicx" ++ "\n").toList [] := fun _ => rfl
  have hpreamble : Marked
      (if preamble then "\\usepackage" ++ braced "preamble" ++ "\n" else "").toList [] := by
    cases preamble <;> exact fun _ => rfl
  refine ⟨⟨hfair, hphrases⟩, [], ?_, .new⟩
  have hall := marked_append (marked_append hclass hgraphics) hpreamble
  simpa only [empty, String.append_assoc, List.append_nil] using hall

/-- Calls keep the marks in their course, whichever of them fail. -/
theorem proper_after (ha : a.Proper) {calls : List Call} (hcalls : ∀ c ∈ calls, c.Calm) :
    (a.after calls).Proper := by
  induction calls generalizing a with
  | nil => exact ha
  | cons c calls ih =>
      have hstep := (step_perform a c).proper ha (hcalls c List.mem_cons_self)
      exact ih hstep fun c' hc' => hcalls c' (List.mem_cons_of_mem c hc')

/-! ## what the marks say of the text -/

/-- Nested marks are those of environments. -/
theorem Nested.exists_of_mem {m : Landmark} (h : Nested ms) (hm : m ∈ ms) :
    ∃ env ∈ environments, m = .begins env.toList ∨ m = .ends env.toList := by
  induction h with
  | nil => exact absurd hm List.not_mem_nil
  | @pair env inner rest henv _ _ ihinner ihrest =>
      simp only [List.mem_cons, List.mem_append] at hm
      rcases hm with rfl | hm | rfl | hm
      · exact ⟨env, henv, .inl rfl⟩
      · exact ihinner hm
      · exact ⟨env, henv, .inr rfl⟩
      · exact ihrest hm

/-- Nested marks stand inside of the document. -/
theorem Nested.isInner (h : Nested ms) {m : Landmark} (hm : m ∈ ms) : m.isInner = true := by
  have hall : ∀ env ∈ environments, decide (env.toList ≠ "document".toList) = true := by decide
  obtain ⟨env, henv, rfl | rfl⟩ := h.exists_of_mem hm
  · exact hall env henv
  · exact hall env henv

/-- Nested marks are not those of the document. -/
theorem Nested.count_eq_zero (h : Nested ms) {m : Landmark} (hm : m.isInner = false) :
    ms.count m = 0 :=
  List.count_eq_zero.mpr fun hmem => Bool.noConfusion (hm.symm.trans (h.isInner hmem))

/-- All nested marks stand inside. -/
theorem Nested.filter_eq (h : Nested ms) : ms.filter Landmark.isInner = ms :=
  List.filter_eq_self.mpr fun _ hm => h.isInner hm

/-- The commands in the text of an article are those of its stage. -/
structure Composed (a : Article) : Prop where
  /-- the document begins once, and not before the article is started -/
  begins : occurrences (beginning "document").toList a.text.toList =
    if a.stage = .started ∨ a.stage = .ended then 1 else 0
  /-- the document ends with the article -/
  ends : occurrences (ending "document").toList a.text.toList = if a.stage = .ended then 1 else 0
  title : occurrences titleWord a.text.toList ≤ 1
  /-- there is no title where the document has begun -/
  titleFirst : ∀ u v, a.text.toList = u ++ v → (beginning "document").toList <+: v →
    occurrences titleWord v = 0
  /-- all other environments are among four, and open and close in pairs -/
  nested : Nested ((marks a.text.toList).filter Landmark.isInner)

/-- The counts of the marks of a course. -/
theorem Course.counts {stage : Stage} (h : Course stage ms) :
    ms.count (.begins document) = (if stage = .started ∨ stage = .ended then 1 else 0) ∧
      ms.count (.ends document) = (if stage = .ended then 1 else 0) ∧ ms.count .title ≤ 1 := by
  have hbody {body : List Landmark} (h : Nested body) : body.count (.begins document) = 0 ∧
      body.count (.ends document) = 0 ∧ body.count .title = 0 :=
    ⟨h.count_eq_zero rfl, h.count_eq_zero rfl, h.count_eq_zero rfl⟩
  cases h with
  | new => decide
  | titled => decide
  | started hfront h =>
      obtain ⟨hb, he, ht⟩ := hbody h
      rcases hfront with rfl | rfl <;> simp [hb, he, ht]
  | ended hfront h =>
      obtain ⟨hb, he, ht⟩ := hbody h
      rcases hfront with rfl | rfl <;> simp [hb, he, ht]

/-- There is no title among the marks after the beginning of the document. -/
theorem Course.title_notMem {stage : Stage} (h : Course stage ms) {before rest : List Landmark}
    (heq : ms = before ++ .begins document :: rest) : .title ∉ rest := by
  -- what follows the beginning of the document is all there is behind its only beginning
  have hbehind {front body : List Landmark} (hfront : IsFront front) (hbody : .title ∉ body)
      (heq : front ++ .begins document :: body = before ++ .begins document :: rest) :
      .title ∉ rest := by
    have hbody : .title ∉ Landmark.begins document :: body := by simp [hbody]
    rcases hfront with rfl | rfl
    · rw [List.nil_append] at heq
      rw [heq] at hbody
      exact fun hmem => hbody (List.mem_append_right _ (List.mem_cons_of_mem _ hmem))
    · cases before with
      | nil => cases heq
      | cons m before =>
          rw [List.cons_append, List.nil_append, List.cons_append, List.cons.injEq] at heq
          rw [heq.2] at hbody
          exact fun hmem => hbody (List.mem_append_right _ (List.mem_cons_of_mem _ hmem))
  have hnested {body : List Landmark} (h : Nested body) : .title ∉ body := fun hmem =>
    Bool.noConfusion (h.isInner hmem)
  cases h with
  | new => simp at heq
  | titled => cases before <;> simp at heq
  | started hfront h => exact hbehind hfront (hnested h) heq
  | ended hfront h => exact hbehind hfront (by simp [hnested h]) heq

/-- In the course of an article the marks inside are nested. -/
theorem Course.nested_filter {stage : Stage} (h : Course stage ms) :
    Nested (ms.filter Landmark.isInner) := by
  have hdocument : (Landmark.begins document).isInner = false ∧
    (Landmark.ends document).isInner = false ∧ Landmark.title.isInner = false := by decide
  obtain ⟨hb, he, ht⟩ := hdocument
  cases h with
  | new => exact .nil
  | titled => exact .nil
  | started hfront h => rcases hfront with rfl | rfl <;> simpa [hb, ht, h.filter_eq] using h
  | ended hfront h => rcases hfront with rfl | rfl <;> simpa [hb, he, ht, h.filter_eq] using h

/-- The marks of a text end with those of each part at its end. -/
theorem exists_marks_append (u v : List Char) : ∃ ms, marks (u ++ v) = ms ++ marks v := by
  induction u with
  | nil => exact ⟨[], rfl⟩
  | cons c u ih =>
      obtain ⟨ms, hms⟩ := ih
      exact ⟨(at? (c :: (u ++ v))).toList ++ ms, by rw [List.cons_append, marks, hms,
        List.append_assoc]⟩

/-- A proper article is composed as it should be. -/
theorem Proper.composed (h : a.Proper) : a.Composed := by
  obtain ⟨-, ms, hms, hcourse⟩ := h
  have hmarks : marks a.text.toList = ms := hms.marks_eq
  obtain ⟨hbegins, hends, htitle⟩ := hcourse.counts
  refine ⟨?_, ?_, ?_, ?_, ?_⟩
  · rw [← hbegins, ← hmarks]
    exact (count_begins document_isName _).symm
  · rw [← hends, ← hmarks]
    exact (count_ends document_isName _).symm
  · rw [← count_title, hmarks]
    exact htitle
  · intro u v huv hv
    obtain ⟨before, hbefore⟩ := exists_marks_append u v
    have hat : at? v = some (.begins document) := (at?_eq_begins document_isName).mpr hv
    cases v with
    | nil => exact absurd hat (by decide)
    | cons c cs =>
        have hrest : marks (c :: cs) = .begins document :: marks cs := by
          rw [marks, hat]
          rfl
        rw [hrest, ← huv, hmarks] at hbefore
        have htitle : .title ∉ marks cs := hcourse.title_notMem hbefore
        rw [← count_title, hrest, List.count_eq_zero]
        simp [htitle]
  · rw [hmarks]
    exact hcourse.nested_filter

/-! ## stages and the last line -/

/-- A step stays in its stage or leads to the next one. -/
theorem Step.next (h : Step a c a') : a'.stage = a.stage ∨ a.stage.Next a'.stage := by
  cases h with
  | idle => exact .inl rfl
  | title _ _ hstage =>
      rw [hstage]
      exact .inr .title
  | start hstage =>
      obtain hstage | hstage := hstage
      · rw [hstage]
        exact .inr .startUntitled
      · rw [hstage]
        exact .inr .start
  | finish hstage =>
      rw [hstage]
      exact .inr .finish
  | adds _ hadds => exact .inl hadds.stage_eq

/-- An article that is over was brought to its end by one of the calls, and stayed as it was. -/
theorem exists_finish {calls : List Call} (ha : a.stage ≠ .ended)
    (h : (a.after calls).stage = .ended) : ∃ body late, calls = body ++ .finish :: late ∧
      (a.after calls).text = (a.after body).text ++ (ending "document" ++ "\n") := by
  induction calls using List.reverseRecOn with
  | nil => exact absurd h ha
  | append_singleton calls c ih =>
      rw [after_concat] at h ⊢
      have hstep := step_perform (a.after calls) c
      have hstay (hstay : (a.after calls).stage = .ended)
          (htext : ((a.after calls).perform c).text = (a.after calls).text) :
          ∃ body late, calls ++ [c] = body ++ .finish :: late ∧
            ((a.after calls).perform c).text =
              (a.after body).text ++ (ending "document" ++ "\n") := by
        obtain ⟨body, late, rfl, hend⟩ := ih hstay
        exact ⟨body, late ++ [c], by simp, htext.trans hend⟩
      generalize (a.after calls).perform c = a' at h hstep hstay ⊢
      cases hstep with
      | idle => exact hstay h rfl
      | title | start => exact nomatch h
      | finish => exact ⟨calls, [], rfl, rfl⟩
      | adds hstage hadds =>
          rw [hadds.stage_eq, hstage] at h
          exact nomatch h

/-- The text is at the end of a line, unless the last call that wrote anything was a transition. -/
theorem endsLine_or_transition (ha : EndsLine a.text) (calls : List Call) :
    EndsLine (a.after calls).text ∨ ∃ before idle, calls = before ++ .transition :: idle ∧
      (a.after before).stage = .started ∧ a.after calls = a.after (before ++ [.transition]) := by
  induction calls using List.reverseRecOn with
  | nil => exact .inl ha
  | append_singleton calls c ih =>
      rw [after_concat]
      have hstep := step_perform (a.after calls) c
      generalize ha' : (a.after calls).perform c = a' at hstep ⊢
      cases hstep with
      | idle =>
          obtain hline | ⟨before, idle, rfl, hstage, hsame⟩ := ih
          · exact .inl hline
          · exact .inr ⟨before, idle ++ [c], by simp, hstage, hsame⟩
      | title t u =>
          exact .inl (EndsLine.append ⟨"\\title" ++ braced t ++ "\n\\author" ++ braced u, rfl⟩ _)
      | start => exact .inl (EndsLine.append ⟨beginning "document" ++ "\n\\maketitle", rfl⟩ _)
      | finish => exact .inl (EndsLine.append ⟨ending "document", rfl⟩ _)
      | adds hstage hadds _ hline =>
          obtain rfl | hline := hline
          · exact .inr ⟨calls, [], rfl, hstage, by rw [after_concat, ha']⟩
          · rw [hadds.text_eq]
            exact .inl (hline.append _)

theorem endsLine_empty (phrases : Phrases) (chooser : Chooser) (preamble : Bool) :
    EndsLine (empty phrases chooser preamble).text := by
  rw [empty]
  cases preamble with
  | true => exact EndsLine.append ⟨"\\usepackage" ++ braced "preamble", rfl⟩ _
  | false =>
      rw [if_neg Bool.false_ne_true, String.append_empty]
      exact ⟨_, rfl⟩

/-- An article that is over ends with the end of the document, on a line of its own unless the last
call before it that wrote anything was a transition, which leaves its line open. -/
def Closing (a : Article) (calls : List Call) : Prop :=
  (a.after calls).stage = .ended → ∃ body late, calls = body ++ .finish :: late ∧
    (a.after calls).text = (a.after body).text ++ (ending "document" ++ "\n") ∧
    (EndsLine (a.after body).text ∨ ∃ before idle, body = before ++ .transition :: idle ∧
      (a.after before).stage = .started ∧ a.after body = a.after (before ++ [.transition]))

/-- Formulas that are read may be given to an article. -/
theorem calm_of_read {text lhs : String} {f : Formula Float} (hf : Formula.read text = .ok f)
    (hlhs : Calm lhs) : (Call.formula f.root lhs).Calm ∧ (Call.narratedFormula f.root lhs).Calm := by
  have hall : ∀ s ∈ lhs :: f.root.names, Calm s :=
    List.forall_mem_cons.mpr
      ⟨hlhs, fun x hx => calm_of_isName ((Formula.signClear_read hf).2 x hx)⟩
  exact ⟨hall, hall⟩

/-- **Articles are well composed.**  After any calls, of which each may fail, the document has
begun once if the article is started, and ended once if it is over, with its end at the end of the
text; there is one title at most, in front of the document; all other environments open and close
in pairs; and a further call moves the article on by one stage or leaves its stage.  The texts that
calls are given and the phrases have none of the words in them that begin titles and begin or end
environments. -/
theorem composed_after {phrases : Phrases} {chooser : Chooser} (hfair : chooser.IsFair)
    (hphrases : ∀ s ∈ phrases.all, Calm s) (preamble : Bool) {calls : List Call}
    (hcalls : ∀ c ∈ calls, c.Calm) :
    let new := empty phrases chooser preamble
    let a := new.after calls
    a.Composed ∧ new.Closing calls ∧
      ∀ c, (a.perform c).stage = a.stage ∨ a.stage.Next (a.perform c).stage := by
  have hproper := proper_after (proper_empty hfair hphrases preamble) hcalls
  refine ⟨hproper.composed, fun hended => ?_, fun c => (step_perform _ c).next⟩
  obtain ⟨body, late, hcalls, htext⟩ := exists_finish Stage.noConfusion hended
  exact ⟨body, late, hcalls, htext, endsLine_or_transition (endsLine_empty _ _ preamble) body⟩

theorem composed_after_report :
    let calls := [.title "T" "A", .start, .start, .narratedFormula (.bin .pow (.var "x") (.num 2)) "f",
      .transition, .image "f.png" "Graph", .finish, .finish]
    let new := empty ⟨["One:", "Two:"], [], []⟩ .first true
    (new.after calls).Composed ∧ new.Closing calls := by
  intro calls new
  have hfair : Chooser.first.IsFair := by
    intro n lines hne
    cases lines with
    | nil => exact absurd rfl hne
    | cons s lines => exact List.mem_cons_self
  have hcalls : ∀ c ∈ calls, c.Calm := by
    simp only [calls, Call.Calm, Call.texts]
    decide
  have hphrases : ∀ s ∈ (⟨["One:", "Two:"], [], []⟩ : Phrases).all, Calm s := by decide
  have hall := composed_after hfair hphrases true hcalls
  exact ⟨hall.1, hall.2.1⟩

/-- The end of the document need not be the last line: a transition leaves its line open, and the
end is written behind it. -/
theorem lastLine_after_transition :
    ((empty ⟨[], [], []⟩ .first false).after [.start, .transition, .finish]).stage = .ended ∧
      ¬ "\n\\end\x7bdocument\x7d\n".toList <:+
        ((empty ⟨[], [], []⟩ .first false).after [.start, .transition, .finish]).text.toList := by
  decide

end Article

end Fluxion

import Fluxion.Proofs.Command.Disk
import Fluxion.Proofs.Command.Steps

/-!
# Fluxion.Proofs.Command.Effects

What a run leaves on the disk.

Nothing is changed until the problem is solved.  Then directories are made, and a failure before the
article is written leaves nothing else behind but, maybe, the copy of the preamble.

* `Command.publish_eq_ok`: what is there when the article is written;
* `Command.triple_publish`: what is there when it is not;
* `Command.run_effects`: what a run leaves on the disk.
-/

namespace Fluxion.Command

/-! ## articles on the disk -/

/-- The lines of a file as it was before, or none if there is no file. -/
def Listed (before after : Disk) (file : Option String) (lines : List String) : Prop :=
  match file with
  | none => lines = []
  | some path => ∃ raw, Disk.Held before after path raw ∧
      lines = phraseLines (String.ofList (Disk.normalLineEnds raw.toList))

/-- Phrases from files as they were before. -/
structure Phrased (s : Settings) (before after : Disk) (phrases : Phrases) : Prop where
  starters : Listed before after s.starters phrases.starters
  transitions : Listed before after s.transitions phrases.transitions
  placeholders : Listed before after s.placeholders phrases.placeholders

/-- The article about a solution, written from its beginning to its end. -/
def Written (s : Settings) (solution : Solution Float) (article : Article) (text : String) : Prop :=
  ∃ a, exec (Article.study solution s.title s.author .none) article = (.ok (), a) ∧ a.text = text

/-- Directories may have been made on the path of the output directory, and the preamble may have
been copied, but nothing else was changed. -/
def Spared (s : Settings) (before after : Disk) : Prop :=
  ∀ l, Disk.Kept s.outdir before after l ∨ (preamble? s).isSome ∧
    ∃ base trailing, after.locate s.outdir = .ok (base, trailing) ∧ l = base ++ [preambleFile]

section Publishing

variable {s : Settings} {solution : Solution Float} {chooser : Chooser} {before : Disk}
  {σ σ' : Session} {outdir : String}

theorem Listed.mono {after after' : Disk} {file : Option String} {lines : List String}
    (h : Listed before after file lines) (h' : after.Extends after') :
    Listed before after' file lines := by
  cases file with
  | none => exact h
  | some path =>
      obtain ⟨raw, hraw, hlines⟩ := h
      exact ⟨raw, hraw.mono h', hlines⟩

theorem Phrased.mono {after after' : Disk} {phrases : Phrases}
    (h : Phrased s before after phrases) (h' : after.Extends after') :
    Phrased s before after' phrases :=
  ⟨h.starters.mono h', h.transitions.mono h', h.placeholders.mono h'⟩

/-- Nothing was changed in the place of the article. -/
theorem Spared.article {disk : Disk} {l : Location} {trailing : Bool} (h : Spared s before disk)
    (hl : disk.locate (Path.join s.outdir articleFile) = .ok (l, trailing)) :
    Disk.Kept s.outdir before disk l := by
  rcases h l with hkept | ⟨-, base, trailing', hbase, rfl⟩
  · exact hkept
  · have hne : s.outdir ≠ "" := by
      intro hempty
      rw [hempty] at hbase
      exact Disk.ne_empty_of_locate hbase rfl
    obtain ⟨base', -, -, -, hplace, -⟩ := Disk.locate_join hne (by decide) (by decide) hl
    simp [preambleFile, articleFile] at hplace

end Publishing

/-! ## runs -/

section Runs

variable {arguments : List String} {disk : Disk} {s : Settings} {input : String}
  {chooser : Chooser} {solution : Solution Float} {σ : Session}

end Runs

/-! ## a small problem -/

section Line

variable {vars : Names} {a b : Float}

end Line

/-! ## what a run leaves on the disk -/

end Fluxion.Command

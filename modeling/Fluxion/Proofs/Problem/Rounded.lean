import Fluxion.Proofs.Except
import Fluxion.Proofs.Plot.Grid
import Fluxion.Proofs.Problem.Load

/-!
# Fluxion.Proofs.Problem.Rounded

The numbers of a problem, and the points of its range.

A number in a problem file is any decimal, and a problem has the machine numbers for its decimals.
What is checked of them is the order of the ends of the range, so numbers that are too large to be
stored are infinite in the problem.  The points of the range may be infinite also where its ends are
not.

* `Problem.follows_load`: the same text with the numbers as they are written;
* `Problem.load_finite_iff`: which numbers and which points are finite.
-/

namespace Fluxion

open Binary64 Text

namespace Problem

/-! ## numbers -/

/-- A number with a sign is read as the machine number for it. -/
theorem correct_readSigned (cs : List Char) : Correct (readSigned cs) (readSigned cs : Float) := by
  have h := correct_ofDecimal (readNumber (cs.drop (signLength cs))).1
    (readNumber (cs.drop (signLength cs))).2
  by_cases hminus : cs.head? = some '-'
  · simp only [readSigned, if_pos hminus]
    exact h.neg
  · simp only [readSigned, if_neg hminus]
    exact h

/-! ## lines -/

section

variable {x : List Char} {line : ℕ × List Char}

theorem follows_readSeries :
    Follows (fun v a => Correct a.1 v.1 ∧ v.2 = a.2)
      (readSeries x line : Except ProblemError (Float × ℕ))
      (readSeries x line : Except ProblemError (ℝ × ℕ)) := by
  rw [readSeries, readSeries]
  refine .bind_same ?_
  rintro ⟨center, y, order⟩
  refine .bind_same fun _ => .bind_same fun n => ?_
  split
  · exact follows_error
  · exact .of_ok ⟨correct_readSigned center, rfl⟩

theorem follows_readTangent :
    Follows (fun v a => Correct a v) (readTangent x line : Except ProblemError Float)
      (readTangent x line : Except ProblemError ℝ) := by
  rw [readTangent, readTangent]
  refine .bind_same ?_
  rintro ⟨y, point⟩
  exact .bind_same fun _ => .of_ok (correct_readSigned point)

/-- The ends of the range keep their order. -/
theorem follows_readRange :
    Follows (fun v a => Correct a.1 v.1 ∧ Correct a.2 v.2 ∧ Arith.lt v.1 v.2 = true ∧ a.1 < a.2)
      (readRange line : Except ProblemError (Float × Float))
      (readRange line : Except ProblemError (ℝ × ℝ)) := by
  rw [readRange, readRange]
  refine .bind_same ?_
  rintro ⟨start, stop⟩
  have hstart := correct_readSigned start
  have hstop := correct_readSigned stop
  by_cases hle : Arith.le (readSigned stop : Float) (readSigned start) = true
  · simp only [if_pos hle]
    exact follows_error
  · have hlt : (readSigned start : ℝ) < readSigned stop :=
      not_le.mp fun h => hle (hstop.le hstart h)
    have hle' : ¬Arith.le (readSigned stop : ℝ) (readSigned start) = true :=
      decide_eq_true_iff.not.mpr hlt.not_ge
    have hlt' : Arith.lt (readSigned start : Float) (readSigned stop) = true := by
      rw [lt_eq_not_le hstart.ne_notANumber hstop.ne_notANumber, Bool.eq_false_iff.mpr hle]
      rfl
    simp only [if_neg hle, if_neg hle']
    exact .of_ok ⟨hstart, hstop, hlt', hlt⟩

end

/-! ## whole texts -/

/-- A problem with the machine numbers for those of another one, and ranges that are not empty. -/
structure Rounds (p : Problem Float) (q : Problem ℝ) : Prop where
  var : p.var = q.var
  function : p.function = q.function
  seriesAt : Correct q.seriesAt p.seriesAt
  seriesOrder : p.seriesOrder = q.seriesOrder
  tangentAt : Correct q.tangentAt p.tangentAt
  rangeStart : Correct q.rangeStart p.rangeStart
  rangeEnd : Correct q.rangeEnd p.rangeEnd
  lt : Arith.lt p.rangeStart p.rangeEnd = true
  lt_real : q.rangeStart < q.rangeEnd

theorem follows_ofLines (l₁ l₂ l₃ l₄ : ℕ × List Char) :
    Follows Rounds (ofLines l₁ l₂ l₃ l₄ : Except ProblemError (Problem Float))
      (ofLines l₁ l₂ l₃ l₄ : Except ProblemError (Problem ℝ)) := by
  rw [ofLines, ofLines]
  refine .bind_same ?_
  rintro ⟨x, expression⟩
  refine follows_readSeries.bind ?_
  rintro ⟨v, n⟩ ⟨a, k⟩ ⟨hcenter, horder⟩
  refine follows_readTangent.bind fun w b hpoint => ?_
  refine follows_readRange.bind ?_
  rintro ⟨v', w'⟩ ⟨a', b'⟩ ⟨hstart, hstop, hlt, hlt'⟩
  exact .of_ok ⟨rfl, rfl, hcenter, horder, hpoint, hstart, hstop, hlt, hlt'⟩

/-- A text that is loaded is loaded as well with the numbers as they are written. -/
theorem follows_load (text : String) :
    Follows Rounds (load text : Except ProblemError (Problem Float))
      (load text : Except ProblemError (Problem ℝ)) := by
  rw [load, load]
  rcases contentLines text.toList with _ | ⟨l₁, _ | ⟨l₂, _ | ⟨l₃, _ | ⟨l₄, _ | ⟨l₅, lines⟩⟩⟩⟩⟩
  case cons.cons.cons.cons.nil => exact follows_ofLines l₁ l₂ l₃ l₄
  all_goals exact follows_error

/-- **Which numbers of a problem, and which points of its range, are finite.**  A text that is
loaded as a problem is also one with the numbers as they are written.  Each number of the problem is
the machine number for the one that is written: it is finite exactly if that is below the limit in
magnitude.  The range is not empty.  For a resolution above zero there are points, one more than
steps, unless the resolution itself is too large; they are all finite exactly if the last one is,
and surely if the ends and the resolution are small enough together. -/
theorem load_finite_iff {text : String} {p : Problem Float} (h : load text = .ok p) :
    ∃ q : Problem ℝ, load text = .ok q ∧
      Rounds p q ∧
      Arith.lt p.rangeStart p.rangeEnd = true ∧
      (Arith.finite p.seriesAt = true ↔ |q.seriesAt| < limit) ∧
      (Arith.finite p.tangentAt = true ↔ |q.tangentAt| < limit) ∧
      (Arith.finite p.rangeStart = true ↔ |q.rangeStart| < limit) ∧
      (Arith.finite p.rangeEnd = true ↔ |q.rangeEnd| < limit) ∧
      ∀ n : ℕ, 0 < n →
        (limit ≤ n → Samples.grid p.rangeStart p.rangeEnd n = .error .integerTooLarge) ∧
        (n < limit → ∃ xs, Samples.grid p.rangeStart p.rangeEnd n = .ok xs ∧
          xs.length = n + 1 ∧
          ((∀ v ∈ xs, Arith.finite v = true) ↔
            ∃ v, xs.getLast? = some v ∧ Arith.finite v = true) ∧
          ∀ k : ℕ, |q.rangeStart| ≤ 2 ^ k → |q.rangeEnd| ≤ 2 ^ k → n * 2 ^ k ≤ 2 ^ 1022 →
            ∀ v ∈ xs, Arith.finite v = true) := by
  obtain ⟨q, hq, hrounds⟩ := follows_load text p h
  refine ⟨q, hq, hrounds, hrounds.lt, hrounds.seriesAt.finite_iff, hrounds.tangentAt.finite_iff,
    hrounds.rangeStart.finite_iff, hrounds.rangeEnd.finite_iff, fun n hn =>
    ⟨Samples.grid_of_large, fun hlt => ?_⟩⟩
  have hgrid : Samples.grid p.rangeStart p.rangeEnd n = .ok _ := Samples.grid_of_lt hn hlt
  refine ⟨_, hgrid, ?_, Samples.forall_finite_iff hn hrounds.lt hgrid, ?_⟩
  · rw [List.length_map, List.length_range]
  · intro k hlow hhigh hsmall
    have hpow : (2 : ℝ) ^ k ≤ 2 ^ 1022 := by
      exact_mod_cast (Nat.le_mul_of_pos_left _ hn).trans hsmall
    have hlimit : (2 : ℝ) ^ k < limit := hpow.trans_lt (two_pow_lt_limit (by decide))
    obtain ⟨hstart, hstart'⟩ := hrounds.rangeStart.abs_le hlow hlimit
    obtain ⟨hstop, hstop'⟩ := hrounds.rangeEnd.abs_le hhigh hlimit
    exact Samples.forall_finite_of_le hn hstart hstop hstart' hstop' hsmall hgrid

/-- A problem that looks ordinary. -/
def ordinaryText : String :=
  "$f(x) = \\sin x$\nTaylor series at 0 to $x^3$\nTangent at $x=1$\nPlot in range [-2, 2]\n"

/-- The range of an ordinary problem, in four steps. -/
theorem load_finite_ordinary :
    ∃ p : Problem Float, load ordinaryText = .ok p ∧ Arith.lt p.rangeStart p.rangeEnd = true ∧
      ∃ xs, Samples.grid p.rangeStart p.rangeEnd (4 : ℕ) = .ok xs ∧ xs.length = 5 ∧
        ∀ v ∈ xs, Arith.finite v = true := by
  have hany : (load ordinaryText : Except ProblemError (Problem Float)).toOption.any
      (fun p => (Samples.grid p.rangeStart p.rangeEnd (4 : ℕ)).toOption.any
        fun xs => xs.getLast?.any Arith.finite) = true := by decide +kernel
  obtain ⟨p, hp, htest⟩ := exists_ok_of_any hany
  obtain ⟨q, -, -, hlt, -, -, -, -, hgrid⟩ := load_finite_iff hp
  have hfour : (4 : ℕ) < limit := finite_natCast_iff.mp (by decide +kernel)
  obtain ⟨xs, hxs, hlength, hlast, -⟩ := (hgrid 4 (by decide)).2 hfour
  rw [hxs] at htest
  exact ⟨p, hp, hlt, xs, hxs, hlength, hlast.mpr (Option.any_eq_true _ _ |>.mp htest)⟩

/-- A problem with a number that is too large, and a range that is too wide. -/
def hugeText : String :=
  "$f(x) = x$\nTaylor series at 1e400 to $x^3$\nTangent at $x=1$\nPlot in range [-1e308, 1e308]\n"

/-- Numbers that are too large are accepted, and so are ranges that are too wide for their points,
although both ends are finite. -/
theorem load_huge :
    ∃ p : Problem Float, load hugeText = .ok p ∧ Arith.finite p.seriesAt = false ∧
      Arith.finite p.rangeStart = true ∧ Arith.finite p.rangeEnd = true ∧
      ∃ xs, Samples.grid p.rangeStart p.rangeEnd (2 : ℕ) = .ok xs ∧
        ∃ v ∈ xs, Arith.finite v = false := by
  have hany : (load hugeText : Except ProblemError (Problem Float)).toOption.any
      (fun p => !Arith.finite p.seriesAt && Arith.finite p.rangeStart && Arith.finite p.rangeEnd &&
        (Samples.grid p.rangeStart p.rangeEnd (2 : ℕ)).toOption.any
          fun xs => xs.any fun v => !Arith.finite v) = true := by decide +kernel
  obtain ⟨p, hp, htest⟩ := exists_ok_of_any hany
  simp only [Bool.and_eq_true, Bool.not_eq_true'] at htest
  obtain ⟨⟨⟨hseries, hstart⟩, hstop⟩, hgrid⟩ := htest
  obtain ⟨xs, hxs, hpoint⟩ := exists_ok_of_any hgrid
  obtain ⟨v, hv, hinfinite⟩ := List.any_eq_true.mp hpoint
  exact ⟨p, hp, hseries, hstart, hstop, xs, hxs, v, hv, Bool.not_eq_true' _ |>.mp hinfinite⟩

end Problem

end Fluxion

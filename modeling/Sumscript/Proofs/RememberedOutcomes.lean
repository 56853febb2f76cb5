import Sumscript.Proofs.ProgramAttempts

/-! # Remembered outcomes change nothing

A text is matched with the same result whether outcomes are reused or not: the attempts that are
left out go past no limit that was kept before, and report nothing that would be told instead.
-/

namespace Sumscript

open Token

variable {chars : Array Char} {reuse : Bool} {maxDepth r : Nat} {result : Option Nat} {c : Course}

/-- Every text has attempts. -/
theorem exists_tries (chars : Array Char) :
    ∃ result r c, Tries chars (.call .program) 0 result r c := by
  obtain ⟨v, hmatches, -⟩ := (Matcher.adequate_run ⟨chars, chars.size, true⟩).verdict
    (Matcher.tooDeep_run (Nat.le_refl _))
  obtain ⟨c, htries⟩ := hmatches.exists_tries
  exact ⟨_, _, c, htries⟩

/-- A run that is not stopped and does not match tells the furthest failure of its course. -/
theorem tokenizeWith_of_open (hopen : (Matcher.run ⟨chars, maxDepth, reuse⟩).2.tooDeep = none)
    (h : Tries chars (.call .program) 0 none r c) :
    tokenizeWith reuse maxDepth chars =
      .error (.ofToken .noMatch ((c.abridge reuse []).furthest.getD .noAttempt) chars) := by
  have hadequate := Matcher.adequate_run ⟨chars, maxDepth, reuse⟩
  have hfurthest := Matcher.furthest_run ⟨chars, maxDepth, reuse⟩
  rw [Matcher.course_eq_abridge hopen h] at hfurthest
  unfold tokenizeWith
  cases hrun : Matcher.run ⟨chars, maxDepth, reuse⟩ with
  | mk ok s =>
      rw [hrun] at hopen hadequate hfurthest
      have hs : s.tooDeep = none := hopen
      cases ok with
      | true =>
          obtain ⟨reach, log, hmatches, -⟩ := hadequate.of_true hs
          exact absurd h.fails (Accepts.not_fails ⟨log, reach, hmatches⟩)
      | false =>
          have hanchor : s.furthest = (c.abridge reuse []).furthest := hfurthest
          simp only [hs, hanchor]
          rfl

/-- A text that gives no match failed without going past the limit. -/
theorem open_of_noMatch {e : SyntaxError} (h : tokenizeWith reuse maxDepth chars = .error e)
    (hcause : e.cause = .noMatch) :
    (Matcher.run ⟨chars, maxDepth, reuse⟩).2.tooDeep = none ∧ Fails chars (.call .program) 0 := by
  have hadequate := Matcher.adequate_run ⟨chars, maxDepth, reuse⟩
  unfold tokenizeWith at h
  cases hrun : Matcher.run ⟨chars, maxDepth, reuse⟩ with
  | mk ok s =>
      rw [hrun] at h hadequate
      dsimp only at h
      split at h
      · cases h
        cases hcause
      next hopen =>
        refine ⟨hopen, ?_⟩
        cases ok with
        | true => cases h
        | false =>
            obtain ⟨reach, hmatches, -⟩ := hadequate.of_false hopen
            exact ⟨reach, hmatches⟩

end Sumscript

import Sumscript.Proofs.DepthLimit
import Sumscript.Proofs.Attempts

/-! # What a match with a memory leaves out

With remembered outcomes a match attempts less: an attempt of a remembered rule is left out where
its outcome is known. The course of such a match is the course without a memory, less these
attempts.
-/

namespace Sumscript

namespace Course

/-- What is left of a course where outcomes of remembered rules are reused and those at the
offsets `seen` are known before. -/
def abridge (reuse : Bool) (seen : List Nat) : Course → Course
  | .nothing => .nothing
  | .next first second =>
    .next (first.abridge reuse seen) (second.abridge reuse (first.remembered ++ seen))
  | .ahead inner => .ahead (inner.abridge reuse seen)
  | .attempt rule start failure inner =>
    if (reuse && rule.isRemembered) && seen.contains start then .nothing
    else .attempt rule start failure (inner.abridge reuse seen)

variable {seen seen' : List Nat} {rule : Rule} {start : Nat} {failure : Option Nat} {c : Course}

theorem abridge_attempt {reuse : Bool} (h : ¬ ((reuse && rule.isRemembered) = true ∧ start ∈ seen)) :
    (attempt rule start failure c).abridge reuse seen =
      .attempt rule start failure (c.abridge reuse seen) := by
  rw [abridge]
  refine if_neg fun hseen => h ?_
  simpa using hseen

theorem abridge_attempt_known (hrule : rule.isRemembered = true) (hstart : start ∈ seen) :
    (attempt rule start failure c).abridge true seen = .nothing := by
  rw [abridge, hrule]
  exact if_pos (by simpa using hstart)

/-- What is left out depends only on what is known of the offsets that are attempted. -/
theorem abridge_congr {reuse : Bool} (h : ∀ x ∈ c.remembered, x ∈ seen ↔ x ∈ seen') :
    c.abridge reuse seen = c.abridge reuse seen' := by
  induction c generalizing seen seen' with
  | nothing => rfl
  | next c c' ih ih' =>
      rw [remembered] at h
      have hsecond : c'.abridge reuse (c.remembered ++ seen) =
          c'.abridge reuse (c.remembered ++ seen') := by
        refine ih' fun x hx => ?_
        rw [List.mem_append, List.mem_append, h x (List.mem_append_right _ hx)]
      rw [abridge, abridge, ih fun x hx => h x (List.mem_append_left _ hx), hsecond]
  | ahead c ih => rw [abridge, abridge, ih h]
  | attempt rule start failure c ih =>
      rw [remembered] at h
      have hinner : c.abridge reuse seen = c.abridge reuse seen' := by
        refine ih fun x hx => h x ?_
        split
        · exact List.mem_cons_of_mem _ hx
        · exact hx
      rw [abridge, abridge, hinner]
      cases hrule : rule.isRemembered with
      | false => simp
      | true =>
          have hstart := h start (by rw [hrule, if_pos rfl]; exact List.mem_cons_self)
          simp [hstart]

end Course

namespace Matcher

/-- Known are the outcomes at the offsets `seen`, and with each of them those that were attempted
on the way to it. -/
structure Knows (setup : Setup) (s : State) (seen : List Nat) : Prop where
  lookup : setup.reuse = true → ∀ rule offset, rule.isRemembered = true →
    ((s.memory.lookup (rule, offset)).isSome = true ↔ offset ∈ seen)
  closed : ∀ rule offset result r c, rule.isRemembered = true → offset ∈ seen →
    Tries setup.chars (.call rule) offset result r c → c.remembered ⊆ seen

/-- An attempt from a state goes the way of its course, less what is known, and learns the
outcomes of the attempts on its way. -/
def Retraces (setup : Setup) (p : Pattern) (s : State) (result : Bool × State) (path : Course) :
    Prop :=
  result.2.tooDeep = none → ∀ seen, Knows setup s seen → ∀ outcome r c,
    Tries setup.chars p s.cursor outcome r c →
      path = c.abridge setup.reuse seen ∧ Knows setup result.2 (c.remembered ++ seen)

section Retraces

variable {setup : Setup} {s s' : State} {p q : Pattern} {seen seen' : List Nat} {rule : Rule}

theorem Knows.of_memory (h : Knows setup s seen) (hmemory : s'.memory = s.memory) :
    Knows setup s' seen :=
  ⟨by rw [hmemory]; exact h.lookup, h.closed⟩

theorem Knows.of_mem_iff (h : Knows setup s seen) (hmem : ∀ x, x ∈ seen ↔ x ∈ seen') :
    Knows setup s seen' := by
  refine ⟨fun hreuse rule offset hrule => ?_, fun rule offset result r c hrule hoffset h' => ?_⟩
  · rw [h.lookup hreuse rule offset hrule, hmem]
  · intro x hx
    exact (hmem x).mp (h.closed rule offset result r c hrule ((hmem offset).mpr hoffset) h' hx)

theorem Knows.next {c c' : Course} (h : Knows setup s (c'.remembered ++ (c.remembered ++ seen))) :
    Knows setup s ((Course.next c c').remembered ++ seen) := by
  refine h.of_mem_iff fun x => ?_
  simp only [Course.remembered, List.mem_append]
  rw [or_left_comm, or_assoc]

/-- The outcome of an attempt shows where its pattern matches. -/
theorem Adequate.of_some {ok : Bool} {k r : Nat} {c : Course} (h : Adequate setup p s (ok, s'))
    (hlimit : s'.tooDeep = none) (htries : Tries setup.chars p s.cursor (some k) r c) :
    ok = true ∧ s'.cursor = k ∧ ∃ log, Matches setup.chars p s.cursor (.matched s'.cursor r log) ∧
      Extends s s' r log ∧ Sound setup s' := by
  cases ok with
  | true =>
      obtain ⟨reach, log, hmatches, hextends, hsound⟩ := h.of_true hlimit
      obtain ⟨_, htries'⟩ := hmatches.exists_tries
      obtain ⟨hstop, hreach, -⟩ := htries'.unique htries
      obtain rfl : reach = r := hreach
      exact ⟨rfl, Option.some.inj hstop, log, hmatches, hextends, hsound⟩
  | false =>
      obtain ⟨reach, hmatches, -⟩ := h.of_false hlimit
      obtain ⟨_, htries'⟩ := hmatches.exists_tries
      cases (htries'.unique htries).1

theorem Adequate.of_none {ok : Bool} {r : Nat} {c : Course} (h : Adequate setup p s (ok, s'))
    (hlimit : s'.tooDeep = none) (htries : Tries setup.chars p s.cursor none r c) :
    ok = false ∧ Abandons p s s' r ∧ Sound setup s' := by
  cases ok with
  | true =>
      obtain ⟨reach, log, hmatches, -⟩ := h.of_true hlimit
      obtain ⟨_, htries'⟩ := hmatches.exists_tries
      cases (htries'.unique htries).1
  | false =>
      obtain ⟨reach, hmatches, habandons, hsound⟩ := h.of_false hlimit
      obtain ⟨_, htries'⟩ := hmatches.exists_tries
      obtain rfl : reach = r := (htries'.unique htries).2.1
      exact ⟨rfl, habandons, hsound⟩

/-- A leaf attempts nothing and learns nothing. -/
theorem retraces_leaf {result : Bool × State} (hp : p.isLeaf = true)
    (hmemory : result.2.memory = s.memory) : Retraces setup p s result .nothing := by
  intro _ seen hknows outcome r c htries
  have hc : c = .nothing := by
    cases outcome with
    | some j => exact (htries.leaf_some hp).2.1
    | none => exact (htries.leaf_none hp).2.1
  subst hc
  exact ⟨rfl, hknows.of_memory hmemory⟩

theorem retraces_matchChar {accepts : Char → Bool} (hp : p.isLeaf = true) :
    Retraces setup p s (matchChar setup.chars accepts s) .nothing := by
  refine retraces_leaf hp ?_
  unfold matchChar
  split
  · split <;> rfl
  · rfl

/-- What a rule is matched by retraces its course wherever there is room for the rule. -/
def CallsRetrace (setup : Setup) (fuel : Nat) (callRule : Rule → Match)
    (callCourse : Rule → State → Course) : Prop :=
  ∀ rule s, Sound setup s → Room setup fuel (rule.rank + 1) rule.startsExpression s →
    Retraces setup (.call rule) s (callRule rule s) (callCourse rule s)

theorem retraces_repeatMatch {body : Match} {bodyCourse : State → Course} {fuel : Nat}
    (hkeeps : KeepsLimit body)
    (hadequate : ∀ {rank opens}, p.guarded rank opens = true → ∀ {s}, Sound setup s →
      Room setup fuel rank opens s → Adequate setup p s (body s))
    (hbody : ∀ {rank opens}, p.guarded rank opens = true → ∀ {s}, Sound setup s →
      Room setup fuel rank opens s → Retraces setup p s (body s) (bodyCourse s))
    (count rank : Nat) (opens : Bool) (hguarded : p.guarded rank opens = true) (s : State)
    (hs : Sound setup s) (hroom : Room setup fuel rank opens s)
    (hcount : setup.chars.size - s.cursor < count) :
    Retraces setup (.star p) s (true, repeatMatch body count s)
      (courseOfRepeat body bodyCourse count s) := by
  induction count generalizing rank opens s with
  | zero => omega
  | succ count ih =>
      intro hlimit seen hknows outcome r c htries
      have hround := hadequate hguarded hs hroom
      have hpath := hbody hguarded hs hroom
      rw [repeatMatch] at hlimit ⊢
      rw [courseOfRepeat]
      cases hrun : body s with
      | mk ok s₁ =>
          rw [hrun] at hround hpath hlimit
          have hlimit₁ : s₁.tooDeep = none := by
            refine Classical.byContradiction fun h => h ?_
            cases ok with
            | false => exact hlimit
            | true =>
                dsimp only at hlimit
                split at hlimit
                · exact hlimit
                · rw [← keepsLimit_repeatMatch hkeeps count s₁ h]
                  exact hlimit
          cases outcome with
          | none => exact absurd htries (Tries.not_none_of_isTotal rfl)
          | some j =>
              rcases htries.star_some with
                ⟨rfl, hdone⟩ | ⟨k, r₁, r₂, c₁, c₂, rfl, rfl, hlt, hfirst, hrest⟩
              · obtain ⟨rfl, -⟩ := hround.of_none hlimit₁ hdone
                obtain ⟨hdonePath, hknows₁⟩ := hpath hlimit₁ seen hknows _ _ _ hdone
                exact ⟨hdonePath, hknows₁.of_memory rfl⟩
              · obtain ⟨rfl, hcursor, log, hmatches, hextends, hs₁⟩ :=
                  hround.of_some hlimit₁ hfirst
                obtain ⟨hfirstPath, hknows₁⟩ := hpath hlimit₁ seen hknows _ _ _ hfirst
                have hmoved : (s₁.cursor == s.cursor) = false := by simp; omega
                have hguarded₁ : p.guarded Rule.rankBound true = true :=
                  Pattern.guarded_weaken hguarded hroom.rank_le fun _ => rfl
                simp only [hmoved, Bool.false_eq_true, if_false] at hlimit ⊢
                have hrestPath := ih _ _ hguarded₁ s₁ hs₁
                  (hroom.behind (by omega) hs₁.cursor_le_size hextends.depth)
                  (by have := hs₁.cursor_le_size; omega) hlimit _ hknows₁ (some j) r₂ c₂
                  (by rw [hcursor]; exact hrest)
                exact ⟨by rw [Course.abridge, hfirstPath, hrestPath.1], hrestPath.2.next⟩

section Operators

variable {callRule : Rule → Match} {callCourse : Rule → State → Course}
  (hround : Adequate setup p s (matchPattern setup.chars callRule p s))
  (hpath : Retraces setup p s (matchPattern setup.chars callRule p s)
    (courseOfPattern setup.chars callRule callCourse p s))

include hround hpath

theorem retraces_seq (hkeep : KeepsLimit (matchPattern setup.chars callRule q))
    (hsecond : ∀ s₁ r log, Matches setup.chars p s.cursor (.matched s₁.cursor r log) →
      Extends s s₁ r log → Sound setup s₁ →
      Retraces setup q s₁ (matchPattern setup.chars callRule q s₁)
        (courseOfPattern setup.chars callRule callCourse q s₁)) :
    Retraces setup (.seq p q) s (matchPattern setup.chars callRule (.seq p q) s)
      (courseOfPattern setup.chars callRule callCourse (.seq p q) s) := by
  intro hlimit seen hknows outcome r c htries
  simp only [matchPattern, courseOfPattern] at hlimit ⊢
  cases hrun : matchPattern setup.chars callRule p s with
  | mk ok s₁ =>
      rw [hrun] at hround hpath hlimit
      have hlimit₁ : s₁.tooDeep = none := by
        cases ok with
        | false => exact hlimit
        | true => exact hkeep.eq_none (s := s₁) hlimit
      cases htries with
      | leaf hleaf | leafFail hleaf => cases hleaf
      | seqFail hfirst =>
          obtain ⟨rfl, -⟩ := hround.of_none hlimit₁ hfirst
          obtain ⟨hfirstPath, hknows₁⟩ := hpath hlimit₁ seen hknows _ _ _ hfirst
          exact ⟨hfirstPath, hknows₁⟩
      | seq hfirst hrest =>
          obtain ⟨rfl, rfl, log, hmatches, hextends, hs₁⟩ := hround.of_some hlimit₁ hfirst
          obtain ⟨hfirstPath, hknows₁⟩ := hpath hlimit₁ seen hknows _ _ _ hfirst
          obtain ⟨hrestPath, hknows₂⟩ :=
            hsecond s₁ _ log hmatches hextends hs₁ hlimit _ hknows₁ _ _ _ hrest
          exact ⟨by dsimp only; rw [Course.abridge, hfirstPath, hrestPath], hknows₂.next⟩

theorem retraces_alt (hp : p.restores = true)
    (hkeep : KeepsLimit (matchPattern setup.chars callRule q))
    (hsecond : ∀ s₁ : State, s₁.cursor = s.cursor → s₁.depth = s.depth → Sound setup s₁ →
      Retraces setup q s₁ (matchPattern setup.chars callRule q s₁)
        (courseOfPattern setup.chars callRule callCourse q s₁)) :
    Retraces setup (.alt p q) s (matchPattern setup.chars callRule (.alt p q) s)
      (courseOfPattern setup.chars callRule callCourse (.alt p q) s) := by
  intro hlimit seen hknows outcome r c htries
  simp only [matchPattern, courseOfPattern] at hlimit ⊢
  cases hrun : matchPattern setup.chars callRule p s with
  | mk ok s₁ =>
      rw [hrun] at hround hpath hlimit
      have hlimit₁ : s₁.tooDeep = none := by
        cases ok with
        | true => exact hlimit
        | false => exact hkeep.eq_none (s := s₁) hlimit
      cases htries with
      | leaf hleaf | leafFail hleaf => cases hleaf
      | altFirst hfirst =>
          obtain ⟨rfl, -⟩ := hround.of_some hlimit₁ hfirst
          exact hpath hlimit₁ seen hknows _ _ _ hfirst
      | altSecond hfirst hrest =>
          obtain ⟨rfl, habandons, hs₁⟩ := hround.of_none hlimit₁ hfirst
          obtain ⟨hfirstPath, hknows₁⟩ := hpath hlimit₁ seen hknows _ _ _ hfirst
          have hcursor := (habandons.restored hp).1
          rw [← hcursor] at hrest
          obtain ⟨hrestPath, hknows₂⟩ :=
            hsecond s₁ hcursor habandons.depth hs₁ hlimit _ hknows₁ _ _ _ hrest
          exact ⟨by dsimp only; rw [Course.abridge, hfirstPath, hrestPath], hknows₂.next⟩

omit hround in
theorem retraces_group :
    Retraces setup (.group p) s (matchPattern setup.chars callRule (.group p) s)
      (courseOfPattern setup.chars callRule callCourse (.group p) s) := by
  intro hlimit seen hknows outcome r c htries
  have hbody := htries.of_group
  simp only [matchPattern, courseOfPattern] at hlimit ⊢
  cases hrun : matchPattern setup.chars callRule p s with
  | mk ok s₁ =>
      rw [hrun] at hpath hlimit
      have hlimit₁ : s₁.tooDeep = none := by cases ok <;> exact hlimit
      obtain ⟨hbodyPath, hknows₁⟩ := hpath hlimit₁ seen hknows _ _ _ hbody
      cases ok with
      | true => exact ⟨hbodyPath, hknows₁⟩
      | false => exact ⟨hbodyPath, hknows₁.of_memory rfl⟩

theorem retraces_opt :
    Retraces setup (.opt p) s (matchPattern setup.chars callRule (.opt p) s)
      (courseOfPattern setup.chars callRule callCourse (.opt p) s) := by
  intro hlimit seen hknows outcome r c htries
  simp only [matchPattern, courseOfPattern] at hlimit ⊢
  cases hrun : matchPattern setup.chars callRule p s with
  | mk ok s₁ =>
      rw [hrun] at hround hpath hlimit
      have hlimit₁ : s₁.tooDeep = none := by cases ok <;> exact hlimit
      cases htries with
      | leaf hleaf | leafFail hleaf => cases hleaf
      | optSome hbody =>
          obtain ⟨rfl, -⟩ := hround.of_some hlimit₁ hbody
          exact hpath hlimit₁ seen hknows _ _ _ hbody
      | optNone hbody =>
          obtain ⟨rfl, -⟩ := hround.of_none hlimit₁ hbody
          obtain ⟨hbodyPath, hknows₁⟩ := hpath hlimit₁ seen hknows _ _ _ hbody
          exact ⟨hbodyPath, hknows₁.of_memory rfl⟩

end Operators

theorem retraces_notAhead {callRule : Rule → Match} {callCourse : Rule → State → Course}
    (hpath : Retraces setup p { s with lookaheads := s.lookaheads + 1 }
      (matchPattern setup.chars callRule p { s with lookaheads := s.lookaheads + 1 })
      (courseOfPattern setup.chars callRule callCourse p { s with lookaheads := s.lookaheads + 1 })) :
    Retraces setup (.notAhead p) s (matchPattern setup.chars callRule (.notAhead p) s)
      (courseOfPattern setup.chars callRule callCourse (.notAhead p) s) := by
  intro hlimit seen hknows outcome r c htries
  have hlearned : ∀ {outcome' r' c'}, Tries setup.chars p s.cursor outcome' r' c' →
      courseOfPattern setup.chars callRule callCourse (.notAhead p) s =
        (Course.ahead c').abridge setup.reuse seen ∧
      Knows setup (matchPattern setup.chars callRule (.notAhead p) s).2
        ((Course.ahead c').remembered ++ seen) := by
    intro outcome' r' c' hbody
    obtain ⟨hbodyPath, hknows₁⟩ := hpath hlimit seen (hknows.of_memory rfl) _ _ _ hbody
    exact ⟨congrArg Course.ahead hbodyPath, hknows₁.of_memory rfl⟩
  cases htries with
  | leaf hleaf | leafFail hleaf => cases hleaf
  | notAhead hbody => exact hlearned hbody
  | notAheadFail hbody => exact hlearned hbody

theorem retraces_matchPattern {callRule : Rule → Match} {callCourse : Rule → State → Course}
    {fuel : Nat} (hkeeps : ∀ rule, KeepsLimit (callRule rule))
    (hcalls : CallsAdequately setup fuel callRule)
    (hpaths : CallsRetrace setup fuel callRule callCourse) (p : Pattern) {rank : Nat}
    {opens : Bool} (hguarded : p.guarded rank opens = true) {s : State} (hs : Sound setup s)
    (hroom : Room setup fuel rank opens s) :
    Retraces setup p s (matchPattern setup.chars callRule p s)
      (courseOfPattern setup.chars callRule callCourse p s) := by
  have hadequate : ∀ p {rank opens}, p.guarded rank opens = true → ∀ {s}, Sound setup s →
      Room setup fuel rank opens s →
      Adequate setup p s (matchPattern setup.chars callRule p s) := by
    intro p rank opens hguarded s hs hroom
    exact adequate_matchPattern hkeeps hcalls p hguarded hs hroom
  have hkeep (p : Pattern) : KeepsLimit (matchPattern setup.chars callRule p) :=
    keepsLimit_matchPattern hkeeps p
  induction p generalizing rank opens s with
  | char | range | any => exact retraces_matchChar rfl
  | stop | act => exact retraces_leaf rfl rfl
  | call rule =>
      simp only [Pattern.guarded, Bool.and_eq_true, decide_eq_true_eq] at hguarded
      obtain ⟨hrank, hopens⟩ := hguarded
      have hfuel := hroom.fuel
      refine hpaths rule s hs ⟨rule.rank_lt, by omega, hroom.depth, fun hstarts => ?_⟩
      rw [hstarts] at hopens
      exact hroom.depth_lt (by simpa using hopens)
  | seq p q ihp ihq =>
      simp only [Pattern.guarded, Bool.and_eq_true] at hguarded
      exact retraces_seq (hadequate p hguarded.1 hs hroom) (ihp hguarded.1 hs hroom) (hkeep q)
        fun s₁ r log hmatches hextends hs₁ =>
          ihq hguarded.2 hs₁ (hroom.next hmatches hextends.depth hs₁)
  | alt p q ihp ihq =>
      simp only [Pattern.guarded, Bool.and_eq_true] at hguarded
      exact retraces_alt (hadequate p hguarded.1.1 hs hroom) (ihp hguarded.1.1 hs hroom)
        hguarded.2 (hkeep q) fun s₁ hcursor hdepth hs₁ =>
          ihq hguarded.1.2 hs₁ (hroom.mono (Nat.le_of_eq hcursor.symm) hdepth)
  | group p ih => exact retraces_group (ih hguarded hs hroom)
  | star p ih =>
      simp only [Pattern.guarded, Bool.and_eq_true, Bool.not_eq_true'] at hguarded
      exact retraces_repeatMatch (hkeep p) (hadequate p) ih _ rank opens hguarded.1 s hs
        hroom (Nat.lt_succ_self _)
  | opt p ih => exact retraces_opt (hadequate p hguarded hs hroom) (ih hguarded hs hroom)
  | notAhead p ih =>
      have hinside : Sound setup { s with lookaheads := s.lookaheads + 1 } :=
        ⟨hs.cursor_le_size, hs.cursor_le_reach, hs.unlimited, hs.remembered⟩
      exact retraces_notAhead (ih hguarded hinside (hroom.mono (Nat.le_refl _) rfl))

/-- An attempt of a rule makes the attempts of its pattern. -/
theorem retraces_attempt {body : Match} {bodyCourse : State → Course}
    (hbody : Adequate setup rule.production s.enter (body s.enter))
    (hpath : Retraces setup rule.production s.enter (body s.enter) (bodyCourse s.enter))
    (hlimit : (attempt rule body s).2.tooDeep = none) (hknows : Knows setup s seen)
    {outcome : Option Nat} {r : Nat} {c : Course}
    (htries : Tries setup.chars (.call rule) s.cursor outcome r c) :
    ∃ failure c', c = .attempt rule s.cursor failure c' ∧
      courseOfAttempt rule body bodyCourse s =
        .attempt rule s.cursor failure (c'.abridge setup.reuse seen) ∧
      Knows setup (attempt rule body s).2 (c'.remembered ++ seen) := by
  unfold attempt at hlimit ⊢
  unfold courseOfAttempt
  cases hrun : body s.enter with
  | mk ok s₁ =>
      rw [hrun] at hbody hpath hlimit
      obtain ⟨furthest, hrecord⟩ := recordFailure_eq s₁ rule s.cursor s₁.reach
      have hlimit₁ : s₁.tooDeep = none := by
        cases ok with
        | true => exact hlimit
        | false => dsimp only at hlimit; rw [hrecord] at hlimit; exact hlimit
      cases outcome with
      | some j =>
          obtain ⟨c', rfl, htries'⟩ := htries.call_some
          obtain ⟨rfl, -⟩ := hbody.of_some hlimit₁ htries'
          obtain ⟨hbodyPath, hknows₁⟩ := hpath hlimit₁ seen (hknows.of_memory rfl) _ _ _ htries'
          exact ⟨_, c', rfl, by rw [← hbodyPath], hknows₁.of_memory rfl⟩
      | none =>
          obtain ⟨c', rfl, htries'⟩ := htries.call_none
          obtain ⟨rfl, habandons, -⟩ := hbody.of_none hlimit₁ htries'
          obtain ⟨hbodyPath, hknows₁⟩ := hpath hlimit₁ seen (hknows.of_memory rfl) _ _ _ htries'
          have hreach : s₁.reach = r := by
            rw [habandons.reach]
            exact Nat.max_eq_right htries'.le_reach
          dsimp only
          rw [hrecord]
          exact ⟨_, c', rfl, by rw [← hbodyPath, hreach], hknows₁.of_memory rfl⟩

theorem isRemembered_iff : rule.isRemembered = true ↔ rule = .noBinopExpression := by
  cases rule <;> decide

/-- Once a remembered rule has been attempted, its outcome is known there. -/
theorem Knows.insert {start r : Nat} {outcome failure : Option Nat} {c : Course}
    (hrule : rule.isRemembered = true) (h : Knows setup s (c.remembered ++ seen))
    (htries : Tries setup.chars (.call rule) start outcome r (.attempt rule start failure c))
    (hlookup : setup.reuse = true → ∀ rule' offset, rule'.isRemembered = true →
      ((s'.memory.lookup (rule', offset)).isSome = true ↔
        offset = start ∨ (s.memory.lookup (rule', offset)).isSome = true)) :
    Knows setup s' ((Course.attempt rule start failure c).remembered ++ seen) := by
  rw [Course.remembered_attempt hrule, List.cons_append]
  refine ⟨fun hreuse rule' offset hrule' => ?_,
    fun rule' offset outcome' r' c' hrule' hoffset h' => ?_⟩
  · rw [hlookup hreuse rule' offset hrule', h.lookup hreuse rule' offset hrule', List.mem_cons]
  · obtain rfl : rule' = rule :=
      (isRemembered_iff.mp hrule').trans (isRemembered_iff.mp hrule).symm
    rcases List.mem_cons.mp hoffset with rfl | hoffset
    · obtain ⟨-, -, rfl⟩ := h'.unique htries
      rw [Course.remembered_attempt hrule]
      exact List.cons_subset_cons _ (List.subset_append_left _ _)
    · exact List.subset_cons_of_subset _ (h.closed _ _ _ _ _ hrule' hoffset h')

theorem isSome_lookup_cons {offset start : Nat} {outcome : Memory}
    {memory : List ((Rule × Nat) × Memory)} :
    (List.lookup (rule, offset) (((rule, start), outcome) :: memory)).isSome = true ↔
      offset = start ∨ (List.lookup (rule, offset) memory).isSome = true := by
  rw [List.lookup_cons]
  by_cases hoffset : offset = start
  · simp [hoffset]
  · have hkey : ((rule, offset) == (rule, start)) = false := by simp [hoffset]
    rw [hkey]
    exact ⟨.inr, fun h => h.resolve_left hoffset⟩

/-- Where the outcome is known the rule is not attempted, and else it is known behind it. -/
theorem retraces_remember {body : Match} {bodyCourse : State → Course}
    (hrule : rule.isRemembered = true) (hreuse : setup.reuse = true)
    (hbody : Adequate setup rule.production s.enter (body s.enter))
    (hpath : Retraces setup rule.production s.enter (body s.enter) (bodyCourse s.enter)) :
    Retraces setup (.call rule) s (remember rule (attempt rule body) s)
      (match s.memory.lookup (rule, s.cursor) with
        | some _ => .nothing
        | none => courseOfAttempt rule body bodyCourse s.enter) := by
  intro hlimit seen hknows outcome r c htries
  have hlookup := hknows.lookup hreuse rule s.cursor hrule
  have hcourse : ∃ failure c', c = .attempt rule s.cursor failure c' := by
    cases outcome with
    | some j =>
        obtain ⟨c', rfl, -⟩ := htries.call_some
        exact ⟨_, c', rfl⟩
    | none =>
        obtain ⟨c', rfl, -⟩ := htries.call_none
        exact ⟨_, c', rfl⟩
  rw [remember_tooDeep] at hlimit
  cases hmemory : s.memory.lookup (rule, s.cursor) with
  | some remembered =>
      obtain ⟨failure, c', rfl⟩ := hcourse
      rw [hmemory] at hlookup
      have hseen : s.cursor ∈ seen := hlookup.mp rfl
      refine ⟨?_, (hknows.of_mem_iff fun x => ?_).of_memory ?_⟩
      · rw [hreuse, Course.abridge_attempt_known hrule hseen]
      · rw [List.mem_append]
        exact ⟨.inr, fun h => h.elim (fun hx => hknows.closed _ _ _ _ _ hrule hseen htries hx) id⟩
      · unfold remember
        rw [hmemory]
        cases remembered <;> rfl
  | none =>
      rw [hmemory] at hlimit hlookup
      have hnew : s.cursor ∉ seen := fun hseen => nomatch hlookup.mpr hseen
      obtain ⟨failure, c', rfl, hattempt, hknows'⟩ := retraces_attempt (s := s.enter) hbody hpath
        hlimit (hknows.of_memory rfl) htries
      refine ⟨?_, hknows'.insert hrule htries fun _ rule' offset hrule' => ?_⟩
      · exact hattempt.trans (Course.abridge_attempt fun h => hnew h.2).symm
      · obtain rfl : rule' = rule :=
          (isRemembered_iff.mp hrule').trans (isRemembered_iff.mp hrule).symm
        unfold remember
        rw [hmemory]
        cases hrun : attempt rule' body s.enter with
        | mk ok s₁ =>
            cases ok with
            | true => exact isSome_lookup_cons
            | false => exact isSome_lookup_cons

/-- An attempt that is not reused is made wherever it comes up. -/
theorem retraces_forgetful {body : Match} {bodyCourse : State → Course}
    (hforgetful : (rule.isRemembered && setup.reuse) = false)
    (hbody : Adequate setup rule.production s.enter (body s.enter))
    (hpath : Retraces setup rule.production s.enter (body s.enter) (bodyCourse s.enter)) :
    Retraces setup (.call rule) s (attempt rule body s) (courseOfAttempt rule body bodyCourse s) := by
  intro hlimit seen hknows outcome r c htries
  obtain ⟨failure, c', rfl, hattempt, hknows'⟩ := retraces_attempt hbody hpath hlimit hknows htries
  have habridge : ¬ ((setup.reuse && rule.isRemembered) = true ∧ s.cursor ∈ seen) := by
    rw [Bool.and_comm, hforgetful]
    exact fun h => Bool.false_ne_true h.1
  refine ⟨hattempt.trans (Course.abridge_attempt habridge).symm, ?_⟩
  cases hrule : rule.isRemembered with
  | true =>
      have hreuse : setup.reuse = false := by simpa [hrule] using hforgetful
      refine hknows'.insert hrule htries fun h => ?_
      rw [hreuse] at h
      cases h
  | false =>
      rw [Course.remembered_forgotten hrule]
      exact hknows'

/-- Below the limit a counted rule is attempted as if it were not counted. -/
theorem retraces_count {body : Match} {bodyCourse : State → Course}
    (hforgetful : rule.isRemembered = false)
    (hbody : Adequate setup rule.production { s with depth := s.depth + 1 }.enter
      (body { s with depth := s.depth + 1 }.enter))
    (hpath : Retraces setup rule.production { s with depth := s.depth + 1 }.enter
      (body { s with depth := s.depth + 1 }.enter)
      (bodyCourse { s with depth := s.depth + 1 }.enter)) :
    Retraces setup (.call rule) s (count setup.maxDepth (attempt rule body) s)
      (if s.tooDeep.isSome || s.depth ≥ setup.maxDepth then .nothing
        else courseOfAttempt rule body bodyCourse { s with depth := s.depth + 1 }) := by
  intro hlimit seen hknows outcome r c htries
  have hopen : s.tooDeep = none := keepsLimit_count.eq_none hlimit
  have hbelow : s.depth < setup.maxDepth := by
    refine Nat.not_le.mp fun hfull => ?_
    rw [count_of_full hopen hfull] at hlimit
    cases hlimit
  have hguard : ¬ (s.tooDeep.isSome || decide (s.depth ≥ setup.maxDepth)) = true := by
    simp [hopen, hbelow]
  have hinner := retraces_forgetful (by rw [hforgetful]; rfl) hbody hpath
  cases hrun : attempt rule body { s with depth := s.depth + 1 } with
  | mk ok s₁ =>
      rw [hrun] at hinner
      rw [count_of_room hopen hbelow hrun] at hlimit ⊢
      obtain ⟨hcourse, hknows'⟩ := hinner hlimit seen (hknows.of_memory rfl) _ _ _ htries
      exact ⟨by rw [if_neg hguard, hcourse], hknows'.of_memory rfl⟩

theorem retraces_call (setup : Setup) (fuel : Nat) :
    CallsRetrace setup fuel (call setup fuel) (courseOfCall setup fuel) := by
  induction fuel with
  | zero =>
      intro rule s _ hroom
      have := hroom.fuel
      omega
  | succ fuel ih =>
      intro rule s hs hroom
      have hrank := rule.rank_lt
      have hfuel := hroom.fuel
      have hbody : ∀ {s' : State}, Sound setup s' → Room setup fuel rule.rank
          (rule.startsExpression && !rule.isCounted) s' →
          Adequate setup rule.production s'.enter
            (matchPattern setup.chars (call setup fuel) rule.production s'.enter) ∧
          Retraces setup rule.production s'.enter
            (matchPattern setup.chars (call setup fuel) rule.production s'.enter)
            (courseOfPattern setup.chars (call setup fuel) (courseOfCall setup fuel)
              rule.production s'.enter) := by
        intro s' hs' hroom'
        have hguarded := Pattern.guarded_production rule
        have hroom' : Room setup fuel rule.rank (rule.startsExpression && !rule.isCounted)
            s'.enter := hroom'.mono (Nat.le_refl _) rfl
        exact ⟨adequate_matchPattern (keepsLimit_call setup fuel) (adequate_call setup fuel)
            rule.production hguarded hs'.enter hroom',
          retraces_matchPattern (keepsLimit_call setup fuel) (adequate_call setup fuel) ih
            rule.production hguarded hs'.enter hroom'⟩
      unfold call courseOfCall matchRule courseOfRule
      cases hcounted : rule.isCounted with
      | true =>
          have hinside : Sound setup { s with depth := s.depth + 1 } :=
            ⟨hs.cursor_le_size, hs.cursor_le_reach, hs.unlimited, hs.remembered⟩
          have hstarts : rule.startsExpression = true := by
            cases rule <;> first | rfl | cases hcounted
          have hforgetful : rule.isRemembered = false := by
            cases rule <;> first | rfl | cases hcounted
          obtain ⟨hadequate, hpath⟩ := hbody hinside
            ⟨by omega, by dsimp only; omega, hroom.depth_lt hstarts, fun h => by simp [hcounted] at h⟩
          exact retraces_count hforgetful hadequate hpath
      | false =>
          have hinner : Room setup fuel rule.rank (rule.startsExpression && !rule.isCounted) s := by
            refine ⟨by omega, by omega, hroom.depth, fun h => hroom.depth_lt ?_⟩
            exact (Bool.and_eq_true _ _ ▸ h).1
          obtain ⟨hadequate, hpath⟩ := hbody hs hinner
          cases hremembered : rule.isRemembered && setup.reuse with
          | true =>
              obtain ⟨hrule, hreuse⟩ := (Bool.and_eq_true _ _).mp hremembered
              exact retraces_remember hrule hreuse hadequate hpath
          | false => exact retraces_forgetful hremembered hadequate hpath

/-- A run below the nesting limit goes the way of the only course that the text has, less the
attempts whose outcome it remembers. -/
theorem course_eq_abridge {setup : Setup} (hlimit : (run setup).2.tooDeep = none)
    {outcome : Option Nat} {r : Nat} {c : Course}
    (htries : Tries setup.chars (.call .program) 0 outcome r c) :
    course setup = c.abridge setup.reuse [] := by
  have hroom := room_initial setup
  unfold run at hlimit
  unfold course
  generalize fuel setup.chars = fuel at hlimit hroom ⊢
  refine (retraces_call setup fuel .program .initial (sound_initial setup) hroom hlimit [] ⟨?_, ?_⟩ _ _ _
    htries).1
  · exact fun _ _ _ _ => ⟨fun h => (nomatch h), fun h => (nomatch h)⟩
  · exact fun _ _ _ _ _ _ h => nomatch h

end Retraces

end Matcher

end Sumscript

import Sumscript.Proofs.Adequacy

/-! # The course of a match

The course of a match keeps what the final state forgets: every attempt of a rule with the
attempts made inside it, in the order in which they were made. The furthest failure that a match
reports is the best of the failed attempts of its course.
-/

namespace Sumscript

/-- The attempts that a match makes on its way. -/
inductive Course where
  | nothing
  /-- One course after another. -/
  | next (first second : Course)
  /-- A course inside a lookahead. -/
  | ahead (inner : Course)
  /-- An attempt of a rule at an offset with the course of its pattern; `failure` says how far
  the attempt looked if it failed. -/
  | attempt (rule : Rule) (start : Nat) (failure : Option Nat) (inner : Course)

/-- An attempt of a counted rule at an offset while `others` counted rules are open. -/
structure Opening where
  offset : Nat
  others : Nat
deriving DecidableEq, Repr

namespace Course

/-- The attempts of counted rules in the order of their beginning, where `others` are open
around the course. -/
def openings (others : Nat) : Course → List Opening
  | .nothing => []
  | .next first second => first.openings others ++ second.openings others
  | .ahead inner => inner.openings others
  | .attempt rule start _ inner =>
    if rule.isCounted then ⟨start, others⟩ :: inner.openings (others + 1)
    else inner.openings others

/-- What the failure of an attempt is reported as. Lexical rules are not reported. -/
def reported (rule : Rule) (start : Nat) : Option Nat → List Token
  | some reach => if rule.isLexical then [] else [⟨.rule rule, start, reach⟩]
  | none => []

/-- The failed attempts in the order of their end, without lexical rules and lookaheads. -/
def failures : Course → List Token
  | .nothing => []
  | .next first second => first.failures ++ second.failures
  | .ahead _ => []
  | .attempt rule start failure inner => inner.failures ++ reported rule start failure

end Course

namespace Token

/-- Whether a failed attempt is reported rather than an earlier one: it looked further, or as far
from no smaller start. -/
def overtakes (t earlier : Token) : Bool :=
  t.stop > earlier.stop || (t.stop == earlier.stop && t.start ≥ earlier.start)

/-- The furthest of the attempts so far when one more has failed. -/
def orFurther (best : Option Token) (t : Token) : Option Token :=
  match best with
  | none => some t
  | some earlier => if t.overtakes earlier then some t else some earlier

end Token

namespace Matcher

/-- The course of a repetition. -/
def courseOfRepeat (body : Match) (bodyCourse : State → Course) : Nat → State → Course
  | 0, _ => .nothing
  | count + 1, s =>
    match body s with
    | (false, _) => bodyCourse s
    | (true, s') =>
      if s'.cursor == s.cursor then bodyCourse s
      else .next (bodyCourse s) (courseOfRepeat body bodyCourse count s')

/-- The course of a pattern, given how rules are matched and on which course. -/
def courseOfPattern (chars : Array Char) (callRule : Rule → Match)
    (callCourse : Rule → State → Course) : Pattern → State → Course
  | .char _ | .range _ _ | .any | .stop | .act _ => fun _ => .nothing
  | .call rule => callCourse rule
  | .seq first second => fun s =>
    match matchPattern chars callRule first s with
    | (false, _) => courseOfPattern chars callRule callCourse first s
    | (true, s') =>
      .next (courseOfPattern chars callRule callCourse first s)
        (courseOfPattern chars callRule callCourse second s')
  | .alt first second => fun s =>
    match matchPattern chars callRule first s with
    | (true, _) => courseOfPattern chars callRule callCourse first s
    | (false, s') =>
      .next (courseOfPattern chars callRule callCourse first s)
        (courseOfPattern chars callRule callCourse second s')
  | .star body => fun s =>
    courseOfRepeat (matchPattern chars callRule body)
      (courseOfPattern chars callRule callCourse body) (chars.size - s.cursor + 1) s
  | .group body | .opt body => courseOfPattern chars callRule callCourse body
  | .notAhead body => fun s =>
    .ahead (courseOfPattern chars callRule callCourse body
      { s with lookaheads := s.lookaheads + 1 })

/-- The course of an attempt of a rule. -/
def courseOfAttempt (rule : Rule) (body : Match) (bodyCourse : State → Course) : State → Course :=
  fun s =>
    match body s.enter with
    | (true, _) => .attempt rule s.cursor none (bodyCourse s.enter)
    | (false, s') => .attempt rule s.cursor (some s'.reach) (bodyCourse s.enter)

/-- The course of a rule: nothing is attempted past the nesting limit, nor where the outcome is
remembered. -/
def courseOfRule (setup : Setup) (rule : Rule) (body : Match) (bodyCourse : State → Course) :
    State → Course := fun s =>
  if rule.isCounted then
    if s.tooDeep.isSome || s.depth ≥ setup.maxDepth then .nothing
    else courseOfAttempt rule body bodyCourse { s with depth := s.depth + 1 }
  else if rule.isRemembered && setup.reuse then
    match s.memory.lookup (rule, s.cursor) with
    | some _ => .nothing
    | none => courseOfAttempt rule body bodyCourse s.enter
  else courseOfAttempt rule body bodyCourse s

/-- The course of a rule with at most `fuel` rules open inside each other. -/
def courseOfCall (setup : Setup) : Nat → Rule → State → Course
  | 0, _ => fun _ => .nothing
  | fuel + 1, rule =>
    courseOfRule setup rule (matchPattern setup.chars (call setup fuel) rule.production)
      (courseOfPattern setup.chars (call setup fuel) (courseOfCall setup fuel) rule.production)

/-- The course of matching a whole text against the grammar. -/
def course (setup : Setup) : Course :=
  courseOfCall setup (fuel setup.chars) .program .initial

/-- The state `s'` has as many rules and lookaheads open as `s`, and outside lookaheads its
furthest failure is the furthest of the one of `s` and those of a course. -/
structure Keeps (s s' : State) (c : Course) : Prop where
  depth : s'.depth = s.depth
  lookaheads : s'.lookaheads = s.lookaheads
  furthest : s'.furthest =
    if s.lookaheads = 0 then c.failures.foldl Token.orFurther s.furthest else s.furthest

/-- A way to match keeps what its course says, from every state. -/
def Follows (m : Match) (path : State → Course) : Prop :=
  ∀ s, Keeps s (m s).2 (path s)

section Follows

variable {s s' s'' : State} {c c' : Course}

theorem Keeps.nothing (hdepth : s'.depth = s.depth) (hlookaheads : s'.lookaheads = s.lookaheads)
    (hfurthest : s'.furthest = s.furthest) : Keeps s s' .nothing := by
  refine ⟨hdepth, hlookaheads, ?_⟩
  rw [hfurthest]
  split <;> rfl

theorem Keeps.next (h : Keeps s s' c) (h' : Keeps s' s'' c') : Keeps s s'' (.next c c') := by
  refine ⟨h'.depth.trans h.depth, h'.lookaheads.trans h.lookaheads, ?_⟩
  rw [h'.furthest, h.lookaheads, h.furthest, Course.failures, List.foldl_append]
  split <;> rfl

/-- Where a state differs from another one in neither its counters nor its failures, it keeps
the same. -/
theorem Keeps.congr {t t' : State} (h : Keeps s s' c) (hdepth : t.depth = s.depth)
    (hlookaheads : t.lookaheads = s.lookaheads) (hfurthest : t.furthest = s.furthest)
    (hdepth' : t'.depth = s'.depth) (hlookaheads' : t'.lookaheads = s'.lookaheads)
    (hfurthest' : t'.furthest = s'.furthest) : Keeps t t' c :=
  ⟨by rw [hdepth', hdepth, h.depth], by rw [hlookaheads', hlookaheads, h.lookaheads],
    by rw [hfurthest', hlookaheads, hfurthest, h.furthest]⟩

theorem Keeps.restore (place : Checkpoint) (h : Keeps s s' c) : Keeps s (s'.restore place) c :=
  h.congr rfl rfl rfl rfl rfl rfl

/-- Inside a lookahead failures are not reported, so there is nothing to keep of them. -/
theorem Keeps.ahead (place : Checkpoint)
    (h : Keeps { s with lookaheads := s.lookaheads + 1 } s' c) :
    Keeps s { s'.restore place with reach := s.reach, lookaheads := s'.lookaheads - 1 }
      (.ahead c) := by
  refine ⟨h.depth, congrArg (· - 1) h.lookaheads, h.furthest.trans ?_⟩
  rw [if_neg (Nat.succ_ne_zero _)]
  split <;> rfl

end Follows

/-! ## Relations along a course -/

/-- A relation between the state before a match, the state after it and the course of the match
that holds of a pattern if it holds of the parts that are matched, and of a counted rule if it
holds of its attempt. -/
structure Composes (R : State → State → Course → Prop) : Prop where
  nothing : ∀ {s s'}, s'.depth = s.depth → s'.lookaheads = s.lookaheads →
    s'.furthest = s.furthest → s'.memory = s.memory → R s s' .nothing
  next : ∀ {s s' s'' c c'}, R s s' c → R s' s'' c' → R s s'' (.next c c')
  restore : ∀ {s s' c} (place : Checkpoint), R s s' c → R s (s'.restore place) c
  ahead : ∀ {s s' c} (place : Checkpoint), R { s with lookaheads := s.lookaheads + 1 } s' c →
    R s { s'.restore place with reach := s.reach, lookaheads := s'.lookaheads - 1 } (.ahead c)
  deeper : ∀ {s s' c}, R { s with depth := s.depth + 1 } s' c →
    R s { s' with depth := s'.depth - 1 } c

/-- A way to match stands in a relation to its course, from every state. -/
def Traces (R : State → State → Course → Prop) (m : Match) (path : State → Course) : Prop :=
  ∀ s, R s (m s).2 (path s)

section Traces

variable {R : State → State → Course → Prop}

theorem traces_matchChar (hR : Composes R) (chars : Array Char) (accepts : Char → Bool) :
    Traces R (matchChar chars accepts) fun _ => .nothing := by
  intro s
  unfold matchChar
  split
  · split <;> exact hR.nothing rfl rfl rfl rfl
  · exact hR.nothing rfl rfl rfl rfl

theorem traces_repeatMatch (hR : Composes R) {body : Match} {bodyCourse : State → Course}
    (hbody : Traces R body bodyCourse) (count : Nat) (s : State) :
    R s (repeatMatch body count s) (courseOfRepeat body bodyCourse count s) := by
  induction count generalizing s with
  | zero => exact hR.nothing rfl rfl rfl rfl
  | succ count ih =>
      have hround := hbody s
      rw [repeatMatch, courseOfRepeat]
      cases hrun : body s with
      | mk ok s' =>
          rw [hrun] at hround
          cases ok with
          | false => exact hR.restore _ hround
          | true =>
              dsimp only
              split
              · exact hround
              · exact hR.next hround (ih s')

theorem traces_matchPattern (hR : Composes R) {chars : Array Char} {callRule : Rule → Match}
    {callCourse : Rule → State → Course}
    (hcall : ∀ rule, Traces R (callRule rule) (callCourse rule)) (p : Pattern) :
    Traces R (matchPattern chars callRule p) (courseOfPattern chars callRule callCourse p) := by
  induction p with
  | char | range | any => exact traces_matchChar hR chars _
  | stop | act => exact fun s => hR.nothing rfl rfl rfl rfl
  | call rule => exact hcall rule
  | seq p q ihp ihq =>
      intro s
      have hfirst := ihp s
      simp only [matchPattern, courseOfPattern]
      cases hrun : matchPattern chars callRule p s with
      | mk ok s' =>
          rw [hrun] at hfirst
          cases ok with
          | false => exact hfirst
          | true => exact hR.next hfirst (ihq s')
  | alt p q ihp ihq =>
      intro s
      have hfirst := ihp s
      simp only [matchPattern, courseOfPattern]
      cases hrun : matchPattern chars callRule p s with
      | mk ok s' =>
          rw [hrun] at hfirst
          cases ok with
          | false => exact hR.next hfirst (ihq s')
          | true => exact hfirst
  | star p ih => exact fun s => traces_repeatMatch hR ih _ s
  | group p ih | opt p ih =>
      intro s
      have hbody := ih s
      simp only [matchPattern, courseOfPattern]
      cases hrun : matchPattern chars callRule p s with
      | mk ok s' =>
          rw [hrun] at hbody
          cases ok with
          | false => exact hR.restore _ hbody
          | true => exact hbody
  | notAhead p ih => exact fun s => hR.ahead _ (ih { s with lookaheads := s.lookaheads + 1 })

/-- A rule is attempted where it is neither past the nesting limit nor known. Elsewhere nothing is
attempted. -/
theorem traces_matchRule (hR : Composes R) {setup : Setup} {rule : Rule} {body : Match}
    {path : State → Course}
    (hattempt : (rule.isRemembered && setup.reuse) = false →
      Traces R (attempt rule body) (courseOfAttempt rule body path))
    (hremember : (rule.isRemembered && setup.reuse) = true → ∀ s,
      s.memory.lookup (rule, s.cursor) = none →
        R s (remember rule (attempt rule body) s).2 (courseOfAttempt rule body path s.enter)) :
    Traces R (matchRule setup rule body) (courseOfRule setup rule body path) := by
  intro s
  unfold matchRule courseOfRule
  by_cases hcounted : rule.isCounted = true
  · have hforgotten : rule.isRemembered = false := by
      cases rule <;> first | rfl | cases hcounted
    simp only [hcounted, if_true]
    unfold count
    by_cases hstuck : s.tooDeep.isSome = true
    · simp only [hstuck, if_true, Bool.true_or]
      exact hR.nothing rfl rfl rfl rfl
    · by_cases hfull : s.depth ≥ setup.maxDepth
      · simp only [hstuck, hfull, if_true, decide_true, Bool.or_true]
        exact hR.nothing rfl rfl rfl rfl
      · simp only [hstuck, hfull, if_false, decide_false, Bool.or_false]
        exact hR.deeper (hattempt (by rw [hforgotten]; rfl) { s with depth := s.depth + 1 })
  · rw [if_neg hcounted, if_neg hcounted]
    cases hremembered : rule.isRemembered && setup.reuse with
    | false => exact hattempt hremembered s
    | true =>
        simp only [if_true]
        cases hlookup : s.memory.lookup (rule, s.cursor) with
        | none => exact hremember hremembered s hlookup
        | some outcome =>
            unfold remember
            rw [hlookup]
            cases outcome with
            | matched => exact hR.nothing rfl rfl rfl rfl
            | failed => exact hR.nothing rfl rfl rfl rfl

end Traces

/-! ## The furthest failure of a course -/

section Follows

theorem keeps_composes : Composes Keeps where
  nothing hdepth hlookaheads hfurthest _ := .nothing hdepth hlookaheads hfurthest
  next := .next
  restore := .restore
  ahead := .ahead
  deeper h := ⟨congrArg (· - 1) h.depth, h.lookaheads, h.furthest⟩

theorem follows_matchPattern {chars : Array Char} {callRule : Rule → Match}
    {callCourse : Rule → State → Course} (hcall : ∀ rule, Follows (callRule rule) (callCourse rule))
    (p : Pattern) :
    Follows (matchPattern chars callRule p) (courseOfPattern chars callRule callCourse p) :=
  traces_matchPattern keeps_composes hcall p

theorem recordFailure_furthest (s : State) (rule : Rule) (start reach : Nat) :
    (s.recordFailure rule start reach).furthest =
      if s.lookaheads = 0 then
        (Course.reported rule start (some reach)).foldl Token.orFurther s.furthest
      else s.furthest := by
  unfold State.recordFailure Course.reported
  by_cases hahead : s.lookaheads = 0
  · cases hlexical : rule.isLexical with
    | true => simp [hahead]
    | false =>
        cases hbest : s.furthest with
        | none => simp [hahead, Token.orFurther]
        | some best =>
            simp only [hahead, Nat.lt_irrefl, decide_false, Bool.false_or, Bool.false_eq_true,
              if_false, if_true, List.foldl_cons, List.foldl_nil, Token.orFurther, Token.overtakes]
            split
            next hfurther => exact (if_pos hfurther).symm
            next hfurther => exact hbest.trans (if_neg hfurther).symm
  · simp [hahead, Nat.pos_of_ne_zero hahead]

theorem follows_attempt {rule : Rule} {body : Match} {bodyCourse : State → Course}
    (hbody : Follows body bodyCourse) :
    Follows (attempt rule body) (courseOfAttempt rule body bodyCourse) := by
  intro s
  have hround := hbody s.enter
  unfold attempt courseOfAttempt
  cases hrun : body s.enter with
  | mk ok s' =>
      rw [hrun] at hround
      cases ok with
      | true =>
          refine ⟨hround.depth, hround.lookaheads, ?_⟩
          rw [Course.failures, Course.reported, List.append_nil]
          exact hround.furthest
      | false =>
          obtain ⟨furthest, hrecord⟩ := recordFailure_eq s' rule s.cursor s'.reach
          have hfurthest := recordFailure_furthest s' rule s.cursor s'.reach
          rw [hrecord] at hfurthest
          dsimp only
          rw [hrecord]
          refine ⟨hround.depth, hround.lookaheads, hfurthest.trans ?_⟩
          rw [hround.lookaheads, hround.furthest, Course.failures, List.foldl_append]
          change (if s.lookaheads = 0 then _ else _) = _
          split
          next hahead => rw [if_pos (show s.enter.lookaheads = 0 from hahead)]; rfl
          next hahead => exact if_neg (show ¬ s.enter.lookaheads = 0 from hahead)

theorem follows_matchRule {setup : Setup} {rule : Rule} {body : Match}
    {bodyCourse : State → Course} (hbody : Follows body bodyCourse) :
    Follows (matchRule setup rule body) (courseOfRule setup rule body bodyCourse) := by
  refine traces_matchRule keeps_composes (fun _ => follows_attempt hbody) fun _ s hunknown => ?_
  have hround : Keeps s.enter (attempt rule body s.enter).2
      (courseOfAttempt rule body bodyCourse s.enter) := follows_attempt hbody s.enter
  unfold remember
  rw [hunknown]
  dsimp only
  split
  next s' hrun =>
    rw [hrun] at hround
    exact hround.congr rfl rfl rfl rfl rfl rfl
  next s' hrun =>
    rw [hrun] at hround
    exact hround.congr rfl rfl rfl rfl rfl rfl

theorem follows_call (setup : Setup) (fuel : Nat) (rule : Rule) :
    Follows (call setup fuel rule) (courseOfCall setup fuel rule) := by
  induction fuel generalizing rule with
  | zero => exact fun s => .nothing rfl rfl rfl
  | succ fuel ih => exact follows_matchRule (follows_matchPattern ih rule.production)

/-- The furthest failure of a run is the furthest of the failures of its course. -/
theorem furthest_run (setup : Setup) :
    (run setup).2.furthest = (course setup).failures.foldl Token.orFurther none := by
  unfold run course
  generalize fuel setup.chars = fuel
  exact (follows_call setup fuel .program .initial).furthest

end Follows

end Matcher

end Sumscript

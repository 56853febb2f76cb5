import Sumscript.Proofs.FurthestAttempt

/-! # Matching takes back what fails

Whatever a pattern does, it only adds to the log and never moves the cursor to the left, even
where it fails halfway. So the checkpoint at the start of a rule is all that is needed to undo the
rule: wherever a run calls one, a failure leaves the cursor and the log as they were and a success
only adds to both. A group, an option, the last round of a repetition and a lookahead are undone in
the same way. The counters of open expressions and lookaheads end where they began, and what was
learned on the way never goes back. The nesting limit and remembered outcomes make no difference to
this.
-/

namespace Sumscript

namespace Token

/-- However many attempts fail, the furthest one is never behind the furthest one before them. -/
theorem exists_foldl_orFurther (failures : List Token) {best : Option Token} {t : Token}
    (hbest : best = some t) :
    ∃ t', failures.foldl orFurther best = some t' ∧
      (t.stop < t'.stop ∨ t.stop = t'.stop ∧ t.start ≤ t'.start) := by
  induction failures generalizing best t with
  | nil => exact ⟨t, hbest, .inr ⟨rfl, Nat.le_refl _⟩⟩
  | cons u rest ih =>
      rw [List.foldl_cons, hbest, orFurther]
      split
      next hovertakes =>
        obtain ⟨t', hfurthest, hbehind⟩ := ih (t := u) rfl
        have hfurther := overtakes_iff.mp hovertakes
        exact ⟨t', hfurthest, by omega⟩
      next => exact ih rfl

end Token

namespace Matcher

/-- The cursor and the ends of remembered matches lie within the text, and no remembered match
ends before its start. -/
structure InText (chars : Array Char) (s : State) : Prop where
  cursor_le_size : s.cursor ≤ chars.size
  remembered : ∀ rule offset stop reach tokens,
    s.memory.lookup (rule, offset) = some (.matched stop reach tokens) →
      offset ≤ stop ∧ stop ≤ chars.size

/-- A match has only added to a state: it stays in the text, not to the left, and the log holds
what it held under the new tokens, which come first. -/
structure Grows (chars : Array Char) (s s' : State) : Prop where
  inText : InText chars s'
  cursor_le : s.cursor ≤ s'.cursor
  log : s.log <:+ s'.log
  le_reach : s.reach ≤ s'.reach

/-- The outcome of a match from a state stays in the text. A failure leaves the cursor and the
log as they were; a success moves the cursor on and adds to the log, in which the newest tokens
come first. -/
structure RollsBack (chars : Array Char) (s : State) (result : Bool × State) : Prop where
  inText : InText chars result.2
  failed : result.1 = false → result.2.cursor = s.cursor ∧ result.2.log = s.log
  matched : result.1 = true → s.cursor ≤ result.2.cursor ∧ s.log <:+ result.2.log
  le_reach : s.reach ≤ result.2.reach

/-- The outcome of a match from a state rolls back, has as many rules and lookaheads open as
before, and reports no failure behind the one that was furthest before. -/
structure Transacts (chars : Array Char) (s : State) (result : Bool × State) : Prop
    extends RollsBack chars s result where
  depth : result.2.depth = s.depth
  lookaheads : result.2.lookaheads = s.lookaheads
  furthest : ∀ t, s.furthest = some t → ∃ t', result.2.furthest = some t' ∧
    (t.stop < t'.stop ∨ t.stop = t'.stop ∧ t.start ≤ t'.start)

/-- A way to match only adds to every state in the text, whether it succeeds or fails. -/
def Adds (chars : Array Char) (m : Match) : Prop :=
  ∀ s, InText chars s → Grows chars s (m s).2

/-- A way to match rolls back from every state in the text. -/
def Undoes (chars : Array Char) (m : Match) : Prop :=
  ∀ s, InText chars s → RollsBack chars s (m s)

section Undoes

variable {chars : Array Char} {s s' s'' : State} {ok : Bool} {result : Bool × State}

theorem Grows.refl (hs : InText chars s) : Grows chars s s :=
  ⟨hs, Nat.le_refl _, List.suffix_refl _, Nat.le_refl _⟩

theorem Grows.trans (h : Grows chars s s') (h' : Grows chars s' s'') : Grows chars s s'' :=
  ⟨h'.inText, Nat.le_trans h.cursor_le h'.cursor_le, h.log.trans h'.log,
    Nat.le_trans h.le_reach h'.le_reach⟩

theorem RollsBack.moved (h : Grows chars s s') : RollsBack chars s (true, s') :=
  ⟨h.inText, fun hok => Bool.noConfusion hok, fun _ => ⟨h.cursor_le, h.log⟩, h.le_reach⟩

/-- What leaves the cursor and the log alone may fail as well as succeed. -/
theorem RollsBack.unmoved (hs' : InText chars s') (hcursor : s'.cursor = s.cursor)
    (hlog : s'.log = s.log) (hreach : s.reach ≤ s'.reach) : RollsBack chars s (ok, s') :=
  ⟨hs', fun _ => ⟨hcursor, hlog⟩,
    fun _ => ⟨Nat.le_of_eq hcursor.symm, hlog ▸ List.suffix_refl _⟩, hreach⟩

theorem RollsBack.refl (hs : InText chars s) : RollsBack chars s (ok, s) :=
  .unmoved hs rfl rfl (Nat.le_refl _)

theorem RollsBack.grows (h : RollsBack chars s result) : Grows chars s result.2 := by
  cases hok : result.1 with
  | true => exact ⟨h.inText, (h.matched hok).1, (h.matched hok).2, h.le_reach⟩
  | false =>
      obtain ⟨hcursor, hlog⟩ := h.failed hok
      exact ⟨h.inText, Nat.le_of_eq hcursor.symm, hlog ▸ List.suffix_refl _, h.le_reach⟩

/-- Going back undoes all that was added. -/
theorem Grows.restore (h : Grows chars s s') (hs : InText chars s) :
    RollsBack chars s (ok, s'.restore s.checkpoint) :=
  .unmoved ⟨hs.cursor_le_size, h.inText.remembered⟩ rfl (State.restore_log h.log) h.le_reach

theorem Grows.back (h : Grows chars s s') (hs : InText chars s) :
    Grows chars s (s'.restore s.checkpoint) := by
  have hback : RollsBack chars s (false, s'.restore s.checkpoint) := h.restore hs
  exact hback.grows

theorem undoes_matchChar (accepts : Char → Bool) : Undoes chars (matchChar chars accepts) := by
  intro s hs
  unfold matchChar
  split
  next c hchar =>
    split
    · have hlt : s.cursor < chars.size := (Array.getElem?_eq_some_iff.mp hchar).1
      exact .moved ⟨⟨hlt, hs.remembered⟩, Nat.le_succ _, List.suffix_refl _, Nat.le_max_left _ _⟩
    · exact .refl hs
  next => exact .refl hs

theorem grows_repeatMatch {body : Match} (hbody : Adds chars body) (count : Nat)
    (hs : InText chars s) : Grows chars s (repeatMatch body count s) := by
  induction count generalizing s with
  | zero => exact .refl hs
  | succ count ih =>
      have hround := hbody s hs
      rw [repeatMatch]
      split
      next s' hrun =>
        rw [hrun] at hround
        exact hround.back hs
      next s' hrun =>
        rw [hrun] at hround
        split
        · exact hround
        · exact hround.trans (ih hround.inText)

/-- Every pattern only adds if the rules roll back: a sequence that fails keeps what its first part
has added. -/
theorem adds_matchPattern {callRule : Rule → Match} (hcall : ∀ rule, Undoes chars (callRule rule))
    (p : Pattern) : Adds chars (matchPattern chars callRule p) := by
  induction p with
  | char | range | any => exact fun s hs => (undoes_matchChar _ s hs).grows
  | stop => exact fun s hs => .refl hs
  | act =>
      intro s hs
      exact ⟨⟨hs.cursor_le_size, hs.remembered⟩, Nat.le_refl _, List.suffix_cons _ _,
        Nat.le_refl _⟩
  | call rule => exact fun s hs => (hcall rule s hs).grows
  | seq p q ihp ihq =>
      intro s hs
      have hfirst := ihp s hs
      simp only [matchPattern]
      split
      next s' hrun =>
        rw [hrun] at hfirst
        exact hfirst
      next s' hrun =>
        rw [hrun] at hfirst
        exact hfirst.trans (ihq s' hfirst.inText)
  | alt p q ihp ihq =>
      intro s hs
      have hfirst := ihp s hs
      simp only [matchPattern]
      split
      next s' hrun =>
        rw [hrun] at hfirst
        exact hfirst
      next s' hrun =>
        rw [hrun] at hfirst
        exact hfirst.trans (ihq s' hfirst.inText)
  | star p ih => exact fun s hs => grows_repeatMatch ih _ hs
  | group p ih | opt p ih =>
      intro s hs
      have hbody := ih s hs
      simp only [matchPattern]
      split
      next s' hrun =>
        rw [hrun] at hbody
        exact hbody
      next s' hrun =>
        rw [hrun] at hbody
        exact hbody.back hs
  | notAhead p ih =>
      intro s hs
      have hbody := ih { s with lookaheads := s.lookaheads + 1 } ⟨hs.cursor_le_size, hs.remembered⟩
      -- Even the reach goes back behind a lookahead; what was remembered in it stays.
      have hback : RollsBack chars s (matchPattern chars callRule (.notAhead p) s) :=
        .unmoved ⟨hs.cursor_le_size, hbody.inText.remembered⟩ rfl (State.restore_log hbody.log)
          (Nat.le_refl _)
      exact hback.grows

theorem InText.enter (hs : InText chars s) : InText chars s.enter :=
  ⟨hs.cursor_le_size, hs.remembered⟩

/-- A rule that was entered and is left has done to the state around it what it did inside. -/
theorem RollsBack.leave (h : RollsBack chars s.enter (ok, s')) :
    RollsBack chars s (ok, s'.leave s) :=
  ⟨⟨h.inText.cursor_le_size, h.inText.remembered⟩, h.failed, h.matched, Nat.le_max_left _ _⟩

/-- A rule rolls back because its pattern only adds. -/
theorem undoes_attempt {rule : Rule} {body : Match} (hbody : Adds chars body) :
    Undoes chars (attempt rule body) := by
  intro s hs
  have hround := hbody s.enter hs.enter
  unfold attempt
  split
  next s' hrun =>
    rw [hrun] at hround
    have hpushed : Grows chars s.enter (s'.push (.rule rule) s.cursor) :=
      ⟨⟨hround.inText.cursor_le_size, hround.inText.remembered⟩, hround.cursor_le,
        hround.log.trans (List.suffix_cons _ _), hround.le_reach⟩
    exact (RollsBack.moved hpushed).leave
  next s' hrun =>
    rw [hrun] at hround
    obtain ⟨furthest, hrecord⟩ := recordFailure_eq s' rule s.cursor s'.reach
    rw [hrecord]
    have hrecorded : Grows chars s.enter { s' with furthest } :=
      ⟨⟨hround.inText.cursor_le_size, hround.inText.remembered⟩, hround.cursor_le, hround.log,
        hround.le_reach⟩
    exact (hrecorded.restore hs.enter).leave

theorem InText.remember {rule : Rule} {offset : Nat} {outcome : Memory} (hs : InText chars s)
    (houtcome : ∀ stop reach tokens, outcome = .matched stop reach tokens →
      offset ≤ stop ∧ stop ≤ chars.size) :
    InText chars { s with memory := ((rule, offset), outcome) :: s.memory } := by
  refine ⟨hs.cursor_le_size, ?_⟩
  intro rule' offset' stop reach tokens hlookup
  rw [List.lookup_cons] at hlookup
  split at hlookup
  next hkey =>
    cases eq_of_beq hkey
    exact houtcome stop reach tokens (Option.some.inj hlookup)
  next => exact hs.remembered _ _ _ _ _ hlookup

theorem undoes_remember {rule : Rule} {body : Match} (hbody : Undoes chars body) :
    Undoes chars (remember rule body) := by
  intro s hs
  unfold remember
  split
  next stop reach tokens hlookup =>
    obtain ⟨hstart, hstop⟩ := hs.remembered _ _ _ _ _ hlookup
    exact .moved
      ⟨⟨hstop, hs.remembered⟩, hstart, List.suffix_append _ _, Nat.le_max_left _ _⟩
  next reach _ =>
    exact .unmoved ⟨hs.cursor_le_size, hs.remembered⟩ rfl rfl (Nat.le_max_left _ _)
  next =>
    have hround := hbody s.enter hs.enter
    split
    next s' hrun =>
      rw [hrun] at hround
      have hstart : s.cursor ≤ s'.cursor := (hround.matched rfl).1
      have houtcome : ∀ stop reach tokens,
          Memory.matched s'.cursor s'.reach (s'.loggedSince s.checkpoint) =
            .matched stop reach tokens → s.cursor ≤ stop ∧ stop ≤ chars.size := by
        rintro stop reach tokens ⟨⟩
        exact ⟨hstart, hround.inText.cursor_le_size⟩
      exact RollsBack.leave
        ⟨hround.inText.remember houtcome, hround.failed, hround.matched, hround.le_reach⟩
    next s' hrun =>
      rw [hrun] at hround
      have houtcome : ∀ stop reach tokens, Memory.failed s'.reach =
          .matched stop reach tokens → s.cursor ≤ stop ∧ stop ≤ chars.size :=
        fun _ _ _ h => Memory.noConfusion h
      exact RollsBack.leave
        ⟨hround.inText.remember houtcome, hround.failed, hround.matched, hround.le_reach⟩

theorem undoes_count {maxDepth : Nat} {body : Match} (hbody : Undoes chars body) :
    Undoes chars (count maxDepth body) := by
  intro s hs
  unfold count
  split
  · exact .refl hs
  · split
    · exact .unmoved ⟨hs.cursor_le_size, hs.remembered⟩ rfl rfl (Nat.le_refl _)
    · have hround := hbody { s with depth := s.depth + 1 } ⟨hs.cursor_le_size, hs.remembered⟩
      exact ⟨⟨hround.inText.cursor_le_size, hround.inText.remembered⟩, hround.failed,
        hround.matched, hround.le_reach⟩

theorem undoes_matchRule {setup : Setup} {rule : Rule} {body : Match}
    (hbody : Adds setup.chars body) : Undoes setup.chars (matchRule setup rule body) := by
  unfold matchRule
  split
  · exact undoes_count (undoes_attempt hbody)
  · split
    · exact undoes_remember (undoes_attempt hbody)
    · exact undoes_attempt hbody

theorem undoes_call (setup : Setup) (fuel : Nat) (rule : Rule) :
    Undoes setup.chars (call setup fuel rule) := by
  induction fuel generalizing rule with
  | zero => exact fun s hs => .refl hs
  | succ fuel ih => exact undoes_matchRule (adds_matchPattern ih rule.production)

end Undoes

/-! ## The states of a run -/

/-- The state in which a rule called in `s` starts to match its pattern. It does not start past
the nesting limit, nor where its outcome is remembered. -/
def State.opened? (setup : Setup) (rule : Rule) (s : State) : Option State :=
  if rule.isCounted then
    if s.tooDeep.isSome || s.depth ≥ setup.maxDepth then none
    else some { s with depth := s.depth + 1 }.enter
  else if rule.isRemembered && setup.reuse then
    match s.memory.lookup (rule, s.cursor) with
    | some _ => none
    | none => some s.enter.enter
  else some s.enter

/-- Matching a pattern from one state calls a rule in another. -/
inductive Enters (chars : Array Char) (callRule : Rule → Match) :
    Pattern → State → Rule → State → Prop where
  | call {rule : Rule} {s : State} : Enters chars callRule (.call rule) s rule s
  | seqFirst {p q : Pattern} {s t : State} {rule : Rule} (h : Enters chars callRule p s rule t) :
      Enters chars callRule (.seq p q) s rule t
  | seqSecond {p q : Pattern} {s s' t : State} {rule : Rule}
      (hrun : matchPattern chars callRule p s = (true, s'))
      (h : Enters chars callRule q s' rule t) : Enters chars callRule (.seq p q) s rule t
  | altFirst {p q : Pattern} {s t : State} {rule : Rule} (h : Enters chars callRule p s rule t) :
      Enters chars callRule (.alt p q) s rule t
  | altSecond {p q : Pattern} {s s' t : State} {rule : Rule}
      (hrun : matchPattern chars callRule p s = (false, s'))
      (h : Enters chars callRule q s' rule t) : Enters chars callRule (.alt p q) s rule t
  | group {p : Pattern} {s t : State} {rule : Rule} (h : Enters chars callRule p s rule t) :
      Enters chars callRule (.group p) s rule t
  | starFirst {p : Pattern} {s t : State} {rule : Rule} (h : Enters chars callRule p s rule t) :
      Enters chars callRule (.star p) s rule t
  | starMore {p : Pattern} {s s' t : State} {rule : Rule}
      (hrun : matchPattern chars callRule p s = (true, s'))
      (h : Enters chars callRule (.star p) s' rule t) : Enters chars callRule (.star p) s rule t
  | opt {p : Pattern} {s t : State} {rule : Rule} (h : Enters chars callRule p s rule t) :
      Enters chars callRule (.opt p) s rule t
  | notAhead {p : Pattern} {s t : State} {rule : Rule}
      (h : Enters chars callRule p { s with lookaheads := s.lookaheads + 1 } rule t) :
      Enters chars callRule (.notAhead p) s rule t

/-- A rule that is called in one state calls another rule in another state, with `fuel` left for
the other. -/
def Calls (setup : Setup) (fuel : Nat) (rule : Rule) (s : State) (rule' : Rule) (t : State) :
    Prop :=
  ∃ opened, s.opened? setup rule = some opened ∧
    Enters setup.chars (call setup fuel) rule.production opened rule' t

/-- A run calls a rule in a state, with `fuel` left for it. -/
inductive Reached (setup : Setup) : Nat → Rule → State → Prop where
  | start : Reached setup (fuel setup.chars) .program .initial
  | inner {fuel : Nat} {rule rule' : Rule} {s t : State}
      (houter : Reached setup (fuel + 1) rule s) (hcalls : Calls setup fuel rule s rule' t) :
      Reached setup fuel rule' t

/-- Matching a pattern from one state comes to matching a part of it from another one. A
repetition comes to itself behind every round. -/
inductive Visits (chars : Array Char) (callRule : Rule → Match) :
    Pattern → State → Pattern → State → Prop where
  | here {p : Pattern} {s : State} : Visits chars callRule p s p s
  | seqFirst {p q r : Pattern} {s t : State} (h : Visits chars callRule p s r t) :
      Visits chars callRule (.seq p q) s r t
  | seqSecond {p q r : Pattern} {s s' t : State}
      (hrun : matchPattern chars callRule p s = (true, s'))
      (h : Visits chars callRule q s' r t) : Visits chars callRule (.seq p q) s r t
  | altFirst {p q r : Pattern} {s t : State} (h : Visits chars callRule p s r t) :
      Visits chars callRule (.alt p q) s r t
  | altSecond {p q r : Pattern} {s s' t : State}
      (hrun : matchPattern chars callRule p s = (false, s'))
      (h : Visits chars callRule q s' r t) : Visits chars callRule (.alt p q) s r t
  | group {p r : Pattern} {s t : State} (h : Visits chars callRule p s r t) :
      Visits chars callRule (.group p) s r t
  | starFirst {p r : Pattern} {s t : State} (h : Visits chars callRule p s r t) :
      Visits chars callRule (.star p) s r t
  | starMore {p r : Pattern} {s s' t : State}
      (hrun : matchPattern chars callRule p s = (true, s'))
      (h : Visits chars callRule (.star p) s' r t) : Visits chars callRule (.star p) s r t
  | opt {p r : Pattern} {s t : State} (h : Visits chars callRule p s r t) :
      Visits chars callRule (.opt p) s r t
  | notAhead {p r : Pattern} {s t : State}
      (h : Visits chars callRule p { s with lookaheads := s.lookaheads + 1 } r t) :
      Visits chars callRule (.notAhead p) s r t

/-- Where a group, an option or a round of a repetition fails, and behind every lookahead, the
cursor and the log are as they were. -/
def TakesBack (chars : Array Char) (callRule : Rule → Match) (s : State) (p : Pattern) : Prop :=
  (∀ body, p = .group body ∨ p = .opt body ∨ p = .star body →
      (matchPattern chars callRule body s).1 = false →
        (matchPattern chars callRule p s).2.cursor = s.cursor ∧
        (matchPattern chars callRule p s).2.log = s.log) ∧
    ∀ body, p = .notAhead body →
      (matchPattern chars callRule p s).2.cursor = s.cursor ∧
      (matchPattern chars callRule p s).2.log = s.log

section Reached

variable {chars : Array Char} {setup : Setup} {callRule other : Rule → Match}

theorem repeatMatch_congr {p : Pattern} (count : Nat) (s : State)
    (hbody : ∀ s, (∀ rule t, Enters chars callRule p s rule t → callRule rule t = other rule t) →
      matchPattern chars callRule p s = matchPattern chars other p s)
    (h : ∀ rule t, Enters chars callRule (.star p) s rule t → callRule rule t = other rule t) :
    repeatMatch (matchPattern chars callRule p) count s =
      repeatMatch (matchPattern chars other p) count s := by
  induction count generalizing s with
  | zero => rfl
  | succ count ih =>
      have hround := hbody s fun rule t henters => h rule t (.starFirst henters)
      rw [repeatMatch, repeatMatch, ← hround]
      split
      · rfl
      next s' hrun =>
        split
        · rfl
        · exact ih s' fun rule t henters => h rule t (.starMore hrun henters)

/-- The calls that a pattern enters are all that it makes: what else rules would do is never
asked for. -/
theorem matchPattern_congr {p : Pattern} {s : State}
    (h : ∀ rule t, Enters chars callRule p s rule t → callRule rule t = other rule t) :
    matchPattern chars callRule p s = matchPattern chars other p s := by
  induction p generalizing s with
  | char | range | any | stop | act => rfl
  | call rule => exact h rule s .call
  | seq p q ihp ihq =>
      have hfirst := ihp fun rule t henters => h rule t (.seqFirst henters)
      simp only [matchPattern, ← hfirst]
      split
      · rfl
      next s' hrun => rw [ihq fun rule t henters => h rule t (.seqSecond hrun henters)]
  | alt p q ihp ihq =>
      have hfirst := ihp fun rule t henters => h rule t (.altFirst henters)
      simp only [matchPattern, ← hfirst]
      split
      · rfl
      next s' hrun => exact ihq fun rule t henters => h rule t (.altSecond hrun henters)
  | star p ih => exact congrArg (true, ·) (repeatMatch_congr _ s (fun s => ih) h)
  | group p ih =>
      have hbody := ih fun rule t henters => h rule t (.group henters)
      simp only [matchPattern, hbody]
  | opt p ih =>
      have hbody := ih fun rule t henters => h rule t (.opt henters)
      simp only [matchPattern, hbody]
  | notAhead p ih =>
      have hbody := ih fun rule t henters => h rule t (.notAhead henters)
      simp only [matchPattern, hbody]

theorem attempt_congr {rule : Rule} {s : State} {body body' : Match}
    (h : body s.enter = body' s.enter) : attempt rule body s = attempt rule body' s := by
  unfold attempt
  rw [h]

/-- The state in which a rule is opened is the only one from which its pattern is matched. -/
theorem matchRule_congr {rule : Rule} {s : State} {body body' : Match}
    (h : ∀ opened, s.opened? setup rule = some opened → body opened = body' opened) :
    matchRule setup rule body s = matchRule setup rule body' s := by
  unfold matchRule
  unfold State.opened? at h
  by_cases hcounted : rule.isCounted = true
  · rw [if_pos hcounted] at h
    rw [if_pos hcounted, if_pos hcounted]
    unfold count
    split
    · rfl
    next hstuck =>
      split
      · rfl
      next hfull =>
        have hbody := h _ (if_neg (by simp [hstuck, hfull]))
        rw [attempt_congr hbody]
  · rw [if_neg hcounted] at h
    rw [if_neg hcounted, if_neg hcounted]
    split
    next hremembered =>
      rw [if_pos hremembered] at h
      unfold remember
      split
      · rfl
      · rfl
      next hlookup =>
        rw [hlookup] at h
        rw [attempt_congr (h _ rfl)]
    next hforgotten =>
      rw [if_neg hforgotten] at h
      exact attempt_congr (h _ rfl)

/-- A call is decided by the calls that it makes. -/
theorem call_congr {fuel : Nat} {rule : Rule} {s : State}
    (h : ∀ rule' t, Calls setup fuel rule s rule' t → call setup fuel rule' t = other rule' t) :
    call setup (fuel + 1) rule s =
      matchRule setup rule (matchPattern setup.chars other rule.production) s := by
  apply matchRule_congr
  intro opened hopened
  apply matchPattern_congr
  exact fun rule' t henters => h rule' t ⟨opened, hopened, henters⟩

theorem Enters.visits {p : Pattern} {rule : Rule} {s t : State} (h : Enters chars callRule p s rule t) :
    Visits chars callRule p s (.call rule) t := by
  induction h with
  | call => exact .here
  | seqFirst _ ih => exact .seqFirst ih
  | seqSecond hrun _ ih => exact .seqSecond hrun ih
  | altFirst _ ih => exact .altFirst ih
  | altSecond hrun _ ih => exact .altSecond hrun ih
  | group _ ih => exact .group ih
  | starFirst _ ih => exact .starFirst ih
  | starMore hrun _ ih => exact .starMore hrun ih
  | opt _ ih => exact .opt ih
  | notAhead _ ih => exact .notAhead ih

theorem InText.of_run {p : Pattern} {s s' : State} {ok : Bool}
    (hcall : ∀ rule, Undoes chars (callRule rule)) (hs : InText chars s)
    (hrun : matchPattern chars callRule p s = (ok, s')) : InText chars s' := by
  have hgrows := adds_matchPattern hcall p s hs
  rw [hrun] at hgrows
  exact hgrows.inText

theorem InText.visits {p q : Pattern} {s t : State} (hcall : ∀ rule, Undoes chars (callRule rule))
    (hvisits : Visits chars callRule p s q t) (hs : InText chars s) : InText chars t := by
  induction hvisits with
  | here => exact hs
  | seqFirst _ ih | altFirst _ ih | group _ ih | starFirst _ ih | opt _ ih => exact ih hs
  | seqSecond hrun _ ih | altSecond hrun _ ih | starMore hrun _ ih =>
      exact ih (hs.of_run hcall hrun)
  | notAhead _ ih => exact ih ⟨hs.cursor_le_size, hs.remembered⟩

theorem takesBack_of_inText {p : Pattern} {s : State}
    (hcall : ∀ rule, Undoes chars (callRule rule)) (hs : InText chars s) :
    TakesBack chars callRule s p := by
  refine ⟨fun body hp hfailed => ?_, fun body hp => ?_⟩
  · have hbody := adds_matchPattern hcall body s hs
    cases hrun : matchPattern chars callRule body s with
    | mk ok s' =>
        rw [hrun] at hbody hfailed
        obtain rfl : ok = false := hfailed
        have hlog := State.restore_log hbody.log
        rcases hp with rfl | rfl | rfl
        · simp only [matchPattern, hrun]
          exact ⟨rfl, hlog⟩
        · simp only [matchPattern, hrun]
          exact ⟨rfl, hlog⟩
        · simp only [matchPattern, repeatMatch, hrun]
          exact ⟨rfl, hlog⟩
  · subst hp
    have hbody := adds_matchPattern hcall body { s with lookaheads := s.lookaheads + 1 }
      ⟨hs.cursor_le_size, hs.remembered⟩
    exact ⟨rfl, State.restore_log hbody.log⟩

theorem InText.opened {rule : Rule} {s opened : State} (hs : InText chars s)
    (hopened : s.opened? setup rule = some opened) : InText chars opened := by
  unfold State.opened? at hopened
  split at hopened
  · split at hopened
    · cases hopened
    · cases hopened
      exact ⟨hs.cursor_le_size, hs.remembered⟩
  · split at hopened
    · split at hopened
      · cases hopened
      · cases hopened
        exact hs.enter.enter
    · cases hopened
      exact hs.enter

theorem inText_of_reached {fuel : Nat} {rule : Rule} {s : State}
    (hreached : Reached setup fuel rule s) : InText setup.chars s := by
  induction hreached with
  | start => exact ⟨Nat.zero_le _, fun _ _ _ _ _ hlookup => nomatch hlookup⟩
  | inner _ hcalls ih =>
      obtain ⟨opened, hopened, henters⟩ := hcalls
      exact (ih.opened hopened).visits (undoes_call setup _) henters.visits

/-- Whatever else a match does, the furthest failure does not go back. -/
theorem Keeps.exists_furthest {s s' : State} {c : Course} (h : Keeps s s' c) {t : Token}
    (ht : s.furthest = some t) :
    ∃ t', s'.furthest = some t' ∧ (t.stop < t'.stop ∨ t.stop = t'.stop ∧ t.start ≤ t'.start) := by
  rw [h.furthest]
  split
  · exact Token.exists_foldl_orFurther _ ht
  · exact ⟨t, ht, .inr ⟨rfl, Nat.le_refl _⟩⟩

/-- Every production that a run calls is a transaction: a failure leaves the cursor and the log
as they were, and a success leaves the cursor in the text, not to the left, and the log extended.
The counters end where they began, and neither the reach nor the furthest failure goes back. Inside
the production the operators that note a checkpoint go back to it where they fail. -/
theorem transacts_of_reached {fuel : Nat} {rule : Rule} {s : State}
    (hreached : Reached setup fuel rule s) :
    Transacts setup.chars s (call setup fuel rule s) ∧
      ∀ inner opened p t, fuel = inner + 1 → s.opened? setup rule = some opened →
        Visits setup.chars (call setup inner) rule.production opened p t →
          TakesBack setup.chars (call setup inner) t p := by
  have hs := inText_of_reached hreached
  have hkeeps := follows_call setup fuel rule s
  refine ⟨⟨undoes_call setup fuel rule s hs, hkeeps.depth, hkeeps.lookaheads,
    fun t ht => hkeeps.exists_furthest ht⟩, fun inner opened p t _ hopened hvisits => ?_⟩
  exact takesBack_of_inText (undoes_call setup inner)
    ((hs.opened hopened).visits (undoes_call setup inner) hvisits)

/-- A call without arguments as the whole text. -/
def plainCall : Setup :=
  ⟨#['f', '(', ')'], 256, true⟩

/-- The state behind the blanks in front of the call, of which there are none. -/
def behindBlanks : State :=
  (call plainCall 108 .spaces State.initial.enter).2

/-- Looking for a blank in front of the call leaves nothing behind. The call is then tried as an
assignment, which gets past its variable. -/
theorem transacts_of_reached_plainCall :
    (matchPattern plainCall.chars (call plainCall 107) (.star (.call .space))
      State.initial.enter.enter).2.log = [] ∧
    ∃ fuel s, Reached plainCall fuel .assign s ∧ s.cursor = 0 ∧ s.reach = 0 ∧
      s.log = [⟨.rule .spaces, 0, 0⟩] ∧ (call plainCall fuel .assign s).1 = false ∧
      (call plainCall fuel .assign s).2.cursor = 0 ∧
      (call plainCall fuel .assign s).2.log = [⟨.rule .spaces, 0, 0⟩] ∧
      (call plainCall fuel .assign s).2.reach = 1 := by
  have hblanks : matchPattern plainCall.chars (call plainCall 108) (.call .spaces)
      State.initial.enter = (true, behindBlanks) := Prod.ext rfl rfl
  have hstart : Reached plainCall 109 .program .initial := .start
  have hspaces : Reached plainCall 108 .spaces State.initial.enter :=
    .inner hstart ⟨_, rfl, .seqFirst .call⟩
  have hstatements : Reached plainCall 108 .statements behindBlanks :=
    .inner hstart ⟨_, rfl, .seqSecond hblanks (.seqFirst .call)⟩
  have hstatement : Reached plainCall 107 .statement behindBlanks.enter :=
    .inner hstatements ⟨_, rfl, .seqFirst .call⟩
  have hassign : Reached plainCall 106 .assign behindBlanks.enter.enter :=
    .inner hstatement ⟨_, rfl, .seqFirst (.altFirst .call)⟩
  have hnoBlank : (matchPattern plainCall.chars (call plainCall 107) (.call .space)
      State.initial.enter.enter).1 = false := rfl
  have hfailed : (call plainCall 106 .assign behindBlanks.enter.enter).1 = false := rfl
  have hcursor : behindBlanks.cursor = 0 := rfl
  have hlogged : behindBlanks.log = [⟨.rule .spaces, 0, 0⟩] := rfl
  obtain ⟨-, hoperators⟩ := transacts_of_reached hspaces
  obtain ⟨hstar, -⟩ := hoperators 107 _ _ _ rfl rfl .here
  obtain ⟨hcursor', hlog⟩ := (transacts_of_reached hassign).1.failed hfailed
  exact ⟨(hstar _ (.inr (.inr rfl)) hnoBlank).2, 106, _, hassign, hcursor, hcursor, hlogged,
    hfailed, hcursor'.trans hcursor, hlog.trans hlogged, rfl⟩

end Reached

end Matcher

end Sumscript

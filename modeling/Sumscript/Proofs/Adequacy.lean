import Sumscript.Grammar.Tokenize
import Sumscript.Proofs.RuleOrder

/-! # The matcher finds the verdicts of the rules

Below the nesting limit the matcher ends every attempt as the rules say, whether an outcome was
remembered or found anew, and it never runs out of open rules. A limit that is not smaller than
the text is never reached, because every open expression starts behind the one around it.

Every attempt only adds to the log, so going back leaves the tokens from before.
-/

namespace Sumscript

namespace Matcher

section Restore

variable {s s' : State}

/-- A log that was only added to is what it was before when a state goes back. -/
theorem State.restore_log (h : s.log <:+ s'.log) : (s'.restore s.checkpoint).log = s.log := by
  obtain ⟨new, hlog⟩ := h
  simp [State.restore, State.checkpoint, ← hlog]

theorem State.loggedSince_eq {new : List Token} (h : s'.log = new ++ s.log) :
    s'.loggedSince s.checkpoint = new := by
  simp [State.loggedSince, State.checkpoint, h]

end Restore

/-- A way to match that goes no further once the nesting limit was reached. -/
def KeepsLimit (m : Match) : Prop :=
  ∀ s, s.tooDeep ≠ none → (m s).2.tooDeep = s.tooDeep

section Limit

/-- A match that ends below the limit began below it. -/
theorem KeepsLimit.eq_none {m : Match} {s : State} (h : KeepsLimit m)
    (hs : (m s).2.tooDeep = none) : s.tooDeep = none := by
  refine Classical.byContradiction fun hlimit => hlimit ?_
  rw [← h s hlimit]
  exact hs

theorem KeepsLimit.eq_some {m : Match} {s : State} (h : KeepsLimit m) {offset : Nat}
    (hs : s.tooDeep = some offset) : (m s).2.tooDeep = some offset := by
  rw [h s (by rw [hs]; exact Option.some_ne_none offset), hs]

/-- Recording a failure changes nothing but the furthest failure. -/
theorem recordFailure_eq (s : State) (rule : Rule) (start reach : Nat) :
    ∃ furthest, s.recordFailure rule start reach = { s with furthest } := by
  unfold State.recordFailure
  split
  · exact ⟨_, rfl⟩
  · cases s.furthest with
    | none => exact ⟨_, rfl⟩
    | some best =>
        dsimp only
        split
        · exact ⟨_, rfl⟩
        · exact ⟨_, rfl⟩

theorem keepsLimit_matchChar (chars : Array Char) (accepts : Char → Bool) :
    KeepsLimit (matchChar chars accepts) := by
  intro s _
  unfold matchChar
  split
  · split <;> rfl
  · rfl

theorem keepsLimit_repeatMatch {body : Match} (hbody : KeepsLimit body) (count : Nat) (s : State)
    (hs : s.tooDeep ≠ none) : (repeatMatch body count s).tooDeep = s.tooDeep := by
  induction count generalizing s with
  | zero => rfl
  | succ count ih =>
      have hround := hbody s hs
      rw [repeatMatch]
      split
      next hrun => rw [hrun] at hround; exact hround
      next s' hrun =>
        rw [hrun] at hround
        split
        · exact hround
        · rw [ih s' (by rw [hround]; exact hs)]
          exact hround

theorem keepsLimit_matchPattern {chars : Array Char} {callRule : Rule → Match}
    (hcall : ∀ rule, KeepsLimit (callRule rule)) (p : Pattern) :
    KeepsLimit (matchPattern chars callRule p) := by
  induction p with
  | char | range | any => exact keepsLimit_matchChar chars _
  | stop => exact fun s _ => rfl
  | act => exact fun s _ => rfl
  | call rule => exact hcall rule
  | seq p q ihp ihq =>
      intro s hs
      have hfirst := ihp s hs
      simp only [matchPattern]
      split
      next hrun => rw [hrun] at hfirst; exact hfirst
      next s' hrun =>
        rw [hrun] at hfirst
        exact (ihq s' (fun h => hs (hfirst.symm.trans h))).trans hfirst
  | alt p q ihp ihq =>
      intro s hs
      have hfirst := ihp s hs
      simp only [matchPattern]
      split
      next hrun => rw [hrun] at hfirst; exact hfirst
      next s' hrun =>
        rw [hrun] at hfirst
        exact (ihq s' (fun h => hs (hfirst.symm.trans h))).trans hfirst
  | star p ih => exact fun s hs => keepsLimit_repeatMatch ih _ s hs
  | group p ih | opt p ih =>
      intro s hs
      have hbody := ih s hs
      simp only [matchPattern]
      split
      next hrun => rw [hrun] at hbody; exact hbody
      next hrun => rw [hrun] at hbody; exact hbody
  | notAhead p ih => exact fun s hs => ih { s with lookaheads := s.lookaheads + 1 } hs

theorem keepsLimit_attempt {rule : Rule} {body : Match} (hbody : KeepsLimit body) :
    KeepsLimit (attempt rule body) := by
  intro s hs
  have hround := hbody s.enter hs
  unfold attempt
  split
  next hrun => rw [hrun] at hround; exact hround
  next s' hrun =>
    rw [hrun] at hround
    obtain ⟨furthest, hrecord⟩ := recordFailure_eq s' rule s.cursor s'.reach
    rw [hrecord]
    exact hround

theorem keepsLimit_remember {rule : Rule} {body : Match} (hbody : KeepsLimit body) :
    KeepsLimit (remember rule body) := by
  intro s hs
  have hround := hbody s.enter hs
  unfold remember
  split
  · rfl
  · rfl
  · split
    next hrun => rw [hrun] at hround; exact hround
    next hrun => rw [hrun] at hround; exact hround

theorem keepsLimit_count {maxDepth : Nat} {body : Match} : KeepsLimit (count maxDepth body) := by
  intro s hs
  unfold count
  rw [if_pos (Option.isSome_iff_ne_none.mpr hs)]

theorem keepsLimit_call (setup : Setup) (fuel : Nat) (rule : Rule) :
    KeepsLimit (call setup fuel rule) := by
  induction fuel generalizing rule with
  | zero => exact fun s _ => rfl
  | succ fuel ih =>
      have hbody : KeepsLimit (attempt rule
          (matchPattern setup.chars (call setup fuel) rule.production)) :=
        keepsLimit_attempt (keepsLimit_matchPattern ih rule.production)
      unfold call matchRule
      split
      · exact keepsLimit_count
      · split
        · exact keepsLimit_remember hbody
        · exact hbody

end Limit

/-- The verdict that a remembered outcome stands for. -/
def Memory.verdict : Memory → Verdict
  | .matched stop reach tokens => .matched stop reach tokens.reverse
  | .failed reach => .failed reach

/-- The state `s'` has looked further than `s`, has more tokens, and the same counters. -/
structure Extends (s s' : State) (reach : Nat) (log : TokenLog) : Prop where
  reach : s'.reach = max s.reach reach
  log : s'.log = log.reverse ++ s.log
  depth : s'.depth = s.depth
  lookaheads : s'.lookaheads = s.lookaheads

/-- The state `s'` has looked further than `s`, has the same counters, and may have tokens more
from what matched before a pattern failed. A pattern that restores leaves none of them. -/
structure Abandons (p : Pattern) (s s' : State) (reach : Nat) : Prop where
  reach : s'.reach = max s.reach reach
  log : s.log <:+ s'.log
  depth : s'.depth = s.depth
  lookaheads : s'.lookaheads = s.lookaheads
  restored : p.restores = true → s'.cursor = s.cursor ∧ s'.log = s.log

/-- The outcome of an attempt from a state shows a verdict. -/
def Reflects (p : Pattern) (s : State) : Verdict → Bool × State → Prop
  | .matched stop reach log, (ok, s') => ok = true ∧ s'.cursor = stop ∧ Extends s s' reach log
  | .failed reach, (ok, s') => ok = false ∧ Abandons p s s' reach

/-- A state below the nesting limit that remembers only what the rules say. -/
structure Sound (setup : Setup) (s : State) : Prop where
  cursor_le_size : s.cursor ≤ setup.chars.size
  cursor_le_reach : s.cursor ≤ s.reach
  unlimited : s.tooDeep = none
  remembered : ∀ rule offset memory, s.memory.lookup (rule, offset) = some memory →
    Matches setup.chars (.call rule) offset memory.verdict

/-- There is fuel for the rules below a rank at the cursor and for all rules behind it, and
fewer expressions are open than characters are consumed. -/
structure Room (setup : Setup) (fuel rank : Nat) (opens : Bool) (s : State) : Prop where
  rank_le : rank ≤ Rule.rankBound
  fuel : Rule.rankBound * (setup.chars.size - s.cursor) + rank ≤ fuel
  depth : s.depth ≤ s.cursor
  depth_lt : opens = true → s.depth < s.cursor

/-- The outcome of an attempt from a state is right, unless the nesting limit was reached, which
only a limit smaller than the text can be. -/
structure Adequate (setup : Setup) (p : Pattern) (s : State) (result : Bool × State) : Prop where
  verdict : result.2.tooDeep = none → ∃ v, Matches setup.chars p s.cursor v ∧
    Reflects p s v result ∧ Sound setup result.2
  limited : result.2.tooDeep ≠ none → setup.maxDepth < setup.chars.size

section Verdicts

variable {setup : Setup} {s s' : State} {p q : Pattern}

theorem Sound.restore (hs : Sound setup s) (hs' : Sound setup s') (hreach : s.reach ≤ s'.reach) :
    Sound setup (s'.restore s.checkpoint) :=
  ⟨hs.cursor_le_size, Nat.le_trans hs.cursor_le_reach hreach, hs'.unlimited, hs'.remembered⟩

theorem Room.mono {fuel rank : Nat} {opens : Bool} (hroom : Room setup fuel rank opens s)
    (hcursor : s.cursor ≤ s'.cursor) (hdepth : s'.depth = s.depth) :
    Room setup fuel rank opens s' := by
  obtain ⟨hrank, hfuel, hle, hlt⟩ := hroom
  have hrest : setup.chars.size - s'.cursor ≤ setup.chars.size - s.cursor := by omega
  have hscaled := Nat.mul_le_mul_left Rule.rankBound hrest
  exact ⟨hrank, by omega, by omega, fun h => by have := hlt h; omega⟩

/-- Behind a consumed character every rule may be tried, expressions included. -/
theorem Room.behind {fuel rank : Nat} {opens : Bool} (hroom : Room setup fuel rank opens s)
    (hcursor : s.cursor < s'.cursor) (hsize : s'.cursor ≤ setup.chars.size)
    (hdepth : s'.depth = s.depth) : Room setup fuel Rule.rankBound true s' := by
  obtain ⟨-, hfuel, hle, -⟩ := hroom
  have hrest : setup.chars.size - s'.cursor + 1 ≤ setup.chars.size - s.cursor := by omega
  have hscaled := Nat.mul_le_mul_left Rule.rankBound hrest
  rw [Nat.mul_add, Nat.mul_one] at hscaled
  exact ⟨Nat.le_refl _, by omega, by omega, fun _ => by omega⟩

theorem Room.next {fuel rank : Nat} {opens : Bool} {reach : Nat} {log : TokenLog}
    (hroom : Room setup fuel rank opens s)
    (hmatches : Matches setup.chars p s.cursor (.matched s'.cursor reach log))
    (hdepth : s'.depth = s.depth) (hs' : Sound setup s') :
    Room setup fuel (if p.nullable then rank else Rule.rankBound) (!p.nullable || opens) s' := by
  cases hnullable : p.nullable with
  | true => exact hroom.mono hmatches.bounds.1 hdepth
  | false =>
      have hlt := Pattern.lt_of_not_nullable hmatches hnullable
      exact hroom.behind hlt hs'.cursor_le_size hdepth

theorem Extends.refl (hreach : s.cursor ≤ s.reach) : Extends s s s.cursor [] :=
  ⟨(Nat.max_eq_left hreach).symm, rfl, rfl, rfl⟩

theorem Extends.trans {s₁ s₂ : State} {reach reach' : Nat} {log log' : TokenLog}
    (h : Extends s s₁ reach log) (h' : Extends s₁ s₂ reach' log') :
    Extends s s₂ (max reach reach') (log ++ log') := by
  refine ⟨?_, ?_, h'.depth.trans h.depth, h'.lookaheads.trans h.lookaheads⟩
  · rw [h'.reach, h.reach, Nat.max_assoc]
  · rw [h'.log, h.log, List.reverse_append, List.append_assoc]

theorem Extends.suffix {reach : Nat} {log : TokenLog} (h : Extends s s' reach log) :
    s.log <:+ s'.log :=
  ⟨log.reverse, h.log.symm⟩

theorem Abandons.le_reach {reach : Nat} (h : Abandons p s s' reach) : s.reach ≤ s'.reach := by
  rw [h.reach]
  exact Nat.le_max_left _ _

/-- What is back where it was has nothing left to take back. -/
theorem Extends.abandons {reach : Nat} (h : Extends s s' reach []) (hcursor : s'.cursor = s.cursor) :
    Abandons p s s' reach :=
  ⟨h.reach, h.suffix, h.depth, h.lookaheads, fun _ => ⟨hcursor, h.log⟩⟩

/-- A state that goes back keeps what it learned. -/
theorem Abandons.restore {reach : Nat} (h : Abandons p s s' reach) :
    Extends s (s'.restore s.checkpoint) reach [] :=
  ⟨h.reach, State.restore_log h.log, h.depth, h.lookaheads⟩

theorem Abandons.extends {reach : Nat} (h : Abandons p s s' reach) (hp : p.restores = true) :
    Extends s s' reach [] :=
  ⟨h.reach, (h.restored hp).2, h.depth, h.lookaheads⟩

/-- After a pattern that restores another one starts from the same place. -/
theorem Abandons.trans {s₁ s₂ : State} {reach reach' : Nat} (h : Abandons p s s₁ reach)
    (hp : p.restores = true) (h' : Abandons q s₁ s₂ reach') :
    Abandons (.alt p q) s s₂ (max reach reach') := by
  obtain ⟨hcursor, hlog⟩ := h.restored hp
  refine ⟨?_, h.log.trans h'.log, h'.depth.trans h.depth, h'.lookaheads.trans h.lookaheads,
    fun hrestores => ?_⟩
  · rw [h'.reach, h.reach, Nat.max_assoc]
  · obtain ⟨hcursor', hlog'⟩ := h'.restored ((Bool.and_eq_true _ _).mp hrestores).2
    exact ⟨hcursor'.trans hcursor, hlog'.trans hlog⟩

/-- What fails behind a match leaves the tokens of the match. -/
theorem Extends.trans_abandons {s₁ s₂ : State} {reach reach' : Nat} {log : TokenLog}
    (h : Extends s s₁ reach log) (h' : Abandons q s₁ s₂ reach') :
    Abandons (.seq p q) s s₂ (max reach reach') := by
  refine ⟨?_, h.suffix.trans h'.log, h'.depth.trans h.depth, h'.lookaheads.trans h.lookaheads,
    fun hrestores => Bool.noConfusion hrestores⟩
  rw [h'.reach, h.reach, Nat.max_assoc]

theorem Adequate.matched {reach : Nat} {log : TokenLog}
    (hmatches : Matches setup.chars p s.cursor (.matched s'.cursor reach log))
    (hextends : Extends s s' reach log) (hsound : Sound setup s') :
    Adequate setup p s (true, s') :=
  ⟨fun _ => ⟨_, hmatches, ⟨rfl, rfl, hextends⟩, hsound⟩, fun h => absurd hsound.unlimited h⟩

theorem Adequate.failed {reach : Nat}
    (hmatches : Matches setup.chars p s.cursor (.failed reach))
    (habandons : Abandons p s s' reach) (hsound : Sound setup s') :
    Adequate setup p s (false, s') :=
  ⟨fun _ => ⟨_, hmatches, ⟨rfl, habandons⟩, hsound⟩, fun h => absurd hsound.unlimited h⟩

theorem Adequate.of_limited {s₀ : State} {r result : Bool × State} (h : Adequate setup q s₀ r)
    (hlimit : r.2.tooDeep ≠ none) (hkeeps : result.2.tooDeep = r.2.tooDeep) :
    Adequate setup p s result :=
  ⟨fun hnone => absurd (hkeeps.symm.trans hnone) hlimit, fun _ => h.limited hlimit⟩

theorem Adequate.of_true (h : Adequate setup p s (true, s')) (hlimit : s'.tooDeep = none) :
    ∃ reach log, Matches setup.chars p s.cursor (.matched s'.cursor reach log) ∧
      Extends s s' reach log ∧ Sound setup s' := by
  obtain ⟨v, hmatches, hreflects, hsound⟩ := h.verdict hlimit
  cases v with
  | matched stop reach log =>
      obtain ⟨-, rfl, hextends⟩ := hreflects
      exact ⟨reach, log, hmatches, hextends, hsound⟩
  | failed => cases hreflects.1

theorem Adequate.of_false (h : Adequate setup p s (false, s')) (hlimit : s'.tooDeep = none) :
    ∃ reach, Matches setup.chars p s.cursor (.failed reach) ∧ Abandons p s s' reach ∧
      Sound setup s' := by
  obtain ⟨v, hmatches, hreflects, hsound⟩ := h.verdict hlimit
  cases v with
  | matched => cases hreflects.1
  | failed reach => exact ⟨reach, hmatches, hreflects.2, hsound⟩

/-- A state at which an attempt that read one character or none ends. -/
theorem adequate_matchChar {accepts : Char → Bool} (hs : Sound setup s)
    (hok : ∀ c, setup.chars[s.cursor]? = some c → accepts c = true →
      Matches setup.chars p s.cursor (.matched (s.cursor + 1) (s.cursor + 1) []))
    (hfail : (∀ c, setup.chars[s.cursor]? = some c → accepts c = false) →
      Matches setup.chars p s.cursor (.failed s.cursor)) :
    Adequate setup p s (matchChar setup.chars accepts s) := by
  have hnone : (∀ c, setup.chars[s.cursor]? = some c → accepts c = false) →
      Adequate setup p s (false, s) := by
    intro h
    exact .failed (hfail h) ((Extends.refl hs.cursor_le_reach).abandons rfl) hs
  unfold matchChar
  split
  next c hchar =>
    split
    next haccepts =>
      have hlt := (Array.getElem?_eq_some_iff.mp hchar).1
      refine .matched (hok c hchar haccepts) ⟨rfl, rfl, rfl, rfl⟩ ?_
      refine ⟨hlt, ?_, hs.unlimited, hs.remembered⟩
      exact Nat.le_max_right _ _
    next hrefuses =>
      refine hnone fun c' hchar' => ?_
      rw [hchar] at hchar'
      cases hchar'
      exact (Bool.not_eq_true _).mp hrefuses
  next hend =>
    refine hnone fun c hchar => ?_
    rw [hend] at hchar
    cases hchar

/-- What the matcher does with a rule is right wherever there is room for the rule. -/
def CallsAdequately (setup : Setup) (fuel : Nat) (callRule : Rule → Match) : Prop :=
  ∀ rule s, Sound setup s → Room setup fuel (rule.rank + 1) rule.startsExpression s →
    Adequate setup (.call rule) s (callRule rule s)

theorem adequate_repeatMatch {body : Match} {fuel : Nat} (hp : p.nullable = false)
    (hkeeps : KeepsLimit body)
    (hbody : ∀ {rank opens}, p.guarded rank opens = true → ∀ {s}, Sound setup s →
      Room setup fuel rank opens s → Adequate setup p s (body s))
    (count rank : Nat) (opens : Bool) (hguarded : p.guarded rank opens = true) (s : State)
    (hs : Sound setup s) (hroom : Room setup fuel rank opens s)
    (hcount : setup.chars.size - s.cursor < count) :
    Adequate setup (.star p) s (true, repeatMatch body count s) := by
  induction count generalizing rank opens s with
  | zero => omega
  | succ count ih =>
      have hround := hbody hguarded hs hroom
      rw [repeatMatch]
      cases hrun : body s with
      | mk ok s₁ =>
          rw [hrun] at hround
          cases ok with
          | false =>
              by_cases hlimit : s₁.tooDeep = none
              · obtain ⟨reach, hmatches, habandons, hs₁⟩ := hround.of_false hlimit
                exact .matched (.starDone hmatches) habandons.restore
                  (hs.restore hs₁ habandons.le_reach)
              · exact hround.of_limited hlimit rfl
          | true =>
              by_cases hlimit : s₁.tooDeep = none
              · obtain ⟨reach, log, hmatches, hextends, hs₁⟩ := hround.of_true hlimit
                have hlt : s.cursor < s₁.cursor := Pattern.lt_of_not_nullable hmatches hp
                have hmoved : (s₁.cursor == s.cursor) = false := by simp; omega
                -- The body has consumed something, so the next round may try every rule again.
                have hguarded₁ : p.guarded Rule.rankBound true = true :=
                  Pattern.guarded_weaken hguarded hroom.rank_le fun _ => rfl
                have hrest := ih _ _ hguarded₁ s₁ hs₁
                  (hroom.behind hlt hs₁.cursor_le_size hextends.depth)
                  (by have := hs₁.cursor_le_size; omega)
                simp only [hmoved, Bool.false_eq_true, if_false]
                by_cases hlimit₂ : (repeatMatch body count s₁).tooDeep = none
                · obtain ⟨reach', log', hmatches', hextends', hs₂⟩ := hrest.of_true hlimit₂
                  exact .matched (.starMore hmatches hlt hmatches') (hextends.trans hextends') hs₂
                · exact hrest.of_limited hlimit₂ rfl
              · refine hround.of_limited hlimit ?_
                dsimp only
                split
                · rfl
                · exact keepsLimit_repeatMatch hkeeps count s₁ hlimit

section Operators

variable {callRule : Rule → Match}

theorem adequate_seq
    (hfirst : Adequate setup p s (matchPattern setup.chars callRule p s))
    (hsecond : ∀ {s₁ reach log},
      Matches setup.chars p s.cursor (.matched s₁.cursor reach log) → s₁.depth = s.depth →
        Sound setup s₁ → Adequate setup q s₁ (matchPattern setup.chars callRule q s₁))
    (hkeeps : KeepsLimit (matchPattern setup.chars callRule q)) :
    Adequate setup (.seq p q) s (matchPattern setup.chars callRule (.seq p q) s) := by
  simp only [matchPattern]
  cases hrun : matchPattern setup.chars callRule p s with
  | mk ok s₁ =>
      rw [hrun] at hfirst
      by_cases hlimit : s₁.tooDeep = none
      · cases ok with
        | false =>
            obtain ⟨reach, hmatches, habandons, hs₁⟩ := hfirst.of_false hlimit
            exact .failed (.seqFailFirst hmatches) ⟨habandons.reach, habandons.log, habandons.depth,
              habandons.lookaheads, fun hrestores => Bool.noConfusion hrestores⟩ hs₁
        | true =>
            obtain ⟨reach, log, hmatches, hextends, hs₁⟩ := hfirst.of_true hlimit
            have hsecond := hsecond hmatches hextends.depth hs₁
            dsimp only
            cases hrun' : matchPattern setup.chars callRule q s₁ with
            | mk ok' s₂ =>
                rw [hrun'] at hsecond
                by_cases hlimit' : s₂.tooDeep = none
                · cases ok' with
                  | false =>
                      obtain ⟨reach', hmatches', habandons', hs₂⟩ := hsecond.of_false hlimit'
                      exact .failed (.seqFailSecond hmatches hmatches')
                        (hextends.trans_abandons habandons') hs₂
                  | true =>
                      obtain ⟨reach', log', hmatches', hextends', hs₂⟩ :=
                        hsecond.of_true hlimit'
                      exact .matched (.seq hmatches hmatches') (hextends.trans hextends') hs₂
                · exact hsecond.of_limited hlimit' rfl
      · cases ok with
        | false => exact hfirst.of_limited hlimit rfl
        -- The limit was reached inside the first pattern, and the second one does not lift it.
        | true => exact hfirst.of_limited hlimit (hkeeps s₁ hlimit)

/-- The second pattern is tried where the first one was, but knows what the first one saw. -/
theorem adequate_alt (hp : p.restores = true)
    (hfirst : Adequate setup p s (matchPattern setup.chars callRule p s))
    (hsecond : ∀ {s₁ : State}, s₁.cursor = s.cursor → s₁.depth = s.depth → Sound setup s₁ →
      Adequate setup q s₁ (matchPattern setup.chars callRule q s₁))
    (hkeeps : KeepsLimit (matchPattern setup.chars callRule q)) :
    Adequate setup (.alt p q) s (matchPattern setup.chars callRule (.alt p q) s) := by
  simp only [matchPattern]
  cases hrun : matchPattern setup.chars callRule p s with
  | mk ok s₁ =>
      rw [hrun] at hfirst
      by_cases hlimit : s₁.tooDeep = none
      · cases ok with
        | false =>
            obtain ⟨reach, hmatches, habandons, hs₁⟩ := hfirst.of_false hlimit
            have hcursor := (habandons.restored hp).1
            have hextends := habandons.extends hp
            have hsecond := hsecond hcursor habandons.depth hs₁
            dsimp only
            cases hrun' : matchPattern setup.chars callRule q s₁ with
            | mk ok' s₂ =>
                rw [hrun'] at hsecond
                by_cases hlimit' : s₂.tooDeep = none
                · cases ok' with
                  | false =>
                      obtain ⟨reach', hmatches', habandons', hs₂⟩ := hsecond.of_false hlimit'
                      rw [hcursor] at hmatches'
                      exact .failed (.altFail hmatches hmatches')
                        (habandons.trans hp habandons') hs₂
                  | true =>
                      obtain ⟨reach', log', hmatches', hextends', hs₂⟩ :=
                        hsecond.of_true hlimit'
                      rw [hcursor] at hmatches'
                      exact .matched (.altSecond hmatches hmatches')
                        (hextends.trans hextends') hs₂
                · exact hsecond.of_limited hlimit' rfl
        | true =>
            obtain ⟨reach, log, hmatches, hextends, hs₁⟩ := hfirst.of_true hlimit
            exact .matched (.altFirst hmatches) hextends hs₁
      · cases ok with
        | false => exact hfirst.of_limited hlimit (hkeeps s₁ hlimit)
        | true => exact hfirst.of_limited hlimit rfl

theorem adequate_group (hs : Sound setup s)
    (hbody : Adequate setup p s (matchPattern setup.chars callRule p s)) :
    Adequate setup (.group p) s (matchPattern setup.chars callRule (.group p) s) := by
  simp only [matchPattern]
  cases hrun : matchPattern setup.chars callRule p s with
  | mk ok s₁ =>
      rw [hrun] at hbody
      by_cases hlimit : s₁.tooDeep = none
      · cases ok with
        | false =>
            obtain ⟨reach, hmatches, habandons, hs₁⟩ := hbody.of_false hlimit
            exact .failed (.group hmatches) (habandons.restore.abandons rfl)
              (hs.restore hs₁ habandons.le_reach)
        | true =>
            obtain ⟨reach, log, hmatches, hextends, hs₁⟩ := hbody.of_true hlimit
            exact .matched (.group hmatches) hextends hs₁
      · cases ok <;> exact hbody.of_limited hlimit rfl

theorem adequate_opt (hs : Sound setup s)
    (hbody : Adequate setup p s (matchPattern setup.chars callRule p s)) :
    Adequate setup (.opt p) s (matchPattern setup.chars callRule (.opt p) s) := by
  simp only [matchPattern]
  cases hrun : matchPattern setup.chars callRule p s with
  | mk ok s₁ =>
      rw [hrun] at hbody
      by_cases hlimit : s₁.tooDeep = none
      · cases ok with
        | false =>
            obtain ⟨reach, hmatches, habandons, hs₁⟩ := hbody.of_false hlimit
            exact .matched (.optNone hmatches) habandons.restore
              (hs.restore hs₁ habandons.le_reach)
        | true =>
            obtain ⟨reach, log, hmatches, hextends, hs₁⟩ := hbody.of_true hlimit
            exact .matched (.optSome hmatches) hextends hs₁
      · cases ok <;> exact hbody.of_limited hlimit rfl

theorem adequate_notAhead (hs : Sound setup s)
    (hbody : Adequate setup p { s with lookaheads := s.lookaheads + 1 }
      (matchPattern setup.chars callRule p { s with lookaheads := s.lookaheads + 1 })) :
    Adequate setup (.notAhead p) s (matchPattern setup.chars callRule (.notAhead p) s) := by
  let inside : State := { s with lookaheads := s.lookaheads + 1 }
  simp only [matchPattern]
  cases hrun : matchPattern setup.chars callRule p inside with
  | mk ok s₁ =>
      rw [hrun] at hbody
      by_cases hlimit : s₁.tooDeep = none
      · have hreach := (Extends.refl hs.cursor_le_reach).reach
        cases ok with
        | false =>
            obtain ⟨reach, hmatches, habandons, hs₁⟩ := hbody.of_false hlimit
            refine .matched (.notAhead hmatches)
              ⟨hreach, State.restore_log habandons.log, habandons.depth, ?_⟩
              ⟨hs.cursor_le_size, hs.cursor_le_reach, hlimit, hs₁.remembered⟩
            exact congrArg (· - 1) habandons.lookaheads
        | true =>
            obtain ⟨reach, log, hmatches, hextends, hs₁⟩ := hbody.of_true hlimit
            have hback : Extends s { s₁.restore s.checkpoint with
                reach := s.reach, lookaheads := s₁.lookaheads - 1 } s.cursor [] :=
              ⟨hreach, State.restore_log hextends.suffix, hextends.depth,
                congrArg (· - 1) hextends.lookaheads⟩
            exact .failed (.notAheadFail hmatches) (hback.abandons rfl)
              ⟨hs.cursor_le_size, hs.cursor_le_reach, hlimit, hs₁.remembered⟩
      · cases ok <;> exact hbody.of_limited hlimit rfl

end Operators

theorem adequate_matchPattern {callRule : Rule → Match} {fuel : Nat}
    (hkeeps : ∀ rule, KeepsLimit (callRule rule)) (hcalls : CallsAdequately setup fuel callRule)
    (p : Pattern) {rank : Nat} {opens : Bool} (hguarded : p.guarded rank opens = true) {s : State}
    (hs : Sound setup s) (hroom : Room setup fuel rank opens s) :
    Adequate setup p s (matchPattern setup.chars callRule p s) := by
  induction p generalizing rank opens s with
  | char c =>
      refine adequate_matchChar hs (fun c' hchar haccepts => ?_) (fun hrefuses => ?_)
      · rw [beq_iff_eq.mp haccepts] at hchar
        exact .char hchar
      · refine .charFail fun hchar => ?_
        simpa using hrefuses c hchar
  | range low high =>
      refine adequate_matchChar hs (fun c' hchar haccepts => ?_) (fun hrefuses => ?_)
      · exact .range hchar (by simpa using haccepts)
      · refine .rangeFail fun c' hchar => ?_
        simpa using hrefuses c' hchar
  | any =>
      refine adequate_matchChar hs (fun c' hchar haccepts => .any hchar) (fun hrefuses => ?_)
      refine .anyFail ?_
      cases hchar : setup.chars[s.cursor]? with
      | none => rfl
      | some c' => cases hrefuses c' hchar
  | stop =>
      simp only [matchPattern]
      by_cases hend : setup.chars.size ≤ s.cursor
      · rw [decide_eq_true hend]
        exact .matched (.stop hend) (.refl hs.cursor_le_reach) hs
      · rw [decide_eq_false hend]
        exact .failed (.stopFail (by omega)) ((Extends.refl hs.cursor_le_reach).abandons rfl) hs
  | act action =>
      exact .matched .act ⟨(Extends.refl hs.cursor_le_reach).reach, rfl, rfl, rfl⟩
        ⟨hs.cursor_le_size, hs.cursor_le_reach, hs.unlimited, hs.remembered⟩
  | call rule =>
      simp only [Pattern.guarded, Bool.and_eq_true, decide_eq_true_eq] at hguarded
      obtain ⟨hrank, hopens⟩ := hguarded
      have hfuel := hroom.fuel
      refine hcalls rule s hs ⟨rule.rank_lt, by omega, hroom.depth, fun hstarts => ?_⟩
      rw [hstarts] at hopens
      exact hroom.depth_lt (by simpa using hopens)
  | seq p q ihp ihq =>
      simp only [Pattern.guarded, Bool.and_eq_true] at hguarded
      apply adequate_seq (ihp hguarded.1 hs hroom) ?_ (keepsLimit_matchPattern hkeeps q)
      intro s₁ reach log hmatches hdepth hs₁
      exact ihq hguarded.2 hs₁ (hroom.next hmatches hdepth hs₁)
  | alt p q ihp ihq =>
      simp only [Pattern.guarded, Bool.and_eq_true] at hguarded
      apply adequate_alt hguarded.2 (ihp hguarded.1.1 hs hroom) ?_
        (keepsLimit_matchPattern hkeeps q)
      intro s₁ hcursor hdepth hs₁
      exact ihq hguarded.1.2 hs₁ (hroom.mono (Nat.le_of_eq hcursor.symm) hdepth)
  | group p ih => exact adequate_group hs (ih hguarded hs hroom)
  | star p ih =>
      simp only [Pattern.guarded, Bool.and_eq_true, Bool.not_eq_true'] at hguarded
      exact adequate_repeatMatch hguarded.2 (keepsLimit_matchPattern hkeeps p) ih _ rank opens
        hguarded.1 s hs hroom (Nat.lt_succ_self _)
  | opt p ih => exact adequate_opt hs (ih hguarded hs hroom)
  | notAhead p ih =>
      have hinside : Sound setup { s with lookaheads := s.lookaheads + 1 } :=
        ⟨hs.cursor_le_size, hs.cursor_le_reach, hs.unlimited, hs.remembered⟩
      exact adequate_notAhead hs (ih hguarded hinside (hroom.mono (Nat.le_refl _) rfl))

theorem Sound.enter (hs : Sound setup s) : Sound setup s.enter :=
  ⟨hs.cursor_le_size, Nat.le_refl _, hs.unlimited, hs.remembered⟩

/-- Leaving a rule adds what it looked at to the state of the rule around it. -/
theorem Extends.leave {reach : Nat} {log : TokenLog} (h : Extends s.enter s' reach log)
    (hle : s.cursor ≤ reach) : Extends s (s'.leave s) reach log := by
  have hreach : s'.reach = max s.cursor reach := h.reach
  refine ⟨?_, h.log, h.depth, h.lookaheads⟩
  change max s.reach s'.reach = _
  rw [hreach, Nat.max_eq_right hle]

theorem Sound.leave (hs' : Sound setup s') : Sound setup (s'.leave s) :=
  ⟨hs'.cursor_le_size, Nat.le_trans hs'.cursor_le_reach (Nat.le_max_right _ _), hs'.unlimited,
    hs'.remembered⟩

theorem adequate_attempt {rule : Rule} {body : Match} (hs : Sound setup s)
    (hbody : Adequate setup rule.production s.enter (body s.enter)) :
    Adequate setup (.call rule) s (attempt rule body s) := by
  unfold attempt
  cases hrun : body s.enter with
  | mk ok s₁ =>
      rw [hrun] at hbody
      by_cases hlimit : s₁.tooDeep = none
      · cases ok with
        | true =>
            obtain ⟨reach, log, hmatches, hextends, hs₁⟩ := hbody.of_true hlimit
            have hbounds := hmatches.bounds
            have hpushed : Extends s.enter (s₁.push (.rule rule) s.cursor) reach
                (log ++ [⟨.rule rule, s.cursor, s₁.cursor⟩]) := by
              refine ⟨hextends.reach, ?_, hextends.depth, hextends.lookaheads⟩
              change _ :: s₁.log = _
              rw [hextends.log]
              simp
            refine .matched (.call hmatches) (hpushed.leave (Nat.le_trans hbounds.1 hbounds.2)) ?_
            exact ⟨hs₁.cursor_le_size, Nat.le_trans hs₁.cursor_le_reach (Nat.le_max_right _ _),
              hs₁.unlimited, hs₁.remembered⟩
        | false =>
            obtain ⟨reach, hmatches, habandons, hs₁⟩ := hbody.of_false hlimit
            obtain ⟨furthest, hrecord⟩ := recordFailure_eq s₁ rule s.cursor s₁.reach
            dsimp only
            rw [hrecord]
            have hback := habandons.restore.leave hmatches.bounds
            have hleft : Extends s (({ s₁ with furthest }.restore s.checkpoint).leave s) reach [] :=
              ⟨hback.reach, hback.log, hback.depth, hback.lookaheads⟩
            refine .failed (.callFail hmatches) (hleft.abandons rfl) ?_
            have hle := hs.cursor_le_reach
            exact ⟨hs.cursor_le_size, Nat.le_trans hle (Nat.le_max_left _ _), hs₁.unlimited,
              hs₁.remembered⟩
      · cases ok with
        | true => exact hbody.of_limited hlimit rfl
        | false =>
            obtain ⟨furthest, hrecord⟩ := recordFailure_eq s₁ rule s.cursor s₁.reach
            dsimp only
            rw [hrecord]
            exact hbody.of_limited hlimit rfl

/-- Remembering what the rules say keeps a state sound. -/
theorem Sound.remember (hs : Sound setup s) {rule : Rule} {offset : Nat} {outcome : Memory}
    (houtcome : Matches setup.chars (.call rule) offset outcome.verdict) :
    Sound setup { s with memory := ((rule, offset), outcome) :: s.memory } := by
  refine ⟨hs.cursor_le_size, hs.cursor_le_reach, hs.unlimited, ?_⟩
  intro rule' offset' outcome' hlookup
  rw [List.lookup_cons] at hlookup
  split at hlookup
  next hkey =>
    cases hlookup
    cases eq_of_beq hkey
    exact houtcome
  next => exact hs.remembered _ _ _ hlookup

theorem adequate_remember {rule : Rule} {body : Match} (hs : Sound setup s)
    (hbody : Adequate setup (.call rule) s.enter (body s.enter)) :
    Adequate setup (.call rule) s (remember rule body s) := by
  unfold remember
  split
  next stop reach tokens hlookup =>
    -- What is remembered was right when it was stored, and the text is the same.
    have hmatches := hs.remembered _ _ _ hlookup
    have hbounds := hmatches.bounds
    have hsize := hmatches.stop_le_size hs.cursor_le_size
    refine .matched hmatches ⟨rfl, ?_, rfl, rfl⟩ ?_
    · simp
    · exact ⟨hsize, Nat.le_trans hbounds.2 (Nat.le_max_right _ _), hs.unlimited, hs.remembered⟩
  next reach hlookup =>
    have hmatches := hs.remembered _ _ _ hlookup
    refine .failed hmatches (Extends.abandons ⟨rfl, rfl, rfl, rfl⟩ rfl) ?_
    exact ⟨hs.cursor_le_size, Nat.le_trans hs.cursor_le_reach (Nat.le_max_left _ _),
      hs.unlimited, hs.remembered⟩
  next hlookup =>
    cases hrun : body s.enter with
    | mk ok s₁ =>
        rw [hrun] at hbody
        by_cases hlimit : s₁.tooDeep = none
        · cases ok with
          | true =>
              obtain ⟨reach, log, hmatches, hextends, hs₁⟩ := hbody.of_true hlimit
              have hbounds := hmatches.bounds
              have hle := Nat.le_trans hbounds.1 hbounds.2
              have hreach : s₁.reach = reach := hextends.reach.trans (Nat.max_eq_right hle)
              -- What the log has more than at the start of the rule is the rule's own.
              have hlog : (s₁.loggedSince s.checkpoint).reverse = log := by
                have hown : s₁.loggedSince s.checkpoint = log.reverse :=
                  State.loggedSince_eq hextends.log
                rw [hown, List.reverse_reverse]
              have hleft := hextends.leave hle
              refine .matched hmatches ⟨hleft.reach, hleft.log, hleft.depth, hleft.lookaheads⟩ ?_
              refine (hs₁.remember ?_).leave
              rw [Memory.verdict, hreach, hlog]
              exact hmatches
          | false =>
              obtain ⟨reach, hmatches, habandons, hs₁⟩ := hbody.of_false hlimit
              have hle := hmatches.bounds
              have hreach : s₁.reach = reach := habandons.reach.trans (Nat.max_eq_right hle)
              have hleft := (habandons.extends rfl).leave hle
              refine .failed hmatches (Extends.abandons
                ⟨hleft.reach, hleft.log, hleft.depth, hleft.lookaheads⟩
                (habandons.restored rfl).1) ?_
              refine (hs₁.remember ?_).leave
              rw [Memory.verdict, hreach]
              exact hmatches
        · cases ok <;> exact hbody.of_limited hlimit rfl

/-- A counted rule that is refused at the limit starts behind as many characters as rules of its
kind are open, so the limit is smaller than the text. -/
theorem adequate_count {body : Match} (hs : Sound setup s) (hdepth : s.depth < s.cursor)
    (hbody : Adequate setup p { s with depth := s.depth + 1 }
      (body { s with depth := s.depth + 1 })) :
    Adequate setup p s (count setup.maxDepth body s) := by
  have hopen : s.tooDeep.isSome = false := by rw [hs.unlimited]; rfl
  unfold count
  rw [if_neg (by rw [hopen]; exact Bool.false_ne_true)]
  split
  next hfull =>
    have hsize := hs.cursor_le_size
    refine ⟨fun h => ?_, fun _ => ?_⟩
    · cases h
    · omega
  next =>
    cases hrun : body { s with depth := s.depth + 1 } with
    | mk ok s₁ =>
        rw [hrun] at hbody
        by_cases hlimit : s₁.tooDeep = none
        · cases ok with
          | true =>
              obtain ⟨reach, log, hmatches, hextends, hs₁⟩ := hbody.of_true hlimit
              exact .matched hmatches
                ⟨hextends.reach, hextends.log, congrArg (· - 1) hextends.depth,
                  hextends.lookaheads⟩
                ⟨hs₁.cursor_le_size, hs₁.cursor_le_reach, hs₁.unlimited, hs₁.remembered⟩
          | false =>
              obtain ⟨reach, hmatches, habandons, hs₁⟩ := hbody.of_false hlimit
              exact .failed hmatches
                ⟨habandons.reach, habandons.log, congrArg (· - 1) habandons.depth,
                  habandons.lookaheads, habandons.restored⟩
                ⟨hs₁.cursor_le_size, hs₁.cursor_le_reach, hs₁.unlimited, hs₁.remembered⟩
        · exact hbody.of_limited hlimit rfl

/-- Every rule is matched as the rules say, wherever there is room for it. -/
theorem adequate_call (setup : Setup) (fuel : Nat) :
    CallsAdequately setup fuel (call setup fuel) := by
  induction fuel with
  | zero =>
      intro rule s _ hroom
      have := hroom.fuel
      omega
  | succ fuel ih =>
      -- A rule spends one unit of fuel, and what it tries at its own offset has a lower rank.
      intro rule s hs hroom
      have hattempt : ∀ {s'}, Sound setup s' → Room setup fuel rule.rank
          (rule.startsExpression && !rule.isCounted) s' →
          Adequate setup (.call rule) s' (attempt rule (matchPattern setup.chars
            (call setup fuel) rule.production) s') := fun hs' hroom' =>
        adequate_attempt hs' (adequate_matchPattern (keepsLimit_call setup fuel) ih
          rule.production (Pattern.guarded_production rule) hs'.enter
          (hroom'.mono (Nat.le_refl _) rfl))
      have hrank := rule.rank_lt
      have hfuel := hroom.fuel
      unfold call matchRule
      split
      next hcounted =>
        have hlt : s.depth < s.cursor :=
          hroom.depth_lt (by cases rule <;> first | rfl | cases hcounted)
        refine adequate_count hs hlt (hattempt ?_ ?_)
        · exact ⟨hs.cursor_le_size, hs.cursor_le_reach, hs.unlimited, hs.remembered⟩
        · refine ⟨by omega, by dsimp only; omega, hlt, fun h => ?_⟩
          rw [hcounted] at h
          simp at h
      next huncounted =>
        have hinner : Room setup fuel rule.rank (rule.startsExpression && !rule.isCounted) s := by
          refine ⟨by omega, by omega, hroom.depth, fun h => hroom.depth_lt ?_⟩
          exact (Bool.and_eq_true _ _ ▸ h).1
        split
        · exact adequate_remember hs (hattempt hs.enter (hinner.mono (Nat.le_refl _) rfl))
        · exact hattempt hs hinner

theorem sound_initial (setup : Setup) : Sound setup .initial :=
  ⟨Nat.zero_le _, Nat.le_refl _, rfl, fun _ _ _ hlookup => nomatch hlookup⟩

/-- At first there is fuel for all rules, and no expression is open. -/
theorem room_initial (setup : Setup) :
    Room setup (fuel setup.chars) (Rule.program.rank + 1) Rule.program.startsExpression
      .initial := by
  have hfuel : fuel setup.chars = 27 * (setup.chars.size + 1) + 1 := rfl
  have hrank : Rule.program.rank + 1 = 7 := rfl
  have hbound : Rule.rankBound = 8 := rfl
  have hcursor : State.initial.cursor = 0 := rfl
  refine ⟨by omega, ?_, Nat.le_refl _, fun h => nomatch h⟩
  rw [hbound, hcursor, hfuel, hrank]
  omega

theorem adequate_run (setup : Setup) :
    Adequate setup (.call .program) .initial (run setup) :=
  adequate_call setup _ .program .initial (sound_initial setup) (room_initial setup)

end Verdicts

end Matcher

section Tokenize

variable {reuse : Bool} {maxDepth : Nat} {chars : Array Char} {log : TokenLog}

/-- A text with a log matches the grammar. -/
theorem succeeds_of_tokenize (h : tokenizeWith reuse maxDepth chars = .ok log) :
    ∃ stop, Succeeds chars (.call .program) 0 stop log := by
  have hrun := Matcher.adequate_run ⟨chars, maxDepth, reuse⟩
  unfold tokenizeWith at h
  cases hresult : Matcher.run ⟨chars, maxDepth, reuse⟩ with
  | mk ok s =>
      rw [hresult] at h hrun
      dsimp only at h
      split at h
      · cases h
      next hlimit =>
        cases ok with
        | false => cases h
        | true =>
            obtain ⟨reach, found, hmatches, hextends, -⟩ := hrun.of_true hlimit
            have hlog : s.log = found.reverse := hextends.log.trans (List.append_nil _)
            injection h with h
            rw [hlog, List.reverse_reverse] at h
            rw [← h]
            exact ⟨_, reach, hmatches⟩

/-- A text that matches the grammar has a log under every limit that is not smaller. -/
theorem tokenize_of_succeeds {stop : Nat} (h : Succeeds chars (.call .program) 0 stop log)
    (hdepth : chars.size ≤ maxDepth) : tokenizeWith reuse maxDepth chars = .ok log := by
  have hrun := Matcher.adequate_run ⟨chars, maxDepth, reuse⟩
  unfold tokenizeWith
  cases hresult : Matcher.run ⟨chars, maxDepth, reuse⟩ with
  | mk ok s =>
      rw [hresult] at hrun
      have hlimit : s.tooDeep = none := by
        refine Classical.byContradiction fun hlimit => ?_
        have : maxDepth < chars.size := hrun.limited hlimit
        omega
      cases ok with
      | false =>
          obtain ⟨reach, hmatches, -⟩ := hrun.of_false hlimit
          exact absurd ⟨reach, hmatches⟩ h.not_fails
      | true =>
          obtain ⟨reach, found, hmatches, hextends, -⟩ := hrun.of_true hlimit
          obtain ⟨-, rfl⟩ := h.unique ⟨reach, hmatches⟩
          have hlog : s.log = log.reverse := hextends.log.trans (List.append_nil _)
          simp [hlimit, hlog]

end Tokenize

end Sumscript

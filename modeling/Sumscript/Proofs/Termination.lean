import Sumscript.Proofs.Advance

/-! # Matching ends

The bounds on how deep rules are open and on how often a pattern is repeated are never met. Inside
a rule the cursor is not to the left of where the rule starts, and there only rules of lower rank
are called, so the text that remains and then the rank get smaller. What is repeated consumes
something. Hence matching without any bound ends, and it ends as the bounded run does.
-/

namespace Sumscript.Matcher

/-! ## Matching without bounds -/

/-- How matching a pattern from a state ends if neither the rules that are open nor the rounds of
a repetition are bounded. A rule runs its pattern where it is opened and does not run it
elsewhere. -/
inductive Ends (setup : Setup) : Pattern → State → Bool × State → Prop where
  | char {c : Char} {s : State} : Ends setup (.char c) s (matchChar setup.chars (· == c) s)
  | range {low high : Char} {s : State} :
      Ends setup (.range low high) s (matchChar setup.chars (fun c => low ≤ c && c ≤ high) s)
  | any {s : State} : Ends setup .any s (matchChar setup.chars (fun _ => true) s)
  | stop {s : State} : Ends setup .stop s (setup.chars.size ≤ s.cursor, s)
  | act {action : Action} {s : State} :
      Ends setup (.act action) s (true, s.push (.action action) s.cursor)
  | closed {rule : Rule} {s : State} {body : Match} (hclosed : s.opened? setup rule = none) :
      Ends setup (.call rule) s (matchRule setup rule body s)
  | opened {rule : Rule} {s opened : State} {result : Bool × State}
      (hopened : s.opened? setup rule = some opened)
      (hbody : Ends setup rule.production opened result) :
      Ends setup (.call rule) s (matchRule setup rule (fun _ => result) s)
  | seqFail {p q : Pattern} {s s' : State} (hfirst : Ends setup p s (false, s')) :
      Ends setup (.seq p q) s (false, s')
  | seq {p q : Pattern} {s s' : State} {result : Bool × State}
      (hfirst : Ends setup p s (true, s')) (hsecond : Ends setup q s' result) :
      Ends setup (.seq p q) s result
  | altFirst {p q : Pattern} {s s' : State} (hfirst : Ends setup p s (true, s')) :
      Ends setup (.alt p q) s (true, s')
  | altSecond {p q : Pattern} {s s' : State} {result : Bool × State}
      (hfirst : Ends setup p s (false, s')) (hsecond : Ends setup q s' result) :
      Ends setup (.alt p q) s result
  | group {p : Pattern} {s s' : State} (hbody : Ends setup p s (true, s')) :
      Ends setup (.group p) s (true, s')
  | groupFail {p : Pattern} {s s' : State} (hbody : Ends setup p s (false, s')) :
      Ends setup (.group p) s (false, s'.restore s.checkpoint)
  | starDone {p : Pattern} {s s' : State} (hbody : Ends setup p s (false, s')) :
      Ends setup (.star p) s (true, s'.restore s.checkpoint)
  | starStuck {p : Pattern} {s s' : State} (hbody : Ends setup p s (true, s'))
      (hstuck : s'.cursor = s.cursor) : Ends setup (.star p) s (true, s')
  | starMore {p : Pattern} {s s' : State} {result : Bool × State}
      (hbody : Ends setup p s (true, s')) (hmoved : s'.cursor ≠ s.cursor)
      (hrest : Ends setup (.star p) s' result) : Ends setup (.star p) s result
  | optSome {p : Pattern} {s s' : State} (hbody : Ends setup p s (true, s')) :
      Ends setup (.opt p) s (true, s')
  | optNone {p : Pattern} {s s' : State} (hbody : Ends setup p s (false, s')) :
      Ends setup (.opt p) s (true, s'.restore s.checkpoint)
  | notAhead {p : Pattern} {s s' : State} {ok : Bool}
      (hbody : Ends setup p { s with lookaheads := s.lookaheads + 1 } (ok, s')) :
      Ends setup (.notAhead p) s
        (!ok, { s'.restore s.checkpoint with reach := s.reach, lookaheads := s'.lookaheads - 1 })

theorem Ends.unique {setup : Setup} {p : Pattern} {s : State} {result result' : Bool × State}
    (h : Ends setup p s result) (h' : Ends setup p s result') : result = result' := by
  -- Another end of the same pattern comes from another end of a part of it, which has only one.
  induction h generalizing result' with
  | char | range | any | stop | act => cases h'; rfl
  | closed hclosed =>
      cases h' with
      | closed => exact matchRule_congr fun opened hopened => nomatch hclosed.symm.trans hopened
      | opened hopened => nomatch hclosed.symm.trans hopened
  | opened hopened _ ih =>
      cases h' with
      | closed hclosed => nomatch hclosed.symm.trans hopened
      | opened hopened' hbody' =>
          cases hopened.symm.trans hopened'
          rw [ih hbody']
  | seqFail _ ih => cases h' <;> grind
  | seq _ _ ih ih' => cases h' <;> grind
  | altFirst _ ih => cases h' <;> grind
  | altSecond _ _ ih ih' => cases h' <;> grind
  | group _ ih => cases h' <;> grind
  | groupFail _ ih => cases h' <;> grind
  | starDone _ ih => cases h' <;> grind
  | starStuck _ _ ih => cases h' <;> grind
  | starMore _ _ _ ih ih' => cases h' <;> grind
  | optSome _ ih => cases h' <;> grind
  | optNone _ ih => cases h' <;> grind
  | notAhead _ ih => cases h'; grind

/-! ## What a pattern comes to -/

/-- The cursor of one state is not to the left of another's, and where both stand at the same
place a rank is not above another. -/
structure Descends (rank : Nat) (s : State) (rank' : Nat) (t : State) : Prop where
  cursor_le : s.cursor ≤ t.cursor
  rank_le : t.cursor = s.cursor → rank' ≤ rank

section Visits

variable {chars : Array Char} {setup : Setup} {callRule : Rule → Match} {p q : Pattern}
  {rank rank' rank'' fuel fuel' : Nat} {opens : Bool} {rule rule' : Rule} {s s' t : State}

theorem Descends.refl : Descends rank s rank s :=
  ⟨Nat.le_refl _, fun _ => Nat.le_refl _⟩

theorem Descends.trans (h : Descends rank s rank' s') (h' : Descends rank' s' rank'' t) :
    Descends rank s rank'' t where
  cursor_le := Nat.le_trans h.cursor_le h'.cursor_le
  rank_le hsame := by
    obtain ⟨hcursor, hrank⟩ := h
    obtain ⟨hcursor', hrank'⟩ := h'
    exact Nat.le_trans (hrank' (by omega)) (hrank (by omega))

theorem Kept.of_run {fuel : Nat} {ok : Bool} (hs : Kept setup.chars s)
    (hguarded : p.guarded rank opens = true)
    (hrun : matchPattern setup.chars (call setup fuel) p s = (ok, s')) :
    Kept setup.chars s' ∧ s.cursor ≤ s'.cursor ∧
      (ok = true → p.nullable = false → s.cursor < s'.cursor) := by
  have hgrows := adds_matchPattern (undoes_call setup fuel) p s hs.toInText
  have hround := advances_matchPattern (undoes_call setup fuel)
    (fun rule s hs => advances_call setup fuel rule hs) p hguarded hs
  rw [hrun] at hgrows hround
  exact ⟨.of_advances hgrows hround, hgrows.cursor_le,
    fun hok hp => hround.consumed hok (by rw [hp]; rfl)⟩

/-- Where a pattern comes to a part of it, the part is guarded by the rank of the whole, or it
stands further on. -/
theorem Visits.descends (h : Visits setup.chars (call setup fuel) p s q t)
    (hguarded : p.guarded rank opens = true) (hs : Kept setup.chars s) :
    Kept setup.chars t ∧
      ∃ rank' opens', q.guarded rank' opens' = true ∧ Descends rank s rank' t := by
  induction h generalizing rank opens with
  | here => exact ⟨hs, rank, opens, hguarded, .refl⟩
  | seqFirst _ ih | starFirst _ ih => exact ih ((Bool.and_eq_true _ _).mp hguarded).1 hs
  | altFirst _ ih =>
      simp only [Pattern.guarded, Bool.and_eq_true] at hguarded
      exact ih hguarded.1.1 hs
  | group _ ih | opt _ ih => exact ih hguarded hs
  | @seqSecond p q r s s' t hrun _ ih =>
      simp only [Pattern.guarded, Bool.and_eq_true] at hguarded
      obtain ⟨hs', hcursor, hconsumed⟩ := hs.of_run hguarded.1 hrun
      obtain ⟨hkept, rank', opens', hpart, hdescends⟩ := ih hguarded.2 hs'
      have hfirst : Descends rank s (if p.nullable then rank else Rule.rankBound) s' := by
        refine ⟨hcursor, fun hsame => ?_⟩
        cases hp : p.nullable with
        | true => exact Nat.le_refl _
        | false => exact absurd hsame (Nat.ne_of_gt (hconsumed rfl hp))
      exact ⟨hkept, rank', opens', hpart, hfirst.trans hdescends⟩
  | altSecond hrun _ ih =>
      simp only [Pattern.guarded, Bool.and_eq_true] at hguarded
      obtain ⟨hs', hcursor, -⟩ := hs.of_run hguarded.1.1 hrun
      obtain ⟨hkept, rank', opens', hpart, hdescends⟩ := ih hguarded.1.2 hs'
      have hfirst : Descends rank _ rank _ := ⟨hcursor, fun _ => Nat.le_refl _⟩
      exact ⟨hkept, rank', opens', hpart, hfirst.trans hdescends⟩
  | starMore hrun _ ih =>
      have hbody := ((Bool.and_eq_true _ _).mp hguarded).1
      obtain ⟨hs', hcursor, -⟩ := hs.of_run hbody hrun
      obtain ⟨hkept, rank', opens', hpart, hdescends⟩ := ih hguarded hs'
      have hround : Descends rank _ rank _ := ⟨hcursor, fun _ => Nat.le_refl _⟩
      exact ⟨hkept, rank', opens', hpart, hround.trans hdescends⟩
  | notAhead _ ih =>
      obtain ⟨hkept, rank', opens', hpart, hdescends⟩ := ih hguarded hs.ahead
      exact ⟨hkept, rank', opens', hpart, hdescends.cursor_le, hdescends.rank_le⟩

/-! ## The measure of a call -/

theorem Kept.opened {opened : State} (hs : Kept setup.chars s)
    (hopened : s.opened? setup rule = some opened) :
    Kept setup.chars opened ∧ opened.cursor = s.cursor := by
  unfold State.opened? at hopened
  split at hopened
  · split at hopened
    · cases hopened
    · cases hopened
      exact ⟨hs.deeper.enter, rfl⟩
  · split at hopened
    · split at hopened
      · cases hopened
      · cases hopened
        exact ⟨hs.enter.enter, rfl⟩
    · cases hopened
      exact ⟨hs.enter, rfl⟩

/-- A rule that another one calls stands further on or has a lower rank. -/
theorem Calls.descends (h : Calls setup fuel rule s rule' t) (hs : Kept setup.chars s) :
    Kept setup.chars t ∧ Descends rule.rank s (rule'.rank + 1) t := by
  obtain ⟨opened, hopened, henters⟩ := h
  obtain ⟨hkept, hcursor⟩ := hs.opened hopened
  obtain ⟨ht, rank', opens', hpart, hdescends⟩ :=
    henters.visits.descends (Pattern.guarded_production rule) hkept
  simp only [Pattern.guarded, Bool.and_eq_true, decide_eq_true_eq] at hpart
  refine ⟨ht, hcursor ▸ hdescends.cursor_le, fun hsame => ?_⟩
  exact Nat.le_trans hpart.1 (hdescends.rank_le (hsame.trans hcursor.symm))

theorem kept_of_reached (h : Reached setup fuel rule s) : Kept setup.chars s := by
  induction h with
  | start =>
      exact ⟨inText_of_reached .start, Nat.le_refl _, List.forall_mem_nil _, List.nodup_nil⟩
  | inner _ hcalls ih => exact (hcalls.descends ih).1

/-- There is fuel for the rest of the text and every rank in it. -/
theorem measure_lt_fuel (h : Reached setup fuel rule s) :
    Rule.rankBound * (setup.chars.size - s.cursor) + rule.rank < fuel := by
  induction h with
  | start =>
      have hlength : Rule.all.length = 27 := rfl
      have hrank : Rule.program.rank = 6 := rfl
      unfold Matcher.fuel Rule.rankBound
      rw [hlength, hrank]
      omega
  | @inner fuel rule rule' s t houter hcalls ih =>
      obtain ⟨ht, hcursor, hrank⟩ := hcalls.descends (kept_of_reached houter)
      have hbound := rule'.rank_lt
      have hsize := ht.cursor_le_size
      unfold Rule.rankBound at ih hbound ⊢
      by_cases hsame : t.cursor = s.cursor
      · have := hrank hsame
        rw [hsame]
        omega
      · omega

/-! ## The bounds are never met -/

theorem ends_repeatMatch (hguarded : (Pattern.star p).guarded rank opens = true) (count : Nat)
    (hbody : ∀ {s}, Kept setup.chars s →
      (∀ rule t, Enters setup.chars (call setup fuel) p s rule t →
        Ends setup (.call rule) t (call setup fuel rule t)) →
      Ends setup p s (matchPattern setup.chars (call setup fuel) p s))
    (hs : Kept setup.chars s)
    (h : ∀ rule t, Enters setup.chars (call setup fuel) (.star p) s rule t →
      Ends setup (.call rule) t (call setup fuel rule t))
    (hcount : setup.chars.size - s.cursor < count) :
    Ends setup (.star p) s
      (true, repeatMatch (matchPattern setup.chars (call setup fuel) p) count s) := by
  induction count generalizing s with
  | zero => exact absurd hcount (Nat.not_lt_zero _)
  | succ count ih =>
      simp only [Pattern.guarded, Bool.and_eq_true, Bool.not_eq_true'] at hguarded
      have hround := hbody hs fun rule t henters => h rule t (.starFirst henters)
      rw [repeatMatch]
      split
      next s' hrun =>
        rw [hrun] at hround
        exact .starDone hround
      next s' hrun =>
        rw [hrun] at hround
        obtain ⟨hs', -, hconsumed⟩ := hs.of_run hguarded.1 hrun
        have hlt := hconsumed rfl hguarded.2
        have hsize := hs'.cursor_le_size
        rw [if_neg (by simp; omega)]
        exact .starMore hround (Nat.ne_of_gt hlt)
          (ih hs' (fun rule t henters => h rule t (.starMore hrun henters)) (by omega))

theorem ends_matchPattern (hguarded : p.guarded rank opens = true) (hs : Kept setup.chars s)
    (h : ∀ rule t, Enters setup.chars (call setup fuel) p s rule t →
      Ends setup (.call rule) t (call setup fuel rule t)) :
    Ends setup p s (matchPattern setup.chars (call setup fuel) p s) := by
  induction p generalizing rank opens s with
  | char => exact .char
  | range => exact .range
  | any => exact .any
  | stop => exact .stop
  | act => exact .act
  | call rule => exact h rule s .call
  | seq p q ihp ihq =>
      simp only [Pattern.guarded, Bool.and_eq_true] at hguarded
      have hfirst := ihp hguarded.1 hs fun rule t henters => h rule t (.seqFirst henters)
      simp only [matchPattern]
      split
      next s' hrun =>
        rw [hrun] at hfirst
        exact .seqFail hfirst
      next s' hrun =>
        rw [hrun] at hfirst
        exact .seq hfirst (ihq hguarded.2 (hs.of_run hguarded.1 hrun).1 fun rule t henters =>
          h rule t (.seqSecond hrun henters))
  | alt p q ihp ihq =>
      simp only [Pattern.guarded, Bool.and_eq_true] at hguarded
      have hfirst := ihp hguarded.1.1 hs fun rule t henters => h rule t (.altFirst henters)
      simp only [matchPattern]
      split
      next s' hrun =>
        rw [hrun] at hfirst
        exact .altFirst hfirst
      next s' hrun =>
        rw [hrun] at hfirst
        exact .altSecond hfirst (ihq hguarded.1.2 (hs.of_run hguarded.1.1 hrun).1
          fun rule t henters => h rule t (.altSecond hrun henters))
  | group p ih =>
      have hbody := ih hguarded hs fun rule t henters => h rule t (.group henters)
      simp only [matchPattern]
      split
      next s' hrun =>
        rw [hrun] at hbody
        exact .group hbody
      next s' hrun =>
        rw [hrun] at hbody
        exact .groupFail hbody
  | star p ih =>
      have hbody := ((Bool.and_eq_true _ _).mp hguarded).1
      exact ends_repeatMatch hguarded _ (fun hs h => ih hbody hs h) hs h (Nat.lt_succ_self _)
  | opt p ih =>
      have hbody := ih hguarded hs fun rule t henters => h rule t (.opt henters)
      simp only [matchPattern]
      split
      next s' hrun =>
        rw [hrun] at hbody
        exact .optSome hbody
      next s' hrun =>
        rw [hrun] at hbody
        exact .optNone hbody
  | notAhead p ih =>
      exact .notAhead (ih hguarded hs.ahead fun rule t henters => h rule t (.notAhead henters))

/-- A call ends as it does without any bound. -/
theorem ends_of_reached (h : Reached setup fuel rule s) :
    Ends setup (.call rule) s (call setup fuel rule s) := by
  induction fuel generalizing rule s with
  | zero => exact absurd (measure_lt_fuel h) (Nat.not_lt_zero _)
  | succ fuel ih =>
      cases hopened : s.opened? setup rule with
      | none => exact .closed hopened
      | some opened =>
          have hbody := ends_matchPattern (Pattern.guarded_production rule)
            ((kept_of_reached h).opened hopened).1
            fun rule' t henters => ih (h.inner ⟨opened, hopened, henters⟩)
          have hcall : call setup (fuel + 1) rule s = matchRule setup rule
              (fun _ => matchPattern setup.chars (call setup fuel) rule.production opened) s :=
            matchRule_congr fun opened' hopened' => by cases hopened.symm.trans hopened'; rfl
          rw [hcall]
          exact .opened hopened hbody

end Visits

/-- A call stands inside another one, with `fuel'` left for it. -/
inductive Inside (setup : Setup) (outer : Nat) (rule : Rule) (s : State) :
    Nat → Rule → State → Prop where
  | direct {fuel : Nat} {rule' : Rule} {t : State} (houter : outer = fuel + 1)
      (hcalls : Calls setup fuel rule s rule' t) : Inside setup outer rule s fuel rule' t
  | deeper {fuel : Nat} {rule' rule'' : Rule} {t u : State}
      (hinside : Inside setup outer rule s (fuel + 1) rule' t)
      (hcalls : Calls setup fuel rule' t rule'' u) : Inside setup outer rule s fuel rule'' u

/-- What the calls of a run are like that stand inside each other, and its repetitions. -/
structure Halts (setup : Setup) : Prop where
  /-- Matching without bounds ends, in no other way than the run. -/
  ends : ∀ result, Ends setup (.call .program) .initial result ↔ result = run setup
  /-- Inside a call the cursor is never to the left of where the call starts. -/
  cursor_le : ∀ {fuel rule s fuel' rule' t}, Reached setup fuel rule s →
    Inside setup fuel rule s fuel' rule' t → s.cursor ≤ t.cursor
  /-- Inside a call no rule is called where the same rule is open. So an expression inside another
  one starts behind its start. -/
  reentered : ∀ {fuel rule s fuel' t}, Reached setup fuel rule s →
    Inside setup fuel rule s fuel' rule t → s.cursor < t.cursor
  /-- What is repeated any number of times, or at least once, consumes something in each round. -/
  repeated : ∀ {fuel rule s opened body p t t'}, Reached setup (fuel + 1) rule s →
    s.opened? setup rule = some opened → p = .star body ∨ p = .plus body →
    Visits setup.chars (call setup fuel) rule.production opened p t →
    matchPattern setup.chars (call setup fuel) body t = (true, t') → t.cursor < t'.cursor

section Halts

variable {setup : Setup} {fuel fuel' : Nat} {rule rule' : Rule} {s t : State}

theorem Inside.descends (h : Inside setup fuel rule s fuel' rule' t)
    (hreached : Reached setup fuel rule s) :
    Reached setup fuel' rule' t ∧ Descends rule.rank s (rule'.rank + 1) t := by
  induction h with
  | direct houter hcalls =>
      subst houter
      exact ⟨hreached.inner hcalls, (hcalls.descends (kept_of_reached hreached)).2⟩
  | deeper _ hcalls ih =>
      obtain ⟨hmiddle, hdescends⟩ := ih
      have hinner := (hcalls.descends (kept_of_reached hmiddle)).2
      have hstep := hdescends.trans ⟨hinner.cursor_le, fun hsame =>
        Nat.le_succ_of_le (hinner.rank_le hsame)⟩
      exact ⟨hmiddle.inner hcalls, hstep⟩

theorem Inside.cursor_lt (h : Inside setup fuel rule s fuel' rule t)
    (hreached : Reached setup fuel rule s) : s.cursor < t.cursor := by
  obtain ⟨hcursor, hrank⟩ := (h.descends hreached).2
  exact Nat.lt_of_le_of_ne hcursor fun hsame => Nat.not_succ_le_self _ (hrank hsame.symm)

/-- Every text and every nesting limit lets the matcher halt. -/
theorem halts (setup : Setup) : Halts setup where
  ends result := by
    have hrun : Ends setup (.call .program) .initial (run setup) := ends_of_reached .start
    exact ⟨fun hends => hends.unique hrun, fun heq => heq ▸ hrun⟩
  cursor_le hreached hinside := (hinside.descends hreached).2.cursor_le
  reentered hreached hinside := hinside.cursor_lt hreached
  repeated {fuel rule s opened body p t t'} hreached hopened hp hvisits hrun := by
    have hkept := ((kept_of_reached hreached).opened hopened).1
    obtain ⟨ht, rank, opens, hguarded, -⟩ :=
      hvisits.descends (Pattern.guarded_production rule) hkept
    have hbody : ∃ rank opens, body.guarded rank opens = true ∧ body.nullable = false := by
      rcases hp with rfl | rfl
      · simp only [Pattern.guarded, Bool.and_eq_true, Bool.not_eq_true'] at hguarded
        exact ⟨rank, opens, hguarded⟩
      · simp only [Pattern.plus, Pattern.guarded, Bool.and_eq_true, Bool.not_eq_true'] at hguarded
        exact ⟨rank, opens, hguarded.1, hguarded.2.2⟩
    obtain ⟨rank, opens, hguarded, hnullable⟩ := hbody
    exact (ht.of_run hguarded hrun).2.2 rfl hnullable

end Halts

end Sumscript.Matcher

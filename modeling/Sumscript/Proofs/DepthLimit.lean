import Sumscript.Proofs.Course

/-! # What the nesting limit changes

Two runs over one text under different limits are followed together. They are the same up to the
first attempt that goes past the smaller limit; from there on the run under the smaller limit
only keeps the offset of that attempt. So a limit that is never passed changes nothing, and one
that is passed decides the outcome.
-/

namespace Sumscript

namespace Course

/-- The first attempt that goes past a limit. -/
def pastLimit (limit others : Nat) (c : Course) : Option Opening :=
  (c.openings others).find? fun opening => limit ≤ opening.others

variable {limit others start : Nat} {rule : Rule} {failure : Option Nat} {c c' : Course}

@[simp] theorem pastLimit_nothing : nothing.pastLimit limit others = none :=
  rfl

@[simp] theorem pastLimit_next : (next c c').pastLimit limit others =
    (c.pastLimit limit others).or (c'.pastLimit limit others) :=
  List.find?_append

@[simp] theorem pastLimit_ahead : (ahead c).pastLimit limit others = c.pastLimit limit others :=
  rfl

theorem pastLimit_uncounted (hrule : rule.isCounted = false) :
    (attempt rule start failure c).pastLimit limit others = c.pastLimit limit others := by
  change ((if rule.isCounted then _ else _) : List Opening).find? _ = _
  rw [hrule, if_neg Bool.false_ne_true]
  rfl

theorem pastLimit_counted (hrule : rule.isCounted = true) :
    (attempt rule start failure c).pastLimit limit others =
      if limit ≤ others then some ⟨start, others⟩ else c.pastLimit limit (others + 1) := by
  change ((if rule.isCounted then _ else _) : List Opening).find? _ = _
  rw [if_pos hrule, List.find?_cons]
  by_cases h : limit ≤ others
  · rw [if_pos h, decide_eq_true h]
  · rw [if_neg h, decide_eq_false h]
    rfl

end Course

namespace Matcher

/-- A match `m'` under a limit does what `m` does until the course of `m` goes past the limit, and
then keeps where that was. -/
def Limits (limit : Nat) (path : State → Course) (m m' : Match) : Prop :=
  ∀ s, (m s).2.tooDeep = none → match (path s).pastLimit limit s.depth with
    | none => m' s = m s
    | some opening => (m' s).2.tooDeep = some opening.offset

section Limits

variable {limit : Nat} {path : State → Course} {m m' : Match} {s : State} {opening : Opening}

theorem Limits.eq (h : Limits limit path m m') (hs : (m s).2.tooDeep = none)
    (hpath : (path s).pastLimit limit s.depth = none) : m' s = m s := by
  have hround := h s hs
  rw [hpath] at hround
  exact hround

theorem Limits.stuck (h : Limits limit path m m') (hs : (m s).2.tooDeep = none)
    (hpath : (path s).pastLimit limit s.depth = some opening) :
    (m' s).2.tooDeep = some opening.offset := by
  have hround := h s hs
  rw [hpath] at hround
  exact hround

theorem limits_of (heq : ∀ s, (m s).2.tooDeep = none →
      (path s).pastLimit limit s.depth = none → m' s = m s)
    (hstuck : ∀ s opening, (m s).2.tooDeep = none →
      (path s).pastLimit limit s.depth = some opening → (m' s).2.tooDeep = some opening.offset) :
    Limits limit path m m' := by
  intro s hs
  split
  next hpath => exact heq s hs hpath
  next opening hpath => exact hstuck s opening hs hpath

theorem limits_matchChar (chars : Array Char) (accepts : Char → Bool) :
    Limits limit (fun _ => .nothing) (matchChar chars accepts) (matchChar chars accepts) :=
  fun _ _ => rfl

/-- A limit that is passed in the first round stays passed. -/
theorem tooDeep_repeatMatch {body : Match} (hkeeps : KeepsLimit body) {offset : Nat} (count : Nat)
    (h : (body s).2.tooDeep = some offset) :
    (repeatMatch body (count + 1) s).tooDeep = some offset := by
  rw [repeatMatch]
  cases hrun : body s with
  | mk ok t =>
      rw [hrun] at h
      cases ok with
      | false => exact h
      | true =>
          dsimp only
          split
          · exact h
          · exact (keepsLimit_repeatMatch hkeeps count t
              (by rw [h]; exact Option.some_ne_none _)).trans h

theorem limits_repeatMatch {body body' : Match} {bodyCourse : State → Course}
    (hbody : Limits limit bodyCourse body body') (hfollows : Follows body bodyCourse)
    (hkeeps : KeepsLimit body) (hkeeps' : KeepsLimit body') (count : Nat) (s : State)
    (hs : (repeatMatch body count s).tooDeep = none) :
    match (courseOfRepeat body bodyCourse count s).pastLimit limit s.depth with
    | none => repeatMatch body' count s = repeatMatch body count s
    | some opening => (repeatMatch body' count s).tooDeep = some opening.offset := by
  induction count generalizing s with
  | zero => rfl
  | succ count ih =>
      rw [repeatMatch] at hs
      rw [courseOfRepeat]
      have hdepth := (hfollows s).depth
      cases hrun : body s with
      | mk ok s' =>
          rw [hrun] at hs hdepth
          have hround : s'.tooDeep = none → (body s).2.tooDeep = none := by
            rw [hrun]
            exact id
          cases ok with
          | false =>
              dsimp only
              split
              next hpath => rw [repeatMatch, repeatMatch, hbody.eq (hround hs) hpath, hrun]
              next opening hpath =>
                exact tooDeep_repeatMatch hkeeps' count (hbody.stuck (hround hs) hpath)
          | true =>
              dsimp only at hs ⊢
              by_cases hstill : (s'.cursor == s.cursor) = true
              · rw [if_pos hstill] at hs ⊢
                split
                next hpath =>
                  rw [repeatMatch, repeatMatch, hbody.eq (hround hs) hpath, hrun]
                  simp only [hstill, if_true]
                next opening hpath =>
                  exact tooDeep_repeatMatch hkeeps' count (hbody.stuck (hround hs) hpath)
              · rw [if_neg hstill] at hs ⊢
                have hs' : s'.tooDeep = none := by
                  refine Classical.byContradiction fun h => h ?_
                  rw [← keepsLimit_repeatMatch hkeeps count s' h]
                  exact hs
                have hrest := ih s' hs
                rw [Course.pastLimit_next]
                cases hpath : (bodyCourse s).pastLimit limit s.depth with
                | some opening =>
                    exact tooDeep_repeatMatch hkeeps' count (hbody.stuck (hround hs') hpath)
                | none =>
                    have hagree := hbody.eq (hround hs') hpath
                    rw [show s'.depth = s.depth from hdepth] at hrest
                    rw [repeatMatch, repeatMatch, hagree, hrun]
                    simp only [hstill, Bool.false_eq_true, if_false, Option.none_or]
                    exact hrest

section Operators

variable {chars : Array Char} {callRule callRule' : Rule → Match}
  {callCourse : Rule → State → Course} {p q : Pattern} {offset : Nat}

/-- A limit that is passed in the first of two patterns stays passed. -/
theorem tooDeep_seq (hkeeps : KeepsLimit (matchPattern chars callRule q))
    (h : (matchPattern chars callRule p s).2.tooDeep = some offset) :
    (matchPattern chars callRule (.seq p q) s).2.tooDeep = some offset := by
  simp only [matchPattern]
  cases hrun : matchPattern chars callRule p s with
  | mk ok t =>
      rw [hrun] at h
      cases ok with
      | false => exact h
      | true => exact hkeeps.eq_some (s := t) h

theorem tooDeep_alt (hkeeps : KeepsLimit (matchPattern chars callRule q))
    (h : (matchPattern chars callRule p s).2.tooDeep = some offset) :
    (matchPattern chars callRule (.alt p q) s).2.tooDeep = some offset := by
  simp only [matchPattern]
  cases hrun : matchPattern chars callRule p s with
  | mk ok t =>
      rw [hrun] at h
      cases ok with
      | false => exact hkeeps.eq_some (s := t) h
      | true => exact h

variable (hp : Limits limit (courseOfPattern chars callRule callCourse p)
    (matchPattern chars callRule p) (matchPattern chars callRule' p))
  (hq : Limits limit (courseOfPattern chars callRule callCourse q)
    (matchPattern chars callRule q) (matchPattern chars callRule' q))
  (hfollows : Follows (matchPattern chars callRule p) (courseOfPattern chars callRule callCourse p))
  (hkeeps : KeepsLimit (matchPattern chars callRule q))
  (hkeeps' : KeepsLimit (matchPattern chars callRule' q))

include hp hq hfollows hkeeps hkeeps'

theorem limits_seq : Limits limit (courseOfPattern chars callRule callCourse (.seq p q))
    (matchPattern chars callRule (.seq p q)) (matchPattern chars callRule' (.seq p q)) := by
  intro s hs
  have hdepth := (hfollows s).depth
  have hstuck : ∀ {offset}, (matchPattern chars callRule' p s).2.tooDeep = some offset →
      (matchPattern chars callRule' (.seq p q) s).2.tooDeep = some offset := tooDeep_seq hkeeps'
  simp only [matchPattern, courseOfPattern] at hs ⊢
  cases hrun : matchPattern chars callRule p s with
  | mk ok s' =>
      rw [hrun] at hs hdepth
      have hround : s'.tooDeep = none → (matchPattern chars callRule p s).2.tooDeep = none := by
        rw [hrun]
        exact id
      cases ok with
      | false =>
          dsimp only
          split
          next hpath => rw [hp.eq (hround hs) hpath, hrun]
          next opening hpath => exact hstuck (hp.stuck (hround hs) hpath)
      | true =>
          have hs' : s'.tooDeep = none := hkeeps.eq_none hs
          dsimp only
          rw [Course.pastLimit_next]
          cases hpath : (courseOfPattern chars callRule callCourse p s).pastLimit limit s.depth with
          | some opening => exact hstuck (hp.stuck (hround hs') hpath)
          | none =>
              have hsecond := hq s' hs
              rw [show s'.depth = s.depth from hdepth] at hsecond
              rw [hp.eq (hround hs') hpath, hrun]
              exact hsecond

theorem limits_alt : Limits limit (courseOfPattern chars callRule callCourse (.alt p q))
    (matchPattern chars callRule (.alt p q)) (matchPattern chars callRule' (.alt p q)) := by
  intro s hs
  have hdepth := (hfollows s).depth
  have hstuck : ∀ {offset}, (matchPattern chars callRule' p s).2.tooDeep = some offset →
      (matchPattern chars callRule' (.alt p q) s).2.tooDeep = some offset := tooDeep_alt hkeeps'
  simp only [matchPattern, courseOfPattern] at hs ⊢
  cases hrun : matchPattern chars callRule p s with
  | mk ok s' =>
      rw [hrun] at hs hdepth
      have hround : s'.tooDeep = none → (matchPattern chars callRule p s).2.tooDeep = none := by
        rw [hrun]
        exact id
      cases ok with
      | true =>
          dsimp only
          split
          next hpath => rw [hp.eq (hround hs) hpath, hrun]
          next opening hpath => exact hstuck (hp.stuck (hround hs) hpath)
      | false =>
          have hs' : s'.tooDeep = none := hkeeps.eq_none hs
          dsimp only
          rw [Course.pastLimit_next]
          cases hpath : (courseOfPattern chars callRule callCourse p s).pastLimit limit s.depth with
          | some opening => exact hstuck (hp.stuck (hround hs') hpath)
          | none =>
              have hsecond := hq s' hs
              rw [show s'.depth = s.depth from hdepth] at hsecond
              rw [hp.eq (hround hs') hpath, hrun]
              exact hsecond

end Operators

theorem limits_matchPattern {chars : Array Char} {callRule callRule' : Rule → Match}
    {callCourse : Rule → State → Course}
    (hcall : ∀ rule, Limits limit (callCourse rule) (callRule rule) (callRule' rule))
    (hfollows : ∀ rule, Follows (callRule rule) (callCourse rule))
    (hkeeps : ∀ rule, KeepsLimit (callRule rule)) (hkeeps' : ∀ rule, KeepsLimit (callRule' rule))
    (p : Pattern) :
    Limits limit (courseOfPattern chars callRule callCourse p) (matchPattern chars callRule p)
      (matchPattern chars callRule' p) := by
  have hkeep (p : Pattern) : KeepsLimit (matchPattern chars callRule p) :=
    keepsLimit_matchPattern hkeeps p
  have hkeep' (p : Pattern) : KeepsLimit (matchPattern chars callRule' p) :=
    keepsLimit_matchPattern hkeeps' p
  have hfollow (p : Pattern) : Follows (matchPattern chars callRule p)
      (courseOfPattern chars callRule callCourse p) := follows_matchPattern hfollows p
  induction p with
  | char | range | any => exact limits_matchChar chars _
  | stop | act => exact fun s _ => rfl
  | call rule => exact hcall rule
  | seq p q ihp ihq => exact limits_seq ihp ihq (hfollow p) (hkeep q) (hkeep' q)
  | alt p q ihp ihq => exact limits_alt ihp ihq (hfollow p) (hkeep q) (hkeep' q)
  | star p ih =>
      intro s hs
      have hrounds := limits_repeatMatch ih (hfollow p) (hkeep p) (hkeep' p)
        (chars.size - s.cursor + 1) s hs
      simp only [matchPattern, courseOfPattern]
      split
      next hpath => rw [hpath] at hrounds; rw [hrounds]
      next opening hpath => rw [hpath] at hrounds; exact hrounds
  | group p ih | opt p ih =>
      intro s hs
      simp only [matchPattern, courseOfPattern] at hs ⊢
      have hbody : (matchPattern chars callRule p s).2.tooDeep = none := by
        split at hs
        next hrun => rw [hrun]; exact hs
        next hrun => rw [hrun]; exact hs
      split
      next hpath => rw [ih.eq hbody hpath]
      next opening hpath =>
        have hstuck := ih.stuck hbody hpath
        split
        next hrun' => rw [hrun'] at hstuck; exact hstuck
        next hrun' => rw [hrun'] at hstuck; exact hstuck
  | notAhead p ih =>
      intro s hs
      have hbody := ih { s with lookaheads := s.lookaheads + 1 } hs
      simp only [matchPattern, courseOfPattern, Course.pastLimit_ahead] at hbody ⊢
      split
      next hpath => rw [hpath] at hbody; rw [hbody]
      next opening hpath => rw [hpath] at hbody; exact hbody

theorem attempt_tooDeep {rule : Rule} {body : Match} :
    (attempt rule body s).2.tooDeep = (body s.enter).2.tooDeep := by
  unfold attempt
  cases body s.enter with
  | mk ok s' =>
      cases ok with
      | true => rfl
      | false =>
          obtain ⟨furthest, hrecord⟩ := recordFailure_eq s' rule s.cursor s'.reach
          dsimp only
          rw [hrecord]
          rfl

theorem limits_attempt {rule : Rule} {body body' : Match} {bodyCourse : State → Course}
    (hbody : Limits limit bodyCourse body body') :
    Limits limit (fun s => bodyCourse s.enter) (attempt rule body) (attempt rule body') := by
  refine limits_of (fun s hs hpath => ?_) (fun s opening hs hpath => ?_)
  · rw [attempt_tooDeep] at hs
    unfold attempt
    rw [hbody.eq hs hpath]
  · rw [attempt_tooDeep] at hs ⊢
    exact hbody.stuck hs hpath

theorem remember_tooDeep {rule : Rule} {body : Match} (s : State) :
    (remember rule body s).2.tooDeep =
      if (s.memory.lookup (rule, s.cursor)).isSome then s.tooDeep
      else (body s.enter).2.tooDeep := by
  unfold remember
  cases s.memory.lookup (rule, s.cursor) with
  | some outcome => cases outcome <;> rfl
  | none =>
      cases body s.enter with
      | mk ok s' => cases ok <;> rfl

theorem limits_remember {rule : Rule} {body body' : Match} {path : State → Course}
    (hbody : Limits limit path body body') :
    Limits limit (fun s => match s.memory.lookup (rule, s.cursor) with
      | some _ => .nothing
      | none => path s.enter) (remember rule body) (remember rule body') := by
  have hsame : ∀ s, (s.memory.lookup (rule, s.cursor) = none → body' s.enter = body s.enter) →
      remember rule body' s = remember rule body s := by
    intro s h
    unfold remember
    cases hlookup : s.memory.lookup (rule, s.cursor) with
    | some outcome => cases outcome <;> rfl
    | none => rw [h hlookup]
  refine limits_of (fun s hs hpath => hsame s fun hlookup => ?_) (fun s opening hs hpath => ?_)
  · rw [remember_tooDeep, hlookup] at hs
    rw [hlookup] at hpath
    exact hbody.eq hs hpath
  · cases hlookup : s.memory.lookup (rule, s.cursor) with
    | some outcome => rw [hlookup] at hpath; cases hpath
    | none =>
        rw [remember_tooDeep, hlookup] at hs ⊢
        rw [hlookup] at hpath
        exact hbody.stuck hs hpath

theorem exists_courseOfAttempt (rule : Rule) (body : Match) (bodyCourse : State → Course)
    (s : State) : ∃ failure, courseOfAttempt rule body bodyCourse s =
      .attempt rule s.cursor failure (bodyCourse s.enter) := by
  unfold courseOfAttempt
  split
  · exact ⟨_, rfl⟩
  · exact ⟨_, rfl⟩

theorem count_of_full {maxDepth : Nat} {body : Match} (hopen : s.tooDeep = none)
    (hfull : maxDepth ≤ s.depth) :
    count maxDepth body s = (false, { s with tooDeep := some s.cursor }) := by
  unfold count
  rw [hopen, if_neg (show ¬ (none : Option Nat).isSome = true from Bool.false_ne_true),
    if_pos hfull]

theorem count_of_room {maxDepth : Nat} {body : Match} (hopen : s.tooDeep = none)
    (hroom : s.depth < maxDepth) {ok : Bool} {s' : State}
    (hrun : body { s with depth := s.depth + 1 } = (ok, s')) :
    count maxDepth body s = (ok, { s' with depth := s'.depth - 1 }) := by
  unfold count
  rw [if_neg (by rw [hopen]; exact Bool.false_ne_true), if_neg (Nat.not_le.mpr hroom), hrun]

/-- A counted rule below its own limit goes past the other limit where as many rules are open. -/
theorem limits_count {maxDepth : Nat} {rule : Rule} {body body' : Match}
    {bodyCourse : State → Course} (hrule : rule.isCounted = true)
    (hbody : Limits limit (fun s => bodyCourse s.enter) (attempt rule body) body') :
    Limits limit (fun s => if s.tooDeep.isSome || s.depth ≥ maxDepth then .nothing
        else courseOfAttempt rule body bodyCourse { s with depth := s.depth + 1 })
      (count maxDepth (attempt rule body)) (count limit body') := by
  intro s hs
  have hopen : s.tooDeep = none := keepsLimit_count.eq_none hs
  have hroom : s.depth < maxDepth := by
    refine Nat.not_le.mp fun hfull => ?_
    rw [count_of_full hopen hfull] at hs
    cases hs
  have hguard : ¬ (s.tooDeep.isSome || decide (s.depth ≥ maxDepth)) = true := by
    simp [hopen, hroom]
  obtain ⟨failure, hcourse⟩ := exists_courseOfAttempt rule body bodyCourse
    { s with depth := s.depth + 1 }
  dsimp only
  rw [if_neg hguard, hcourse, Course.pastLimit_counted hrule]
  have hround := hbody { s with depth := s.depth + 1 }
  by_cases hpast : limit ≤ s.depth
  · rw [if_pos hpast, count_of_full hopen hpast]
  · rw [if_neg hpast]
    cases hrun : attempt rule body { s with depth := s.depth + 1 } with
    | mk ok t =>
        rw [count_of_room hopen hroom hrun] at hs ⊢
        rw [hrun] at hround
        specialize hround hs
        dsimp only at hround ⊢
        split
        next hpath =>
          rw [hpath] at hround
          exact count_of_room hopen (Nat.not_le.mp hpast) hround
        next opening hpath =>
          rw [hpath] at hround
          cases hrun' : body' { s with depth := s.depth + 1 } with
          | mk ok' t' =>
              rw [hrun'] at hround
              rw [count_of_room hopen (Nat.not_le.mp hpast) hrun']
              exact hround

theorem limits_matchRule {setup : Setup} {rule : Rule} {body body' : Match}
    {bodyCourse : State → Course} (hbody : Limits limit bodyCourse body body') :
    Limits limit (courseOfRule setup rule body bodyCourse) (matchRule setup rule body)
      (matchRule { setup with maxDepth := limit } rule body') := by
  have hattempt : Limits limit (fun s => bodyCourse s.enter) (attempt rule body)
      (attempt rule body') := limits_attempt hbody
  unfold matchRule courseOfRule
  cases hcounted : rule.isCounted with
  | true => exact limits_count hcounted hattempt
  | false =>
      have huncounted : Limits limit (courseOfAttempt rule body bodyCourse) (attempt rule body)
          (attempt rule body') := by
        intro s hs
        obtain ⟨failure, hcourse⟩ := exists_courseOfAttempt rule body bodyCourse s
        rw [hcourse, Course.pastLimit_uncounted hcounted]
        exact hattempt s hs
      cases hremembered : rule.isRemembered && setup.reuse with
      | true => exact limits_remember huncounted
      | false => exact huncounted

theorem limits_call (setup : Setup) (fuel : Nat) (rule : Rule) :
    Limits limit (courseOfCall setup fuel rule) (call setup fuel rule)
      (call { setup with maxDepth := limit } fuel rule) := by
  induction fuel generalizing rule with
  | zero => exact fun s _ => rfl
  | succ fuel ih =>
      exact limits_matchRule (limits_matchPattern ih (follows_call setup fuel)
        (keepsLimit_call setup fuel) (keepsLimit_call _ fuel) rule.production)

/-- A run under a limit that another run does not pass is that run. -/
theorem run_eq_of_pastLimit {chars : Array Char} {maxDepth : Nat} {reuse : Bool}
    (hs : (run ⟨chars, maxDepth, reuse⟩).2.tooDeep = none)
    (hpath : (course ⟨chars, maxDepth, reuse⟩).pastLimit limit 0 = none) :
    run ⟨chars, limit, reuse⟩ = run ⟨chars, maxDepth, reuse⟩ := by
  unfold run at hs ⊢
  unfold course at hpath
  -- The fuel depends on the text alone, and its size must not be computed.
  generalize fuel chars = fuel at hs hpath ⊢
  exact (limits_call ⟨chars, maxDepth, reuse⟩ fuel .program).eq hs hpath

/-- A run under a limit that another run passes keeps where that was first. -/
theorem tooDeep_run_of_pastLimit {chars : Array Char} {maxDepth : Nat} {reuse : Bool}
    (hs : (run ⟨chars, maxDepth, reuse⟩).2.tooDeep = none)
    (hpath : (course ⟨chars, maxDepth, reuse⟩).pastLimit limit 0 = some opening) :
    (run ⟨chars, limit, reuse⟩).2.tooDeep = some opening.offset := by
  unfold run at hs ⊢
  unfold course at hpath
  generalize fuel chars = fuel at hs hpath ⊢
  exact (limits_call ⟨chars, maxDepth, reuse⟩ fuel .program).stuck hs hpath

/-- A limit that is not smaller than the text is never passed. -/
theorem tooDeep_run {setup : Setup} (hdepth : setup.chars.size ≤ setup.maxDepth) :
    (run setup).2.tooDeep = none :=
  Classical.byContradiction fun hlimit =>
    Nat.not_lt.mpr hdepth ((adequate_run setup).limited hlimit)

end Limits

end Matcher

section Tokenize

variable {reuse : Bool} {maxDepth : Nat} {chars : Array Char}

/-- What a text gives under a limit, from the course of a run that stays below its own. -/
theorem tokenizeWith_eq_of_pastLimit (hdepth : chars.size ≤ maxDepth) (limit : Nat) :
    tokenizeWith reuse limit chars =
      ((Matcher.course ⟨chars, maxDepth, reuse⟩).pastLimit limit 0).elim
        (tokenizeWith reuse maxDepth chars) fun first =>
          .error (.ofToken (.nestingLimit limit)
            ⟨.rule .expression, first.offset, first.offset⟩ chars) := by
  have hunlimited : (Matcher.run ⟨chars, maxDepth, reuse⟩).2.tooDeep = none :=
    Matcher.tooDeep_run hdepth
  unfold tokenizeWith
  cases hpath : (Matcher.course ⟨chars, maxDepth, reuse⟩).pastLimit limit 0 with
  | none =>
      have hsame : Matcher.run ⟨chars, limit, reuse⟩ = Matcher.run ⟨chars, maxDepth, reuse⟩ :=
        Matcher.run_eq_of_pastLimit hunlimited hpath
      rw [hsame]
      cases hrun : Matcher.run ⟨chars, maxDepth, reuse⟩ with
      | mk ok s =>
          rw [hrun] at hunlimited
          have hopen : s.tooDeep = none := hunlimited
          simp only [hopen, Option.elim_none]
  | some opening =>
      have hround : (Matcher.run ⟨chars, limit, reuse⟩).2.tooDeep = some opening.offset :=
        Matcher.tooDeep_run_of_pastLimit hunlimited hpath
      cases hrun : Matcher.run ⟨chars, limit, reuse⟩ with
      | mk ok s =>
          rw [hrun] at hround
          have hstuck : s.tooDeep = some opening.offset := hround
          simp only [hstuck, Option.elim_some]

end Tokenize

end Sumscript

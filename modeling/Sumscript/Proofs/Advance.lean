import Sumscript.Proofs.Rollback

/-! # Matching moves on

Whatever the nesting limit, a rule that cannot match nothing moves the cursor when it matches. What
a match remembers stands behind the place where the match starts, or right there for a rule of
lower rank than its own, so nothing is remembered twice. A remembered match covers a part of the
text that is not empty, and its tokens lie in that part, the token of the rule itself last.
-/

namespace Sumscript

/-- A token covers a part of the text between two offsets. -/
structure Token.Within (i j : Nat) (t : Token) : Prop where
  start : i ≤ t.start
  le : t.start ≤ t.stop
  stop : t.stop ≤ j

theorem Token.Within.widen {i i' j j' : Nat} {t : Token} (h : t.Within i j) (hi : i' ≤ i)
    (hj : j ≤ j') : t.Within i' j' :=
  ⟨Nat.le_trans hi h.start, h.le, Nat.le_trans h.stop hj⟩

namespace Matcher

/-- What a remembered outcome of a rule at an offset is like. The newest token of a match is that of
the rule itself, and it covers the match. -/
inductive Fits (rule : Rule) (offset : Nat) : Memory → Prop where
  | matched {stop reach inner} (hrule : rule.isRemembered = true) (hmoves : offset < stop)
      (hreach : stop ≤ reach) (hinner : ∀ t ∈ inner, Token.Within offset stop t) :
      Fits rule offset (.matched stop reach (⟨.rule rule, offset, stop⟩ :: inner))
  | failed {reach} : Fits rule offset (.failed reach)

/-- What a rule at an offset is remembered under comes behind another offset, or there for a rule
below a rank. -/
def Beyond (cursor rank : Nat) (key : Rule × Nat) : Prop :=
  cursor < key.2 ∨ cursor = key.2 ∧ key.1.rank < rank

/-- A state in the text that has looked as far as it is and remembers every outcome once. -/
structure Kept (chars : Array Char) (s : State) : Prop extends InText chars s where
  cursor_le_reach : s.cursor ≤ s.reach
  fits : ∀ entry ∈ s.memory, Fits entry.1.1 entry.1.2 entry.2
  once : (s.memory.map Prod.fst).Nodup

/-- A state remembers what another one did, and has learned only what comes beyond that one. -/
structure Learns (rank : Nat) (s s' : State) : Prop where
  fits : ∀ entry ∈ s'.memory, Fits entry.1.1 entry.1.2 entry.2
  once : (s'.memory.map Prod.fst).Nodup
  memory : ∃ new, s'.memory = new ++ s.memory ∧ ∀ entry ∈ new, Beyond s.cursor rank entry.1

/-- The outcome of a match from a state learns only what comes beyond it, and the tokens it adds lie
where it has been. A success has moved on if the match is one that consumes something. -/
structure Advances (consumes : Bool) (rank : Nat) (s : State) (result : Bool × State) : Prop where
  learns : Learns rank s result.2
  cursor_le_reach : result.2.cursor ≤ result.2.reach
  consumed : result.1 = true → consumes = true → s.cursor < result.2.cursor
  logged : ∃ new, result.2.log = new ++ s.log ∧
    ∀ t ∈ new, Token.Within s.cursor result.2.cursor t

section Advances

variable {chars : Array Char} {consumes consumes' ok : Bool} {rank rank' : Nat}
  {s s' s'' : State} {result : Bool × State} {callRule : Rule → Match}

theorem Kept.enter (hs : Kept chars s) : Kept chars s.enter :=
  ⟨hs.toInText.enter, Nat.le_refl _, hs.fits, hs.once⟩

theorem Kept.ahead (hs : Kept chars s) : Kept chars { s with lookaheads := s.lookaheads + 1 } :=
  ⟨⟨hs.cursor_le_size, hs.remembered⟩, hs.cursor_le_reach, hs.fits, hs.once⟩

theorem Kept.deeper (hs : Kept chars s) : Kept chars { s with depth := s.depth + 1 } :=
  ⟨⟨hs.cursor_le_size, hs.remembered⟩, hs.cursor_le_reach, hs.fits, hs.once⟩

theorem Kept.learns (hs : Kept chars s) : Learns rank s s :=
  ⟨hs.fits, hs.once, [], rfl, List.forall_mem_nil _⟩

theorem Beyond.mono {cursor cursor' : Nat} {key : Rule × Nat} (h : Beyond cursor' rank' key)
    (hcursor : cursor ≤ cursor') (hrank : cursor = cursor' → rank' ≤ rank) :
    Beyond cursor rank key := by
  unfold Beyond at *
  omega

theorem Learns.mono (h : Learns rank' s s') (hrank : rank' ≤ rank) : Learns rank s s' := by
  obtain ⟨new, hmemory, hbeyond⟩ := h.memory
  exact ⟨h.fits, h.once, new, hmemory, fun entry hentry =>
    (hbeyond entry hentry).mono (Nat.le_refl _) fun _ => hrank⟩

/-- Only the memories and the place before matter. -/
theorem Learns.congr {t t' : State} (h : Learns rank s s') (hcursor : t.cursor = s.cursor)
    (hmemory : t.memory = s.memory) (hmemory' : t'.memory = s'.memory) : Learns rank t t' := by
  obtain ⟨hfits, honce, hnew⟩ := h
  rw [← hmemory'] at hfits honce
  rw [← hmemory, ← hmemory', ← hcursor] at hnew
  exact ⟨hfits, honce, hnew⟩

/-- What is learned from a later state comes beyond an earlier one. -/
theorem Learns.trans (h : Learns rank s s') (h' : Learns rank' s' s'')
    (hcursor : s.cursor ≤ s'.cursor) (hrank : s.cursor = s'.cursor → rank' ≤ rank) :
    Learns rank s s'' := by
  obtain ⟨new, hmemory, hbeyond⟩ := h.memory
  obtain ⟨new', hmemory', hbeyond'⟩ := h'.memory
  refine ⟨h'.fits, h'.once, new' ++ new, ?_, List.forall_mem_append.mpr ⟨?_, hbeyond⟩⟩
  · rw [hmemory', hmemory, List.append_assoc]
  · exact fun entry hentry => (hbeyond' entry hentry).mono hcursor hrank

theorem Advances.mono (h : Advances consumes' rank' s result) (hrank : rank' ≤ rank)
    (hconsumes : consumes = true → consumes' = true) : Advances consumes rank s result :=
  ⟨h.learns.mono hrank, h.cursor_le_reach, fun hok hc => h.consumed hok (hconsumes hc), h.logged⟩

/-- What leaves the cursor and the log alone may fail, and succeed where nothing need be consumed. -/
theorem Advances.unmoved (hok : ok = true → consumes = false) (h : Learns rank s s')
    (hreach : s'.cursor ≤ s'.reach) (hlog : s'.log = s.log) :
    Advances consumes rank s (ok, s') :=
  ⟨h, hreach, fun hmatched hc => Bool.noConfusion ((hok hmatched).symm.trans hc),
    [], hlog, List.forall_mem_nil _⟩

theorem Advances.failed (h : Learns rank s s') (hreach : s'.cursor ≤ s'.reach)
    (hlog : s'.log = s.log) : Advances consumes rank s (false, s') :=
  .unmoved (fun hok => Bool.noConfusion hok) h hreach hlog

/-- A state in which a match has ended is fit for the next one. -/
theorem Kept.of_advances (hgrows : Grows chars s result.2)
    (h : Advances consumes rank s result) : Kept chars result.2 :=
  ⟨hgrows.inText, h.cursor_le_reach, h.learns.fits, h.learns.once⟩

/-- A second match goes on where the first one ended. If it fails, what the first one added stays. -/
theorem Advances.trans {first : Bool} (h : Advances consumes rank s (first, s'))
    (h' : Advances consumes' rank' s' (ok, s'')) (hfirst : ok = true → consumes = true →
      first = true) (hcursor : s.cursor ≤ s'.cursor) (hcursor' : s'.cursor ≤ s''.cursor)
    (hrank : s.cursor = s'.cursor → rank' ≤ rank) :
    Advances (consumes || consumes') rank s (ok, s'') := by
  obtain ⟨new, hlog, hwithin⟩ := h.logged
  obtain ⟨new', hlog', hwithin'⟩ := h'.logged
  refine ⟨h.learns.trans h'.learns hcursor hrank, h'.cursor_le_reach, fun hok hc => ?_,
    new' ++ new, ?_, List.forall_mem_append.mpr ⟨?_, ?_⟩⟩
  · rcases (Bool.or_eq_true _ _).mp hc with hc | hc
    · exact Nat.lt_of_lt_of_le (h.consumed (hfirst hok hc) hc) hcursor'
    · exact Nat.lt_of_le_of_lt hcursor (h'.consumed hok hc)
  · dsimp only at hlog hlog' ⊢
    rw [hlog', hlog, List.append_assoc]
  · exact fun t ht => (hwithin' t ht).widen hcursor (Nat.le_refl _)
  · exact fun t ht => (hwithin t ht).widen (Nat.le_refl _) hcursor'

theorem advances_matchChar (hs : Kept chars s) (accepts : Char → Bool) :
    Advances true rank s (matchChar chars accepts s) := by
  unfold matchChar
  split
  · split
    · exact ⟨hs.learns.congr rfl rfl rfl, Nat.le_max_right _ _, fun _ _ => Nat.lt_succ_self _,
        [], rfl, List.forall_mem_nil _⟩
    · exact .failed hs.learns hs.cursor_le_reach rfl
  · exact .failed hs.learns hs.cursor_le_reach rfl

/-- What goes back after it has added something keeps what it learned. -/
theorem Advances.restore (h : Advances consumes' rank s (false, s')) (hgrows : Grows chars s s')
    (hs : Kept chars s) (hok : ok = true → consumes = false) :
    Advances consumes rank s (ok, s'.restore s.checkpoint) :=
  .unmoved hok (h.learns.congr rfl rfl rfl) (Nat.le_trans hs.cursor_le_reach hgrows.le_reach)
    (State.restore_log hgrows.log)

theorem advances_repeatMatch {body : Match} (hadds : Adds chars body)
    (hbody : ∀ {s}, Kept chars s → Advances true rank s (body s)) (count : Nat)
    (hs : Kept chars s) : Advances false rank s (true, repeatMatch body count s) := by
  induction count generalizing s with
  | zero => exact .unmoved (fun _ => rfl) hs.learns hs.cursor_le_reach rfl
  | succ count ih =>
      have hround := hbody hs
      have hgrows := hadds s hs.toInText
      rw [repeatMatch]
      split
      next s' hrun =>
        rw [hrun] at hround hgrows
        exact hround.restore hgrows hs fun _ => rfl
      next s' hrun =>
        rw [hrun] at hround hgrows
        have hs' : Kept chars s' := .of_advances hgrows hround
        split
        · exact hround.mono (Nat.le_refl _) fun hc => Bool.noConfusion hc
        · have hrest := grows_repeatMatch hadds count hs'.toInText
          exact (hround.trans (ih hs') (fun _ _ => rfl) hgrows.cursor_le hrest.cursor_le
            fun _ => Nat.le_refl _).mono (Nat.le_refl _) fun hc => Bool.noConfusion hc

theorem advances_seq {p q : Pattern} (hcall : ∀ rule, Undoes chars (callRule rule))
    (hfirst : Advances consumes rank s (matchPattern chars callRule p s))
    (hsecond : ∀ {s'}, Kept chars s' →
      Advances consumes' rank' s' (matchPattern chars callRule q s'))
    (hrank : consumes = true ∨ rank' ≤ rank) (hs : Kept chars s) :
    Advances (consumes || consumes') rank s (matchPattern chars callRule (.seq p q) s) := by
  have hgrows := adds_matchPattern hcall p s hs.toInText
  simp only [matchPattern]
  split
  next s' hrun =>
    rw [hrun] at hfirst
    exact ⟨hfirst.learns, hfirst.cursor_le_reach, fun hok => Bool.noConfusion hok, hfirst.logged⟩
  next s' hrun =>
    rw [hrun] at hfirst hgrows
    have hs' : Kept chars s' := .of_advances hgrows hfirst
    -- Behind a character that was consumed the rank starts anew.
    have hrank : s.cursor = s'.cursor → rank' ≤ rank := fun hsame => hrank.resolve_left fun hc =>
      absurd hsame (Nat.ne_of_lt (hfirst.consumed rfl hc))
    exact hfirst.trans (hsecond hs') (fun _ _ => rfl) hgrows.cursor_le
      (adds_matchPattern hcall q s' hs'.toInText).cursor_le hrank

theorem advances_alt {p q : Pattern} (hcall : ∀ rule, Undoes chars (callRule rule))
    (hfirst : Advances consumes rank s (matchPattern chars callRule p s))
    (hsecond : ∀ {s'}, Kept chars s' →
      Advances consumes rank s' (matchPattern chars callRule q s'))
    (hs : Kept chars s) :
    Advances consumes rank s (matchPattern chars callRule (.alt p q) s) := by
  have hgrows := adds_matchPattern hcall p s hs.toInText
  simp only [matchPattern]
  split
  next s' hrun =>
    rw [hrun] at hfirst
    exact hfirst
  next s' hrun =>
    rw [hrun] at hfirst hgrows
    have hs' : Kept chars s' := .of_advances hgrows hfirst
    -- The first alternative has not matched, so only the second one has to consume something.
    have hfirst : Advances false rank s (false, s') :=
      hfirst.mono (Nat.le_refl _) fun hc => Bool.noConfusion hc
    exact hfirst.trans (hsecond hs') (fun _ hc => Bool.noConfusion hc) hgrows.cursor_le
      (adds_matchPattern hcall q s' hs'.toInText).cursor_le fun _ => Nat.le_refl _

theorem advances_group {p : Pattern} (hcall : ∀ rule, Undoes chars (callRule rule))
    (hbody : Advances consumes rank s (matchPattern chars callRule p s)) (hs : Kept chars s) :
    Advances consumes rank s (matchPattern chars callRule (.group p) s) := by
  have hgrows := adds_matchPattern hcall p s hs.toInText
  simp only [matchPattern]
  split
  next s' hrun =>
    rw [hrun] at hbody
    exact hbody
  next s' hrun =>
    rw [hrun] at hbody hgrows
    exact hbody.restore hgrows hs fun hok => Bool.noConfusion hok

theorem advances_opt {p : Pattern} (hcall : ∀ rule, Undoes chars (callRule rule))
    (hbody : Advances consumes rank s (matchPattern chars callRule p s)) (hs : Kept chars s) :
    Advances false rank s (matchPattern chars callRule (.opt p) s) := by
  have hgrows := adds_matchPattern hcall p s hs.toInText
  simp only [matchPattern]
  split
  next s' hrun =>
    rw [hrun] at hbody
    exact hbody.mono (Nat.le_refl _) fun hc => Bool.noConfusion hc
  next s' hrun =>
    rw [hrun] at hbody hgrows
    exact hbody.restore hgrows hs fun _ => rfl

/-- What is learned in a lookahead stays, though the match goes back in any case. -/
theorem advances_notAhead {p : Pattern} (hcall : ∀ rule, Undoes chars (callRule rule))
    (hbody : Advances consumes rank { s with lookaheads := s.lookaheads + 1 }
      (matchPattern chars callRule p { s with lookaheads := s.lookaheads + 1 }))
    (hs : Kept chars s) : Advances false rank s (matchPattern chars callRule (.notAhead p) s) := by
  have hgrows := adds_matchPattern hcall p _ hs.ahead.toInText
  exact .unmoved (fun _ => rfl) (hbody.learns.congr rfl rfl rfl) hs.cursor_le_reach
    (State.restore_log hgrows.log)

/-- Every pattern moves on if the rules do. It only calls rules below its rank where it starts. -/
theorem advances_matchPattern (hundoes : ∀ rule, Undoes chars (callRule rule))
    (hcall : ∀ rule s, Kept chars s →
      Advances (!rule.nullable) (rule.rank + 1) s (callRule rule s))
    (p : Pattern) {opens : Bool} (hguarded : p.guarded rank opens = true) (hs : Kept chars s) :
    Advances (!p.nullable) rank s (matchPattern chars callRule p s) := by
  induction p generalizing rank opens s with
  | char | range | any => exact advances_matchChar hs _
  | stop => exact .unmoved (fun _ => rfl) hs.learns hs.cursor_le_reach rfl
  | act =>
      exact ⟨hs.learns.congr rfl rfl rfl, hs.cursor_le_reach, fun _ hc => Bool.noConfusion hc,
        [_], rfl, List.forall_mem_singleton.mpr ⟨Nat.le_refl _, Nat.le_refl _, Nat.le_refl _⟩⟩
  | call rule =>
      simp only [Pattern.guarded, Bool.and_eq_true, decide_eq_true_eq] at hguarded
      exact (hcall rule s hs).mono hguarded.1 id
  | seq p q ihp ihq =>
      simp only [Pattern.guarded, Bool.and_eq_true] at hguarded
      rw [Pattern.nullable, Bool.not_and]
      refine advances_seq hundoes (ihp hguarded.1 hs) (fun hs' => ihq hguarded.2 hs') ?_ hs
      cases p.nullable with
      | true => exact .inr (Nat.le_refl _)
      | false => exact .inl rfl
  | alt p q ihp ihq =>
      simp only [Pattern.guarded, Bool.and_eq_true] at hguarded
      rw [Pattern.nullable, Bool.not_or]
      exact advances_alt hundoes
        ((ihp hguarded.1.1 hs).mono (Nat.le_refl _) fun hc => ((Bool.and_eq_true _ _).mp hc).1)
        (fun hs' =>
          (ihq hguarded.1.2 hs').mono (Nat.le_refl _) fun hc => ((Bool.and_eq_true _ _).mp hc).2) hs
  | star p ih =>
      simp only [Pattern.guarded, Bool.and_eq_true] at hguarded
      refine advances_repeatMatch (adds_matchPattern hundoes p) (fun hs' => ?_) _ hs
      exact hguarded.2 ▸ ih hguarded.1 hs'
  | group p ih => exact advances_group hundoes (ih hguarded hs) hs
  | opt p ih => exact advances_opt hundoes (ih hguarded hs) hs
  | notAhead p ih => exact advances_notAhead hundoes (ih hguarded hs.ahead) hs

/-- The token of a rule that has matched is the newest, before those of its parts. -/
theorem attempt_logged {rule : Rule} {body : Match}
    (hbody : Advances consumes rank s.enter (body s.enter))
    (hrun : attempt rule body s = (true, s')) :
    ∃ inner, s'.log = ⟨.rule rule, s.cursor, s'.cursor⟩ :: (inner ++ s.log) ∧
      ∀ t ∈ inner, Token.Within s.cursor s'.cursor t := by
  unfold attempt at hrun
  split at hrun
  next s₁ hbodyRun =>
    rw [hbodyRun] at hbody
    cases hrun
    obtain ⟨inner, hlog, hwithin⟩ := hbody.logged
    exact ⟨inner, congrArg (_ :: ·) hlog, hwithin⟩
  next => cases hrun

theorem advances_attempt {rule : Rule} {body : Match} (hadds : Adds chars body)
    (hbody : Advances consumes rank s.enter (body s.enter)) (hs : Kept chars s) :
    Advances consumes rank s (attempt rule body s) := by
  have hgrows := hadds s.enter hs.toInText.enter
  unfold attempt
  split
  next s' hrun =>
    rw [hrun] at hbody hgrows
    obtain ⟨inner, hlog, hwithin⟩ := hbody.logged
    have hown : Token.Within s.cursor s'.cursor ⟨.rule rule, s.cursor, s'.cursor⟩ :=
      ⟨Nat.le_refl _, hgrows.cursor_le, Nat.le_refl _⟩
    exact ⟨hbody.learns.congr rfl rfl rfl,
      Nat.le_trans hbody.cursor_le_reach (Nat.le_max_right _ _), hbody.consumed,
      _ :: inner, congrArg (_ :: ·) hlog, List.forall_mem_cons.mpr ⟨hown, hwithin⟩⟩
  next s' hrun =>
    rw [hrun] at hbody hgrows
    obtain ⟨furthest, hrecord⟩ := recordFailure_eq s' rule s.cursor s'.reach
    rw [hrecord]
    exact .failed (hbody.learns.congr rfl rfl rfl)
      (Nat.le_trans hs.cursor_le_reach (Nat.le_max_left _ _)) (State.restore_log hgrows.log)

/-- An outcome that is remembered for the first time comes beyond the start of its rule, and so
does what was learned on the way to it. -/
theorem Learns.remember {rule : Rule} {outcome : Memory} (h : Learns rule.rank s s')
    (hunknown : s.memory.lookup (rule, s.cursor) = none) (hfits : Fits rule s.cursor outcome) :
    Learns (rule.rank + 1) s
      { s' with memory := ((rule, s.cursor), outcome) :: s'.memory } := by
  obtain ⟨new, hmemory, hbeyond⟩ := h.memory
  refine ⟨List.forall_mem_cons.mpr ⟨hfits, h.fits⟩, List.nodup_cons.mpr ⟨?_, h.once⟩,
    (_, outcome) :: new, congrArg (_ :: ·) hmemory, ?_⟩
  · intro hknown
    obtain ⟨entry, hentry, hkey⟩ := List.mem_map.mp hknown
    rw [hmemory] at hentry
    rcases List.mem_append.mp hentry with hentry | hentry
    · -- On the way only lower rules were remembered at this offset.
      have hbeyond := hbeyond entry hentry
      rw [hkey] at hbeyond
      rcases hbeyond with hlater | ⟨-, hlower⟩
      · exact Nat.lt_irrefl _ hlater
      · exact Nat.lt_irrefl _ hlower
    · have hdifferent := List.lookup_eq_none_iff.mp hunknown entry hentry
      rw [hkey] at hdifferent
      simp at hdifferent
  · refine List.forall_mem_cons.mpr ⟨.inr ⟨rfl, Nat.lt_succ_self _⟩, fun entry hentry => ?_⟩
    exact (hbeyond entry hentry).mono (Nat.le_refl _) fun _ => Nat.le_succ _

theorem Kept.fits_of_lookup {rule : Rule} {offset : Nat} {outcome : Memory} (hs : Kept chars s)
    (hlookup : s.memory.lookup (rule, offset) = some outcome) : Fits rule offset outcome := by
  obtain ⟨earlier, later, hmemory, -⟩ := List.lookup_eq_some_iff.mp hlookup
  exact hs.fits _ (hmemory ▸ List.mem_append_right _ List.mem_cons_self)

theorem not_nullable_of_isRemembered {rule : Rule} (h : rule.isRemembered = true) :
    rule.nullable = false := by
  cases rule <;> first | rfl | cases h

theorem advances_remember {rule : Rule} {body : Match} (hrule : rule.isRemembered = true)
    (hadds : Adds chars body)
    (hbody : Advances (!rule.nullable) rule.rank s.enter.enter (body s.enter.enter))
    (hs : Kept chars s) :
    Advances (!rule.nullable) (rule.rank + 1) s (remember rule (attempt rule body) s) := by
  unfold remember
  split
  next stop reach tokens hlookup =>
    cases hs.fits_of_lookup hlookup with
    | matched _ hmoves hreach hinner =>
        refine ⟨hs.learns.congr rfl rfl rfl, Nat.le_trans hreach (Nat.le_max_right _ _),
          fun _ _ => hmoves, _, rfl, List.forall_mem_cons.mpr ⟨?_, hinner⟩⟩
        exact ⟨Nat.le_refl _, Nat.le_of_lt hmoves, Nat.le_refl _⟩
  next reach _ =>
    exact .failed (hs.learns.congr rfl rfl rfl)
      (Nat.le_trans hs.cursor_le_reach (Nat.le_max_left _ _)) rfl
  next hunknown =>
    have hround : Advances (!rule.nullable) rule.rank s.enter (attempt rule body s.enter) :=
      advances_attempt hadds hbody hs.enter
    have hback : RollsBack chars s.enter (attempt rule body s.enter) :=
      undoes_attempt hadds s.enter hs.enter.toInText
    split
    next s' hrun =>
      rw [hrun] at hround
      obtain ⟨inner, hlog, hwithin⟩ := attempt_logged hbody hrun
      have hfits : Fits rule s.cursor
          (.matched s'.cursor s'.reach (s'.loggedSince s.checkpoint)) := by
        have hown : s'.loggedSince s.checkpoint = ⟨.rule rule, s.cursor, s'.cursor⟩ :: inner :=
          State.loggedSince_eq hlog
        rw [hown]
        exact .matched hrule
          (hround.consumed rfl ((Bool.not_eq_true' _).mpr (not_nullable_of_isRemembered hrule)))
          hround.cursor_le_reach hwithin
      exact ⟨(hround.learns.remember hunknown hfits).congr rfl rfl rfl,
        Nat.le_trans hround.cursor_le_reach (Nat.le_max_right _ _), hround.consumed, hround.logged⟩
    next s' hrun =>
      rw [hrun] at hround hback
      exact .failed ((hround.learns.remember hunknown .failed).congr rfl rfl rfl)
        (Nat.le_trans hround.cursor_le_reach (Nat.le_max_right _ _)) (hback.failed rfl).2

theorem advances_count {maxDepth : Nat} {body : Match}
    (hbody : ∀ {s}, Kept chars s → Advances consumes rank s (body s)) (hs : Kept chars s) :
    Advances consumes rank s (count maxDepth body s) := by
  unfold count
  split
  · exact .failed hs.learns hs.cursor_le_reach rfl
  · split
    · exact .failed (hs.learns.congr rfl rfl rfl) hs.cursor_le_reach rfl
    · have hround := hbody hs.deeper
      exact ⟨hround.learns.congr rfl rfl rfl, hround.cursor_le_reach, hround.consumed,
        hround.logged⟩

theorem advances_matchRule {setup : Setup} {rule : Rule} {body : Match}
    (hadds : Adds setup.chars body)
    (hbody : ∀ {s}, Kept setup.chars s → Advances (!rule.nullable) rule.rank s (body s))
    (hs : Kept setup.chars s) :
    Advances (!rule.nullable) (rule.rank + 1) s (matchRule setup rule body s) := by
  have hattempt : ∀ {s}, Kept setup.chars s →
      Advances (!rule.nullable) (rule.rank + 1) s (attempt rule body s) := fun hs =>
    (advances_attempt hadds (hbody hs.enter) hs).mono (Nat.le_succ _) id
  unfold matchRule
  split
  · exact advances_count hattempt hs
  · split
    next hremembered =>
      exact advances_remember ((Bool.and_eq_true _ _).mp hremembered).1 hadds
        (hbody hs.enter.enter) hs
    next => exact hattempt hs

/-- Every rule that a run calls moves on. What it remembers comes behind its start, or there for
itself and for lower rules. -/
theorem advances_call (setup : Setup) (fuel : Nat) (rule : Rule) (hs : Kept setup.chars s) :
    Advances (!rule.nullable) (rule.rank + 1) s (call setup fuel rule s) := by
  induction fuel generalizing rule s with
  | zero => exact .failed hs.learns hs.cursor_le_reach rfl
  | succ fuel ih =>
      refine advances_matchRule (adds_matchPattern (undoes_call setup fuel) _) (fun hs => ?_) hs
      refine (advances_matchPattern (undoes_call setup fuel) (fun rule s hs => ih rule hs) _
        (Pattern.guarded_production rule) hs).mono (Nat.le_refl _) fun hrule => ?_
      rw [Bool.not_eq_true'] at hrule ⊢
      cases hproduction : rule.production.nullable with
      | false => rfl
      | true => exact absurd (Pattern.nullable_production rule hproduction) (by simp [hrule])

end Advances

end Matcher

end Sumscript

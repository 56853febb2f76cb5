import Mathlib.Data.List.Nodup
import Sumscript.Proofs.Termination

/-! # Nothing remembered is matched twice

With remembered outcomes every attempt of an operand ends with one entry in the memory, and there
is no other entry. The memory only grows and no two of its entries stand at the same offset, so no
operand is attempted twice at one offset, neither one after the other nor inside each other.
-/

namespace Sumscript.Matcher

/-- A state remembers what another one did and one outcome for every attempt of a remembered rule
in a course. -/
def Records (s s' : State) (c : Course) : Prop :=
  (s'.memory.map Prod.fst).Perm
    (c.remembered.map (Rule.noBinopExpression, ·) ++ s.memory.map Prod.fst)

section Records

variable {setup : Setup} {s s' s'' : State} {c c' : Course} {rule : Rule}

theorem Records.nothing (hmemory : s'.memory = s.memory) : Records s s' .nothing := by
  unfold Records
  rw [hmemory]
  exact .refl _

theorem Records.congr {t t' : State} (h : Records s s' c) (hmemory : t.memory = s.memory)
    (hmemory' : t'.memory = s'.memory) : Records t t' c := by
  unfold Records
  rw [hmemory, hmemory']
  exact h

theorem Records.next (h : Records s s' c) (h' : Records s' s'' c') :
    Records s s'' (.next c c') := by
  unfold Records at *
  rw [Course.remembered, List.map_append]
  refine h'.trans ((h.append_left _).trans ?_)
  rw [← List.append_assoc]
  exact List.perm_append_comm.append_right _

/-- What is remembered in a lookahead stays, so its attempts count. -/
theorem records_composes : Composes Records where
  nothing _ _ _ hmemory := .nothing hmemory
  next := .next
  restore _ h := h.congr rfl rfl
  ahead _ h := h.congr rfl rfl
  deeper h := h.congr rfl rfl

theorem attempt_memory (rule : Rule) (body : Match) (s : State) :
    (attempt rule body s).2.memory = (body s.enter).2.memory := by
  unfold attempt
  split
  next s' hrun => rw [hrun]; rfl
  next s' hrun =>
    obtain ⟨furthest, hrecord⟩ := recordFailure_eq s' rule s.cursor s'.reach
    rw [hrecord, hrun]
    rfl

theorem remember_memory {m : Match} (hunknown : s.memory.lookup (rule, s.cursor) = none) :
    ∃ outcome, (remember rule m s).2.memory =
      ((rule, s.cursor), outcome) :: (m s.enter).2.memory := by
  unfold remember
  rw [hunknown]
  dsimp only
  split
  next s' hrun =>
    exact ⟨.matched s'.cursor s'.reach (s'.loggedSince s.checkpoint), by rw [hrun]; rfl⟩
  next s' hrun => exact ⟨.failed s'.reach, by rw [hrun]; rfl⟩

theorem remembered_courseOfAttempt (rule : Rule) (body : Match) (path : State → Course)
    (s : State) : (courseOfAttempt rule body path s).remembered =
      if rule.isRemembered then s.cursor :: (path s.enter).remembered
      else (path s.enter).remembered := by
  unfold courseOfAttempt
  split <;> rfl

theorem records_attempt {body : Match} {path : State → Course} (hbody : Traces Records body path)
    (hrule : rule.isRemembered = false) :
    Traces Records (attempt rule body) (courseOfAttempt rule body path) := by
  intro s
  unfold Records
  rw [attempt_memory, remembered_courseOfAttempt, hrule, if_neg Bool.false_ne_true]
  exact hbody s.enter

/-- The attempt of a remembered rule adds its outcome to those of the attempts inside it. -/
theorem records_remember {body : Match} {path : State → Course} (hbody : Traces Records body path)
    (hrule : rule.isRemembered = true) (hunknown : s.memory.lookup (rule, s.cursor) = none) :
    Records s (remember rule (attempt rule body) s).2 (courseOfAttempt rule body path s.enter) := by
  obtain ⟨outcome, hmemory⟩ := remember_memory (m := attempt rule body) hunknown
  have hinside : Records s.enter (attempt rule body s.enter).2 (path s.enter.enter) :=
    (hbody s.enter.enter).congr rfl (attempt_memory rule body s.enter)
  cases isRemembered_iff.mp hrule
  unfold Records
  rw [hmemory, remembered_courseOfAttempt, if_pos hrule, List.map_cons, List.map_cons]
  exact List.Perm.cons _ hinside

theorem records_matchRule {body : Match} {path : State → Course} (hreuse : setup.reuse = true)
    (hbody : Traces Records body path) :
    Traces Records (matchRule setup rule body) (courseOfRule setup rule body path) := by
  refine traces_matchRule records_composes (fun hrule => records_attempt hbody ?_)
    fun hrule s hunknown => records_remember hbody ?_ hunknown
  · rwa [hreuse, Bool.and_true] at hrule
  · rwa [hreuse, Bool.and_true] at hrule

theorem records_call (hreuse : setup.reuse = true) (fuel : Nat) (rule : Rule) :
    Traces Records (call setup fuel rule) (courseOfCall setup fuel rule) := by
  induction fuel generalizing rule with
  | zero => exact fun s => .nothing rfl
  | succ fuel ih =>
      exact records_matchRule hreuse (traces_matchPattern records_composes ih rule.production)

/-- Every attempt of a remembered rule in a run is remembered, and nothing else is. -/
theorem written_run (hreuse : setup.reuse = true) :
    ((run setup).2.memory.map Prod.fst).Perm
      ((course setup).remembered.map (Rule.noBinopExpression, ·)) := by
  unfold run course
  generalize fuel setup.chars = fuel
  have hrecords := records_call hreuse fuel .program .initial
  unfold Records at hrecords
  rwa [show State.initial.memory = [] from rfl, List.map_nil, List.append_nil] at hrecords

theorem not_known_of_opened {opened : State} (hreuse : setup.reuse = true)
    (hrule : rule.isRemembered = true) (hopened : s.opened? setup rule = some opened) :
    (rule, s.cursor) ∉ s.memory.map Prod.fst := by
  intro hknown
  obtain ⟨entry, hentry, hkey⟩ := List.mem_map.mp hknown
  have hcounted : rule.isCounted = false := by
    cases rule <;> first | rfl | cases hrule
  unfold State.opened? at hopened
  rw [hcounted, hrule, hreuse] at hopened
  cases hlookup : s.memory.lookup (rule, s.cursor) with
  | some outcome => simp [hlookup] at hopened
  | none =>
      have hdifferent := List.lookup_eq_none_iff.mp hlookup entry hentry
      simp [hkey] at hdifferent

end Records

/-- A memory in which no outcome was written over another. A match in it covers a part of the text
that is not empty and was looked at to its end. Its tokens stand in this part, the newest of them
for the operand itself. -/
structure WellKept (memory : List ((Rule × Nat) × Memory)) : Prop where
  once : (memory.map Prod.fst).Nodup
  matched : ∀ {rule offset stop reach tokens},
    ((rule, offset), Memory.matched stop reach tokens) ∈ memory →
      rule = .noBinopExpression ∧ offset < stop ∧ stop ≤ reach ∧
        (∀ t ∈ tokens, Token.Within offset stop t) ∧
        tokens.head? = some ⟨.rule .noBinopExpression, offset, stop⟩

/-- A run matches an operand at most once at every offset. -/
structure MatchesOnce (setup : Setup) : Prop where
  /-- No two attempts of the whole run start at the same offset. -/
  starts : (course setup).remembered.Nodup
  /-- Every attempt is remembered at its offset, and nothing else is. -/
  written : ((run setup).2.memory.map Prod.fst).Perm
    ((course setup).remembered.map (Rule.noBinopExpression, ·))
  /-- No attempt starts where the outcome is known. -/
  unknown : ∀ {fuel s opened}, Reached setup fuel .noBinopExpression s →
    s.opened? setup .noBinopExpression = some opened →
    (.noBinopExpression, s.cursor) ∉ s.memory.map Prod.fst
  /-- No attempt starts inside another one at the same offset. -/
  apart : ∀ {fuel s fuel' t}, Reached setup fuel .noBinopExpression s →
    Inside setup fuel .noBinopExpression s fuel' .noBinopExpression t → t.cursor ≠ s.cursor
  /-- Every call of the run, the run as a whole among them, adds to a memory that is well kept. -/
  memory : ∀ {fuel rule s}, Reached setup fuel rule s →
    s.memory <:+ (call setup fuel rule s).2.memory ∧ WellKept (call setup fuel rule s).2.memory

section MatchesOnce

variable {setup : Setup} {fuel : Nat} {rule : Rule} {s : State}

theorem Kept.wellKept {chars : Array Char} (hs : Kept chars s) : WellKept s.memory where
  once := hs.once
  matched {rule offset stop reach tokens} hentry := by
    have hfits : Fits rule offset (.matched stop reach tokens) := hs.fits _ hentry
    cases hfits with
    | matched hrule hmoves hreach hinner =>
        obtain rfl : rule = .noBinopExpression := isRemembered_iff.mp hrule
        have hown : Token.Within offset stop ⟨.rule .noBinopExpression, offset, stop⟩ :=
          ⟨Nat.le_refl _, Nat.le_of_lt hmoves, Nat.le_refl _⟩
        exact ⟨rfl, hmoves, hreach, List.forall_mem_cons.mpr ⟨hown, hinner⟩, rfl⟩

theorem wellKept_of_reached (h : Reached setup fuel rule s) :
    s.memory <:+ (call setup fuel rule s).2.memory ∧
      WellKept (call setup fuel rule s).2.memory := by
  have hs := kept_of_reached h
  have hround := advances_call setup fuel rule hs
  have hkept : Kept setup.chars (call setup fuel rule s).2 :=
    .of_advances (undoes_call setup fuel rule s hs.toInText).grows hround
  obtain ⟨new, hnew, -⟩ := hround.learns.memory
  exact ⟨⟨new, hnew.symm⟩, hkept.wellKept⟩

theorem wellKept_run (setup : Setup) : WellKept (run setup).2.memory := by
  have hstart : Reached setup (fuel setup.chars) .program .initial := .start
  have hkept := (wellKept_of_reached hstart).2
  unfold run
  exact hkept

theorem nodup_remembered_course (hreuse : setup.reuse = true) :
    (course setup).remembered.Nodup := by
  have honce := (written_run hreuse).nodup_iff.mp (wellKept_run setup).once
  exact honce.of_map _

/-- Whatever the text and the nesting limit are, no operand is matched twice. -/
theorem matchesOnce (chars : Array Char) (maxDepth : Nat) :
    MatchesOnce ⟨chars, maxDepth, true⟩ where
  starts := nodup_remembered_course rfl
  written := written_run rfl
  unknown _ hopened := not_known_of_opened rfl rfl hopened
  apart hreached hinside := Nat.ne_of_gt (hinside.cursor_lt hreached)
  memory := wellKept_of_reached

/-- Four calls look for an argument between the parentheses, but one attempt is made. -/
example : (course ⟨#['f', '(', ')'], 256, true⟩).remembered = [2] := by decide +kernel

end MatchesOnce

end Sumscript.Matcher

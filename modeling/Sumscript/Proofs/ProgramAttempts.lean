import Sumscript.Proofs.ExpressionAttempts
import Sumscript.Proofs.SeparatorRule

/-! # What is attempted of a program

A statement leaves nothing known at the offsets behind it, or it was cut back before a sign or a
bracket. No statement begins there, so nothing more is attempted that could be known.
-/

namespace Sumscript

open Token

section Programs

variable {chars : Array Char} {o i j e r : Nat} {result : Option Nat} {c : Course}

/-- The attempt of a statement: at the offsets behind it nothing is known, or there stands what
no statement begins with. -/
structure StatementAttempt (chars : Array Char) (o : Nat) (result : Option Nat) (c : Course) :
    Prop where
  fresh : c.Fresh o
  behind : ∀ j ∈ result, (∀ x ∈ c.remembered, x < j) ∨
    ∃ e a, Accepts chars (.call .spaces) j e ∧ chars[e]? = some a ∧ (a = '+' ∨ a = '(')

theorem accepts_variable_iff :
    Accepts chars (.call .variable) i j ↔ Accepts chars (.call .name) i j := by
  rw [accepts_call_iff]
  simp only [Rule.production, accepts_seq_iff, accepts_act_iff]
  constructor
  · rintro ⟨_, hname, rfl⟩
    exact hname
  · exact fun hname => ⟨j, hname, rfl⟩

/-- Behind an expression layout may follow. -/
theorem Accepts.layout_behind (h : Accepts chars (.call .expression) i j) :
    ∃ e, Accepts chars (.call .spaces) j e := by
  obtain ⟨_, _, -, -, -, hstop⟩ := expressionFound h
  rcases fails_seq_iff.mp hstop with hfails | ⟨e, log, hspaces, -⟩
  · exact absurd (fails_call_iff.mp hfails) not_fails_star
  · exact ⟨e, log, hspaces⟩

theorem assign_cases (h : Tries chars (.call .assign) o result r c) :
    result = none ∧ c.Plain ∨
      ∃ k a m d u, c = .attempt .assign o (result.elim (some r) fun _ => none) d ∧ d.Surrounds u ∧
        Accepts chars (.call .name) o k ∧ Accepts chars (.call .simpleSpaces) k a ∧
        chars[a]? = some '=' ∧ Accepts chars (.call .spaces) (a + 1) m ∧
        Tries chars (.call .expression) m result r u := by
  obtain ⟨d, rfl, hbody⟩ := h.call_cases
  rcases hbody.seq_quiet rfl fun h => (h.labelled rfl rfl rfl rfl).2 with
    ⟨rfl, hvariable⟩ | ⟨k, d₁, hd₁, hvariable, hbody⟩
  · exact .inl ⟨rfl, (hvariable.plain rfl).attempt rfl rfl⟩
  obtain ⟨a, d₂, hd₂, hblanks, hbody⟩ := hbody.after_layout (.inr rfl)
  rcases hbody.after_char with ⟨-, rfl, -, hquiet⟩ | ⟨hsign, d₃, hd₃, hbody⟩
  · exact .inl ⟨rfl, ((hd₁.trans hd₂).plain hquiet.toPlain).attempt rfl rfl⟩
  obtain ⟨m, d₄, hd₄, hspaces, hbody⟩ := hbody.after_layout (.inl rfl)
  obtain ⟨u, hd₅, htries⟩ := hbody.before_act
  exact .inr ⟨k, a, m, d, u, rfl, (((hd₁.trans hd₂).trans hd₃).trans hd₄).trans hd₅,
    accepts_variable_iff.mp hvariable, hblanks, hsign, hspaces, htries⟩

theorem assign_attempt (h : Tries chars (.call .assign) o result r c) :
    StatementAttempt chars o result c := by
  rcases assign_cases h with
    ⟨rfl, hplain⟩ | ⟨k, a, m, d, u, rfl, hd, hname, hblanks, hsign, hspaces, htries⟩
  · exact ⟨hplain.fresh, fun j hj => by cases hj⟩
  have hk := hname.le
  have ha := hblanks.le
  have hm := hspaces.le
  have hattempt := expression_attempt (hspaces.le_size (lt_size_of_char hsign)) htries
  refine ⟨((hd.fresh hattempt.fresh).mono (by omega)).attempt (Nat.le_refl o), fun j hj => ?_⟩
  cases hj
  obtain ⟨e, he⟩ := htries.accepts.layout_behind
  rw [Course.remembered_forgotten rfl, hd.remembered]
  cases hattempt.standing j rfl e he with
  | tidy htidy => exact .inl htidy.remembered_lt
  | dangling hdangling => exact .inr ⟨e, _, he, hdangling.sign, .inl rfl⟩
  | unclosed hunclosed => exact .inr ⟨e, _, he, hunclosed.bracket, .inr rfl⟩

theorem funcCall_attempt (h : Tries chars (.call .funcCall) o result r c) :
    CallAttempt chars o result r c :=
  call_attempt (fun _ _ hsize _ _ _ h => expression_attempt hsize h) h

theorem call_statement (h : Tries chars (.call .funcCall) o result r c) :
    StatementAttempt chars o result c := by
  have hcall := funcCall_attempt h
  refine ⟨hcall.fresh, fun j hj => ?_⟩
  cases hj
  cases hcall with
  | matched _ hremembered => exact .inl hremembered

/-- What is no assignment only behind its sign is no call either. -/
theorem call_behind_sign {k a : Nat} (hname : Accepts chars (.call .name) o k)
    (hblanks : Accepts chars (.call .simpleSpaces) k a) (hsign : chars[a]? = some '=')
    (h : Tries chars (.call .funcCall) o result r c) : result = none ∧ c.Plain := by
  cases result with
  | some j =>
      obtain ⟨k', a', _, _, _, hname', hblanks', hbracket, -⟩ := accepts_funcCall_iff.mp h.accepts
      obtain rfl := hname.unique hname'
      obtain rfl := hblanks.unique hblanks'
      cases hsign.symm.trans hbracket
  | none =>
      refine ⟨rfl, ?_⟩
      cases funcCall_attempt h with
      | noName _ hplain | noBracket _ _ hplain => exact hplain
      | unclosed hname' hblanks' hbracket =>
          obtain rfl := hname.unique hname'
          obtain rfl := hblanks.unique hblanks'
          cases hsign.symm.trans hbracket

theorem statement_attempt (h : Tries chars (.call .statement) o result r c) :
    StatementAttempt chars o result c := by
  obtain ⟨b, rfl, hbody⟩ := h.call_cases
  obtain ⟨d, hb, hbody⟩ := hbody.before_act
  suffices hd : StatementAttempt chars o result d by
    refine ⟨(hb.fresh hd.fresh).attempt (Nat.le_refl o), ?_⟩
    rw [Course.remembered_forgotten rfl, hb.remembered]
    exact hd.behind
  rcases hbody.alt_cases with ⟨j, rfl, hassign⟩ | ⟨r₁, r₂, c₁, c₂, rfl, rfl, hassign, hcall⟩
  · exact assign_attempt hassign
  rcases assign_cases hassign with ⟨-, hplain⟩ | ⟨k, a, _, _, _, -, -, hname, hblanks, hsign, -⟩
  · have hattempt := call_statement hcall
    refine ⟨.plain_next hplain hattempt.fresh, ?_⟩
    rw [Course.remembered, hplain.remembered]
    exact hattempt.behind
  · obtain ⟨rfl, hplain⟩ := call_behind_sign hname hblanks hsign hcall
    exact ⟨(assign_attempt hassign).fresh.next_plain hplain, fun j hj => by cases hj⟩

/-- A sign or a bracket begins no statement. -/
theorem stuck_statement {a : Char} (hchar : chars[o]? = some a) (ha : a = '+' ∨ a = '(')
    (h : Tries chars (.call .statement) o result r c) : result = none ∧ c.Plain := by
  have hname : Fails chars (.call .name) o := fails_name_iff.mpr fun b hb => by
    cases hchar.symm.trans hb
    rcases ha with rfl | rfl <;> rfl
  obtain ⟨b, rfl, hbody⟩ := h.call_cases
  obtain ⟨d, hb, hbody⟩ := hbody.before_act
  suffices hd : result = none ∧ d.Plain from ⟨hd.1, (hb.plain hd.2).attempt rfl rfl⟩
  have hassign : ∀ {result r c}, Tries chars (.call .assign) o result r c →
      result = none ∧ c.Plain := by
    intro result r c h
    rcases assign_cases h with h | ⟨_, _, _, _, _, -, -, hname', -⟩
    · exact h
    · exact absurd hname hname'.not_fails
  rcases hbody.alt_cases with ⟨j, rfl, hfirst⟩ | ⟨r₁, r₂, c₁, c₂, rfl, rfl, hfirst, hsecond⟩
  · cases (hassign hfirst).1
  · obtain ⟨rfl, -, hplain⟩ := call_stuck hname hsecond
    exact ⟨rfl, (hassign hfirst).2.next hplain⟩

/-- Layout goes on behind a mark in it. -/
theorem Accepts.layout_behind_mark {k : Nat} (he : Accepts chars (.call .spaces) i e)
    (hend : chars[e]? ≠ some ';') (h : Accepts chars .separatorRound i k) :
    Accepts chars (.call .spaces) k e := by
  obtain ⟨a, hblanks, hmark⟩ := accepts_seq_iff.mp h
  have hrest := accepts_star_iff.mp (accepts_call_iff.mp (he.layout_behind_blanks hblanks))
  rcases accepts_mark_iff.mp hmark with ⟨hchar, -⟩ | hspace
  · rcases hrest with ⟨-, rfl⟩ | ⟨_, hspace, -⟩
    · exact absurd hchar hend
    · refine absurd (fails_space_iff.mpr fun c hc => ?_) hspace.not_fails
      cases hchar.symm.trans hc
      rfl
  · have hspace : Accepts chars (.call .space) a k := accepts_space_iff.mpr (.inr hspace)
    rcases hrest with ⟨hfails, -⟩ | ⟨k', hspace', -, hstar⟩
    · exact absurd hfails hspace.not_fails
    · obtain rfl := hspace.unique hspace'
      exact accepts_call_iff.mpr hstar

/-- A separator without semicolons ends where the layout ends. -/
theorem Accepts.separator_end {k : Nat} (he : Accepts chars (.call .spaces) i e)
    (hend : chars[e]? ≠ some ';') (h : Accepts chars (.call .statementSep) i k) : k = e := by
  obtain ⟨m, hrounds, hspaces⟩ := accepts_seq_iff.mp (accepts_call_iff.mp h)
  obtain ⟨l, hround, hstar⟩ := accepts_seq_iff.mp hrounds
  have hbehind := hstar.star_induction (motive := fun l => Accepts chars (.call .spaces) l e →
    Accepts chars (.call .spaces) m e) (fun _ h => h)
    (fun _ _ hround _ _ ih h => ih (h.layout_behind_mark hend hround))
    (he.layout_behind_mark hend (accepts_group_iff.mp hround))
  exact hspaces.unique hbehind

/-- Behind a statement that was cut back nothing more is attempted that could be known. -/
theorem stuck_rounds {a : Char} (he : Accepts chars (.call .spaces) i e)
    (hchar : chars[e]? = some a) (ha : a = '+' ∨ a = '(')
    (h : Tries chars (.star .statementRound) i (some j) r c) : c.Plain := by
  have hend : chars[e]? ≠ some ';' := by
    rw [hchar]
    rcases ha with rfl | rfl <;> decide
  have hround : ∀ {result r c}, Tries chars .statementRound i result r c →
      result = none ∧ c.Plain := by
    intro result r c h
    rcases h.seq_cases with ⟨rfl, hseparator⟩ | ⟨k, _, _, c₁, c₂, -, rfl, hseparator, hstatement⟩
    · exact ⟨rfl, hseparator.plain rfl⟩
    · obtain rfl := he.separator_end hend hseparator.accepts
      obtain ⟨rfl, hplain⟩ := stuck_statement hchar ha hstatement
      exact ⟨rfl, (hseparator.plain rfl).next hplain⟩
  rcases h.star_some with ⟨-, hfails⟩ | ⟨k, _, _, _, _, -, -, -, hmatched, -⟩
  · exact (hround hfails).2
  · cases (hround hmatched).1

/-- A statement with all that follows it. -/
theorem StatementAttempt.next {c' : Course} (h : StatementAttempt chars o (some i) c) (ho : o ≤ i)
    (hrounds : Tries chars (.star .statementRound) i (some j) r c') (hfresh : c'.Fresh i) :
    (Course.next c c').Fresh o := by
  rcases h.behind i rfl with hbefore | ⟨e, a, he, hchar, ha⟩
  · exact h.fresh.next hbefore ho hfresh
  · exact h.fresh.next_plain (stuck_rounds he hchar ha hrounds)

theorem rounds_attempt (hi : i ≤ chars.size)
    (h : Tries chars (.star .statementRound) i (some j) r c) : c.Fresh i := by
  induction hrest : chars.size - i using Nat.strongRecOn generalizing i r c with
  | ind rest ih =>
      rcases h.star_some with ⟨-, hround⟩ | ⟨k, _, _, c₁, c₂, -, rfl, hlt, hround, hrounds⟩
      · rcases hround.seq_none with hseparator | ⟨o, _, _, c₁, c₂, -, rfl, hseparator, hstatement⟩
        · exact (hseparator.plain rfl).fresh
        · have ho := hseparator.accepts.le
          exact .plain_next (hseparator.plain rfl) ((statement_attempt hstatement).fresh.mono ho)
      · obtain ⟨o, _, _, c₃, c₄, -, rfl, hseparator, hstatement⟩ := hround.seq_some
        have ho := hseparator.accepts.le
        have hk := hstatement.accepts.le
        have hsize := hround.accepts.le_size hi
        have hbehind := ih (chars.size - k) (by omega) hsize hrounds rfl
        refine (Course.Fresh.plain_next (hseparator.plain rfl) (.mono ?_ ho)).assoc
        exact (statement_attempt hstatement).next hk hrounds hbehind

theorem statements_attempt (ho : o ≤ chars.size)
    (h : Tries chars (.call .statements) o result r c) : c.Fresh o := by
  obtain ⟨b, rfl, hbody⟩ := h.call_cases
  refine Course.Fresh.attempt ?_ (Nat.le_refl o)
  rcases hbody.seq_cases with ⟨-, hstatement⟩ | ⟨i, _, _, c₁, c₂, -, rfl, hstatement, hrounds⟩
  · exact (statement_attempt hstatement).fresh
  · have hi := hstatement.accepts.le
    cases result with
    | none => exact absurd hrounds (Tries.not_none_of_isTotal rfl)
    | some j =>
        have hsize := hstatement.accepts.le_size ho
        exact (statement_attempt hstatement).next hi hrounds (rounds_attempt hsize hrounds)

/-- What is attempted of a program is fresh. -/
theorem program_attempt (h : Tries chars (.call .program) 0 result r c) : c.Fresh 0 := by
  obtain ⟨b, rfl, hbody⟩ := h.call_cases
  refine Course.Fresh.attempt ?_ (Nat.le_refl 0)
  obtain ⟨o, d, hd, hspaces, hbody⟩ := hbody.after_layout (.inl rfl)
  have ho := hspaces.le_size (Nat.zero_le _)
  refine hd.fresh ?_
  rcases hbody.seq_cases with ⟨-, hstatements⟩ | ⟨k, _, _, c₁, c₂, -, rfl, hstatements, hend⟩
  · exact (statements_attempt ho hstatements).mono (Nat.zero_le o)
  · exact ((statements_attempt ho hstatements).mono (Nat.zero_le o)).next_plain (hend.plain rfl)

end Programs

end Sumscript

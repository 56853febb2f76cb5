import Sumscript.Proofs.AttemptedParts

/-! # What is attempted of an operand

The attempts of an expression and of an operand, by what stands behind it. Either the attempts
end where the layout behind it ends, so that nothing further on is known. Or the match was cut
back before a sign or a bracket that nothing goes on with, and then nothing new is attempted
further on. In both cases it does not matter which outcomes are remembered. Here this is shown
of an operand, for the expressions in it.
-/

namespace Sumscript

open Token

/-- Nothing that was attempted of a match up to `j` lies behind the layout that ends at `e`. -/
structure Tidy (c : Course) (r j e : Nat) : Prop where
  reach_le : r ≤ e
  remembered_lt : ∀ x ∈ c.remembered, x < j
  furthest : ∀ t ∈ c.furthest, t = ⟨.rule .op, e, e⟩ ∨ t.stop < e ∨ t.stop = e ∧ t.start < e

/-- A match was cut back before a sign that no expression follows. -/
structure Dangling (chars : Array Char) (c : Course) (r e : Nat) : Prop where
  sign : chars[e]? = some '+'
  rest : ∃ m r' c', Accepts chars (.call .spaces) (e + 1) m ∧
    Tries chars (.call .expression) m none r' c' ∧ r ≤ r' ∧ c.furthest = c'.furthest ∧
    c'.remembered ⊆ c.remembered ∧ c.Covers c'

/-- A match was cut back before a bracket that is not closed. -/
structure Unclosed (chars : Array Char) (c : Course) (r e : Nat) : Prop where
  bracket : chars[e]? = some '('
  furthest : ∃ t, c.furthest = some t ∧ e < t.start ∧ r ≤ t.stop

/-- What was attempted of a match up to `j`, where the layout behind it ends at `e`. -/
inductive Standing (chars : Array Char) (c : Course) (r j e : Nat) : Prop where
  | tidy (h : Tidy c r j e)
  | dangling (h : Dangling chars c r e)
  | unclosed (h : Unclosed chars c r e)

/-- The attempt of an operand. -/
structure OperandAttempt (chars : Array Char) (o : Nat) (result : Option Nat) (r : Nat)
    (c : Course) : Prop where
  fresh : c.Fresh o
  standing : ∀ j ∈ result, ∀ e, Accepts chars (.call .spaces) j e → Standing chars c r j e

/-- The attempt of an expression. If it ends in order, the last that was tried of it is a sign
behind it. -/
structure ExpressionAttempt (chars : Array Char) (o : Nat) (result : Option Nat) (r : Nat)
    (c : Course) : Prop extends OperandAttempt chars o result r c where
  settled : c.Settled
  ended : ∀ j ∈ result, ∀ e, Accepts chars (.call .spaces) j e → Tidy c r j e →
    chars[e]? ≠ some '+' ∧ c.furthest = some ⟨.rule .op, e, e⟩

/-- The attempt of a call. -/
inductive CallAttempt (chars : Array Char) (o : Nat) : Option Nat → Nat → Course → Prop where
  | noName {c : Course} (hname : Fails chars (.call .name) o) (hplain : c.Plain) :
      CallAttempt chars o none o c
  | noBracket {k a : Nat} {c : Course} (hname : Accepts chars (.call .name) o k)
      (hblanks : Accepts chars (.call .simpleSpaces) k a) (hplain : c.Plain)
      (hfurthest : c.furthest = some ⟨.rule .funcCall, o, a⟩) : CallAttempt chars o none a c
  | matched {j : Nat} {c : Course} (hfresh : c.Fresh o) (hremembered : ∀ x ∈ c.remembered, x < j)
      (hfurthest : ∀ t ∈ c.furthest, t.stop < j) : CallAttempt chars o (some j) j c
  | unclosed {k a r : Nat} {c : Course} {t : Token} (hname : Accepts chars (.call .name) o k)
      (hblanks : Accepts chars (.call .simpleSpaces) k a) (hbracket : chars[a]? = some '(')
      (hreach : a < r) (hfresh : c.Fresh o) (hfurthest : c.furthest = some t)
      (hstart : a < t.start) (hstop : r ≤ t.stop) : CallAttempt chars o none r c

section Expressions

variable {chars : Array Char} {o i j e r : Nat} {result : Option Nat} {c : Course}

/-- What was attempted of an expression ends at or behind the layout after it. -/
theorem ExpressionAttempt.furthest (h : ExpressionAttempt chars o (some j) r c)
    (he : Accepts chars (.call .spaces) j e) :
    ∃ t, c.furthest = some t ∧ e ≤ t.start ∧ r ≤ t.stop := by
  cases h.standing j rfl e he with
  | tidy htidy => exact ⟨_, (h.ended j rfl e he htidy).2, Nat.le_refl e, htidy.reach_le⟩
  | dangling hdangling =>
      obtain ⟨m, r', c', hm, htries, hr, hfurthest, -⟩ := hdangling.rest
      obtain ⟨t, ht, rfl, hstart⟩ := htries.furthest_of_failed rfl
      have := hm.le
      exact ⟨t, hfurthest.trans ht, by omega, hr⟩
  | unclosed hunclosed =>
      obtain ⟨t, ht, hstart, hstop⟩ := hunclosed.furthest
      exact ⟨t, ht, Nat.le_of_lt hstart, hstop⟩

/-- Behind an expression that a closing bracket or a comma follows all is in order. -/
theorem Standing.tidy_of_char {a : Char} (h : Standing chars c r j e)
    (hchar : chars[e]? = some a) (hsign : a ≠ '+') (hbracket : a ≠ '(') : Tidy c r j e := by
  cases h with
  | tidy h => exact h
  | dangling h => exact absurd (Option.some.inj (hchar.symm.trans h.sign)) hsign
  | unclosed h => exact absurd (Option.some.inj (hchar.symm.trans h.bracket)) hbracket

/-- What holds of the attempt of a last part holds of the whole, if the whole adds nothing but
what was tried before. -/
theorem Standing.of_last {d : Course} (h : Standing chars c r j e)
    (hfurthest : d.furthest = c.furthest) (hsub : c.remembered ⊆ d.remembered)
    (hlt : (∀ x ∈ c.remembered, x < j) → ∀ x ∈ d.remembered, x < j) (hcovers : d.Covers c) :
    Standing chars d r j e := by
  cases h with
  | tidy h => exact .tidy ⟨h.reach_le, hlt h.remembered_lt, by rw [hfurthest]; exact h.furthest⟩
  | dangling h =>
      obtain ⟨m, r', c', hm, htries, hr, hfurthest', hsub', hcovers'⟩ := h.rest
      exact .dangling ⟨h.sign, m, r', c', hm, htries, hr, hfurthest.trans hfurthest',
        fun x hx => hsub (hsub' hx), hcovers.trans hcovers'⟩
  | unclosed h =>
      obtain ⟨t, ht, hstart, hstop⟩ := h.furthest
      exact .unclosed ⟨h.bracket, t, hfurthest.trans ht, hstart, hstop⟩

theorem call_stuck (hname : Fails chars (.call .name) o)
    (h : Tries chars (.call .funcCall) o result r c) : result = none ∧ r = o ∧ c.Plain := by
  obtain ⟨b, rfl, hbody⟩ := h.call_cases
  rcases hbody.after_name with ⟨rfl, hfails⟩ | ⟨k, b', hb', haccepts, -⟩
  · obtain rfl : r = o := hfails.commits rfl
    exact ⟨rfl, rfl, (hfails.plain rfl).attempt rfl rfl⟩
  · exact absurd hname haccepts.not_fails

theorem CallAttempt.of_fails (hname : Fails chars (.call .name) o)
    (h : Tries chars (.call .funcCall) o result r c) : CallAttempt chars o result r c := by
  obtain ⟨rfl, rfl, hplain⟩ := call_stuck hname h
  exact .noName hname hplain

/-- The attempt of the pattern of an operand. -/
inductive OperandBody (chars : Array Char) (o : Nat) : Option Nat → Nat → Course → Prop where
  | stuck {b : Course} (hplain : b.Plain) : OperandBody chars o none o b
  | literal {j : Nat} {b d : Course} (hb : b.EndsIn o d) (hquiet : d.Quiet) :
      OperandBody chars o (some j) j b
  | call {j : Nat} {b d : Course} (hb : b.EndsIn o d)
      (hcall : CallAttempt chars o (some j) j d) : OperandBody chars o (some j) j b
  | variable {j r : Nat} {b d v : Course} (hb : b.EndsIn o (.next d v)) (hquiet : v.Quiet)
      (hname : Accepts chars (.call .name) o j) (hcall : CallAttempt chars o none r d) :
      OperandBody chars o (some j) (max r j) b
  | unop {m r : Nat} {result : Option Nat} {b d d' u : Course} (hsign : chars[o]? = some '+')
      (hspaces : Accepts chars (.call .spaces) (o + 1) m)
      (htries : Tries chars (.call .expression) m result r u) (hd : d.Surrounds u)
      (hd' : d'.Surrounds (.attempt .unop o (result.elim (some r) fun _ => none) d))
      (hb : b.EndsIn o d') : OperandBody chars o result r b
  | bracket {m r : Nat} {result : Option Nat} {b d u : Course} (hbracket : chars[o]? = some '(')
      (hspaces : Accepts chars (.call .spaces) (o + 1) m)
      (htries : Tries chars (.seq (.call .expression) (.seq (.call .spaces) (.char ')'))) m
        result r u) (hd : d.Surrounds u) (hb : b.EndsIn o d) : OperandBody chars o result r b

theorem OperandBody.of_endsIn {b b' : Course} (h : OperandBody chars o result r b')
    (hb : b.EndsIn o b') : OperandBody chars o result r b := by
  cases h with
  | stuck hplain => exact .stuck (hb.plain hplain)
  | literal hb' hquiet => exact .literal (hb.trans hb') hquiet
  | call hb' hcall => exact .call (hb.trans hb') hcall
  | «variable» hb' hquiet hname hcall => exact .variable (hb.trans hb') hquiet hname hcall
  | unop hsign hspaces htries hd hd' hb' => exact .unop hsign hspaces htries hd hd' (hb.trans hb')
  | bracket hbracket hspaces htries hd hb' => exact .bracket hbracket hspaces htries hd (hb.trans hb')

/-- An operand that begins with no word begins with a sign or a bracket. -/
theorem operandBody_of_sign {p : Pattern}
    (hp : p = .seq (.call .spaces) (.seq (.call .expression) (.seq (.call .spaces) (.char ')'))))
    (h : Tries chars (.alt (.call .unop) (.group (.seq (.char '(') p))) o result r c) :
    OperandBody chars o result r c := by
  subst hp
  rcases h.alt_cases with ⟨j, rfl, hunop⟩ | ⟨r₁, r₂, c₁, c₂, rfl, rfl, hunop, hgroup⟩
  · rcases hunop.unop_cases with ⟨-, hresult, -⟩ | ⟨hsign, m, d, u, rfl, hd, hspaces, htries⟩
    · cases hresult
    · exact .unop hsign hspaces htries hd (.refl _) (.refl _)
  have hbracket := hgroup.of_group
  rcases hunop.unop_cases with ⟨-, -, rfl, hplain⟩ | ⟨hsign, m, d, u, rfl, hd, hspaces, htries⟩
  · refine OperandBody.of_endsIn ?_ (hunop.endsIn_next hplain)
    rw [Nat.max_eq_right hbracket.le_reach]
    rcases hbracket.after_char with ⟨-, rfl, rfl, hquiet⟩ | ⟨hchar, d₁, hd₁, hbody⟩
    · exact .stuck hquiet.toPlain
    · obtain ⟨m, d₂, hd₂, hspaces, htries⟩ := hbody.after_layout (.inl rfl)
      exact .bracket hchar hspaces htries (hd₁.trans hd₂) (.refl _)
  · rcases hbracket.after_char with ⟨-, rfl, rfl, hquiet⟩ | ⟨hchar, -⟩
    · rw [Nat.max_eq_left hunop.le_reach]
      exact .unop hsign hspaces htries hd (.behind (.refl _) hquiet) (.refl _)
    · cases hsign.symm.trans hchar

theorem operandBody_of_tries
    (hcall : ∀ {result r c}, Tries chars (.call .funcCall) o result r c →
      CallAttempt chars o result r c)
    (h : Tries chars (.call .noBinopExpression) o result r c) :
    ∃ b, c = .attempt .noBinopExpression o (result.elim (some r) fun _ => none) b ∧
      OperandBody chars o result r b := by
  have hstuck : ∀ {rule : Rule}, rule.isExact = true → ∀ {r c},
      Tries chars (.call rule) o none r c → r = o ∧ c.Plain := by
    intro rule hexact r c hfails
    refine ⟨hfails.commits hexact, hfails.plain ?_⟩
    revert hexact
    cases rule <;> decide
  obtain ⟨b, rfl, hbody⟩ := h.call_cases
  refine ⟨b, rfl, ?_⟩
  rcases hbody.alt_stuck (hstuck rfl) with ⟨j, rfl, hliteral⟩ | ⟨b₁, hb₁, -, hbody⟩
  · obtain ⟨rfl, hquiet⟩ := hliteral.labelled rfl rfl rfl rfl
    exact .literal (.refl b) hquiet
  refine OperandBody.of_endsIn ?_ hb₁
  rcases hbody.alt_cases with ⟨j, rfl, hmatched⟩ | ⟨r₁, r₂, c₁, c₂, rfl, rfl, hfails, hbody⟩
  · cases hcall hmatched with
    | matched hfresh hremembered hfurthest =>
        exact .call (.refl _) (.matched hfresh hremembered hfurthest)
  rcases hbody.alt_stuck (hstuck rfl) with ⟨j, rfl, hmatched⟩ | ⟨c₃, hc₃, hnovariable, hbody⟩
  · obtain ⟨rfl, hquiet⟩ := hmatched.labelled rfl rfl rfl rfl
    obtain ⟨_, hname, hact⟩ := accepts_seq_iff.mp (accepts_call_iff.mp hmatched.accepts)
    cases accepts_act_iff.mp hact
    exact .variable (.refl _) hquiet hname (hcall hfails)
  · have hnoname : ∀ {k}, ¬ Accepts chars (.call .name) o k := fun hname =>
      (accepts_call_iff.mpr (accepts_seq_iff.mpr ⟨_, hname, accepts_act_iff.mpr rfl⟩)).not_fails
        hnovariable
    have hplain : r₁ = o ∧ c₁.Plain := by
      cases hcall hfails with
      | noName _ hplain => exact ⟨rfl, hplain⟩
      | noBracket hname | unclosed hname => exact absurd hname hnoname
    obtain ⟨rfl, hplain⟩ := hplain
    rw [Nat.max_eq_right hbody.le_reach]
    exact ((operandBody_of_sign rfl hbody).of_endsIn hc₃).of_endsIn (hfails.endsIn_next hplain)

/-- A character that can begin no operand. -/
def beginsNothing (a : Char) : Prop :=
  Identifier.starts a = false ∧ a.isDigit = false ∧ a ≠ '+' ∧ a ≠ '('

theorem fails_operand {a : Char} (hchar : chars[o]? = some a) (ha : beginsNothing a) :
    Fails chars (.call .noBinopExpression) o := by
  obtain ⟨hname, hdigit, hsign, hbracket⟩ := ha
  have hword : Fails chars (.call .name) o := fails_name_iff.mpr fun b hb => by
    cases hchar.symm.trans hb
    exact hname
  have hnumber : Fails chars (.call .number) o := fails_number_iff.mpr fun b hb => by
    cases hchar.symm.trans hb
    exact hdigit
  have hneither : ∀ {b}, a ≠ b → Fails chars (.char b) o := fun hab =>
    fails_char_iff.mpr fun hb => hab (Option.some.inj (hchar.symm.trans hb))
  refine fails_call_iff.mpr (fails_alt_iff.mpr ⟨?_, fails_alt_iff.mpr ⟨?_, fails_alt_iff.mpr
    ⟨?_, fails_alt_iff.mpr ⟨?_, ?_⟩⟩⟩⟩)
  · exact fails_call_iff.mpr (fails_seq_iff.mpr (.inl hnumber))
  · exact fails_call_iff.mpr (fails_seq_iff.mpr (.inl hword))
  · exact fails_call_iff.mpr (fails_seq_iff.mpr (.inl hword))
  · exact fails_call_iff.mpr (fails_seq_iff.mpr (.inl (fails_call_iff.mpr (hneither hsign))))
  · exact fails_group_iff.mpr (fails_seq_iff.mpr (.inl (hneither hbracket)))

/-- Where a character can begin no operand, an operand fails at once. -/
theorem stuck_operand {a : Char} (hchar : chars[o]? = some a) (ha : beginsNothing a)
    (h : Tries chars (.call .noBinopExpression) o result r c) :
    result = none ∧ r = o ∧ c.remembered = [o] := by
  have hfails := fails_operand hchar ha
  cases result with
  | some j => exact absurd hfails h.accepts.not_fails
  | none =>
      have hname : Fails chars (.call .name) o := fails_name_iff.mpr fun b hb => by
        cases hchar.symm.trans hb
        exact ha.1
      obtain ⟨b, rfl, hbody⟩ := operandBody_of_tries (CallAttempt.of_fails hname) h
      change none = none ∧ r = o ∧ o :: b.remembered = [o]
      cases hbody with
      | stuck hplain => exact ⟨rfl, rfl, congrArg _ hplain.remembered⟩
      | unop hsign => exact absurd (Option.some.inj (hchar.symm.trans hsign)) ha.2.2.1
      | bracket hbracket => exact absurd (Option.some.inj (hchar.symm.trans hbracket)) ha.2.2.2

/-- Where a character can begin no operand, an expression fails at once. -/
theorem stuck_expression {a : Char} (hchar : chars[o]? = some a) (ha : beginsNothing a)
    (h : Tries chars (.call .expression) o result r c) :
    result = none ∧ r = o ∧ ∀ x ∈ c.remembered, x = o := by
  have hbinop : ∀ {result r c}, Tries chars (.call .binop) o result r c →
      result = none ∧ r = o ∧ c.remembered = [o] := by
    intro result r c h
    obtain ⟨b, rfl, hbody⟩ := h.call_cases
    rcases hbody.seq_cases with ⟨rfl, hoperand⟩ | ⟨k, _, _, _, _, -, -, hoperand, -⟩
    · obtain ⟨-, rfl, hremembered⟩ := stuck_operand hchar ha hoperand
      exact ⟨rfl, rfl, hremembered⟩
    · cases (stuck_operand hchar ha hoperand).1
  obtain ⟨b, rfl, hbody⟩ := h.call_cases
  rcases hbody.alt_cases with ⟨j, rfl, hfirst⟩ | ⟨r₁, r₂, c₁, c₂, rfl, rfl, hfirst, hsecond⟩
  · cases (hbinop hfirst).1
  · obtain ⟨-, rfl, hremembered⟩ := hbinop hfirst
    obtain ⟨rfl, rfl, hremembered'⟩ := stuck_operand hchar ha hsecond
    refine ⟨rfl, Nat.max_self _, fun x hx => ?_⟩
    change x ∈ c₁.remembered ++ c₂.remembered at hx
    rw [hremembered, hremembered'] at hx
    simpa using hx

/-- The attempts of the arguments of a call, up to where the layout behind them ends. -/
structure ArgumentsAttempt (chars : Array Char) (k r e : Nat) (c : Course) : Prop where
  fresh : c.Fresh k
  closed : chars[e]? = some ')' → r ≤ e ∧ ∀ x ∈ c.remembered, x ≤ e
  unclosed : chars[e]? ≠ some ')' → ∃ t ∈ c.failures, k ≤ t.start ∧ r ≤ t.stop ∧ e ≤ t.stop

theorem argument_some (h : Tries chars (.call .funcArg) o (some j) r c) :
    ∃ c' d, c = .attempt .funcArg o none c' ∧ c'.Surrounds d ∧
      Tries chars (.call .expression) o (some j) r d := by
  obtain ⟨c', rfl, hbody⟩ := h.call_some
  obtain ⟨d, hd, htries⟩ := hbody.before_act
  exact ⟨c', d, rfl, hd, htries⟩

theorem argument_none (h : Tries chars (.call .funcArg) o none r c) :
    ∃ c' d, c = .attempt .funcArg o (some r) c' ∧ c'.Surrounds d ∧
      Tries chars (.call .expression) o none r d := by
  obtain ⟨c', rfl, hbody⟩ := h.call_none
  obtain ⟨d, hd, htries⟩ := hbody.before_act
  exact ⟨c', d, rfl, hd, htries⟩

/-- An argument that fails is tried again as the last one and fails again. -/
theorem arguments_failed
    (hexpression : ∀ result r c, Tries chars (.call .expression) o result r c →
      ExpressionAttempt chars o result r c)
    (h : Tries chars (.call .funcArg) o none r c) :
    ArgumentsAttempt chars o (max r r) o (.next c c) := by
  obtain ⟨t, ht, rfl, hstart⟩ := h.furthest_of_failed rfl
  have hmem := Course.mem_of_furthest ht
  have hle := h.le_reach
  obtain ⟨c', d, rfl, hd, hfails⟩ := argument_none h
  have hattempt := hexpression _ _ _ hfails
  have hsettled : (Course.attempt .funcArg o (some t.stop) c').Settled :=
    (hd.settled hattempt.settled).failed rfl rfl
  refine ⟨?_, fun hchar => ?_, fun _ => ?_⟩
  · refine ((hd.fresh hattempt.fresh).attempt (Nat.le_refl o)).next_again (List.Subset.refl _) ?_
      (.refl _)
    exact Eq.trans hsettled (furtherOf_self _).symm
  · obtain ⟨-, hr, hremembered⟩ := stuck_expression hchar (by unfold beginsNothing; decide) hfails
    rw [Nat.max_self, hr]
    refine ⟨Nat.le_refl o, fun x hx => ?_⟩
    rw [← hd.remembered] at hremembered
    rcases List.mem_append.mp hx with hx | hx <;> exact Nat.le_of_eq (hremembered x hx)
  · exact ⟨t, List.mem_append_left _ hmem, hstart, by omega, hle⟩

/-- An argument that no comma follows is tried again as the last one and read again. -/
theorem arguments_last
    (hexpression : ∀ result r c, Tries chars (.call .expression) o result r c →
      ExpressionAttempt chars o result r c)
    (h : Tries chars (.call .funcArg) o (some j) r c) (he : Accepts chars (.call .spaces) j e)
    {c' : Course} (hquiet : c'.Quiet) :
    ArgumentsAttempt chars o (max (max r e) r) e (.next (.next c c') c) := by
  obtain ⟨c, d, rfl, hd, htries⟩ := argument_some h
  have hattempt := hexpression _ _ _ htries
  have hfresh : (Course.attempt .funcArg o none c).Fresh o :=
    (hd.fresh hattempt.fresh).attempt (Nat.le_refl o)
  have hsettled : (Course.attempt .funcArg o none c).Settled :=
    (hd.settled hattempt.settled).matched rfl
  have hle := he.le
  refine ⟨(hfresh.next_plain hquiet.toPlain).next_again (List.subset_append_left _ _) ?_
    (.next_left (.refl _)), fun hchar => ?_, fun _ => ?_⟩
  · rw [Course.furthest_next, hquiet.furthest, furtherOf_none]
    exact Eq.trans hsettled (furtherOf_self _).symm
  · have htidy := (hattempt.standing j rfl e he).tidy_of_char hchar (by decide) (by decide)
    have hr := htidy.reach_le
    refine ⟨by omega, fun x hx => ?_⟩
    simp only [Course.remembered, hquiet.remembered, List.append_nil, List.mem_append,
      or_self] at hx
    have := htidy.remembered_lt x (hd.remembered ▸ hx)
    omega
  · obtain ⟨t, ht, hstart, hstop⟩ := hattempt.furthest he
    have hj := htries.accepts.le
    have hbounds := htries.furthest_bounds t ht
    refine ⟨t, ?_, by omega, by omega, by omega⟩
    simp [Course.failures, hd.failures, Course.mem_of_furthest ht]

theorem ArgumentsAttempt.assoc {c' c'' : Course}
    (h : ArgumentsAttempt chars o r e (.next c (.next c' c''))) :
    ArgumentsAttempt chars o r e (.next (.next c c') c'') := by
  refine ⟨h.fresh.assoc, ?_, ?_⟩
  · simp only [Course.remembered, List.append_assoc]
    exact h.closed
  · simp only [Course.failures, List.append_assoc]
    exact h.unclosed

/-- An argument that a comma follows is tried before the arguments behind the comma. -/
theorem ArgumentsAttempt.after_argument {m e₀ r₁ : Nat} {d rest : Course}
    (h : ArgumentsAttempt chars m r e rest)
    (hexpression : ∀ result r c, Tries chars (.call .expression) o result r c →
      ExpressionAttempt chars o result r c)
    (harg : Tries chars (.call .funcArg) o (some j) r₁ c)
    (he₀ : Accepts chars (.call .spaces) j e₀) (hcomma : chars[e₀]? = some ',')
    (hquiet : d.Quiet) (hm : e₀ < m) (he : m ≤ e) :
    ArgumentsAttempt chars o (max (max r₁ m) r) e (.next (.next c d) rest) := by
  obtain ⟨c', u, rfl, hu, htries⟩ := argument_some harg
  have hattempt := hexpression _ _ _ htries
  have htidy := (hattempt.standing j rfl e₀ he₀).tidy_of_char hcomma (by decide) (by decide)
  have hr := htidy.reach_le
  have hj := he₀.le
  have ho := htries.accepts.le
  have hremembered : ∀ x ∈ (Course.next (.attempt .funcArg o none c') d).remembered, x < j := by
    rw [Course.remembered, hquiet.remembered, List.append_nil, Course.remembered_forgotten rfl,
      hu.remembered]
    exact htidy.remembered_lt
  refine ⟨?_, fun hchar => ?_, fun hchar => ?_⟩
  · have hround : (Course.next (.attempt .funcArg o none c') d).Fresh o :=
      ((hu.fresh hattempt.fresh).attempt (Nat.le_refl o)).next_plain hquiet.toPlain
    refine hround.next (fun x hx => ?_) (by omega) h.fresh
    have := hremembered x hx
    omega
  · obtain ⟨hreach, hremembered'⟩ := h.closed hchar
    refine ⟨by omega, fun x hx => ?_⟩
    rcases List.mem_append.mp hx with hx | hx
    · have := hremembered x hx
      omega
    · exact hremembered' x hx
  · obtain ⟨t, ht, hstart, hstop, hend⟩ := h.unclosed hchar
    exact ⟨t, List.mem_append_right _ ht, by omega, by omega, hend⟩

theorem arguments_attempt {k k₁ r₁ r₂ : Nat} {c₁ c₂ : Course}
    (hexpression : ∀ m, k ≤ m → m ≤ chars.size → ∀ result r c,
      Tries chars (.call .expression) m result r c → ExpressionAttempt chars m result r c)
    (hk : k ≤ chars.size) (hlayout : Accepts chars (.call .spaces) k k)
    (hstar : Tries chars (.star .argumentRound) k (some k₁) r₁ c₁)
    (hopt : Tries chars (.opt (.call .funcArg)) k₁ (some j) r₂ c₂)
    (he : Accepts chars (.call .spaces) j e) :
    ArgumentsAttempt chars k (max r₁ r₂) e (.next c₁ c₂) := by
  induction hrest : chars.size - k using Nat.strongRecOn generalizing k r₁ c₁ with
  | ind rest ih =>
      have hhere := hexpression k (Nat.le_refl k) hk
      rcases hstar.star_some with
        ⟨rfl, hround⟩ | ⟨k', _, r', ca, c', rfl, rfl, hlt, hround, hrounds⟩
      · rcases hround.seq_none with harg | ⟨j', ra, rb, ca, cb, rfl, rfl, harg, htail⟩
        · rcases hopt.opt_some with hlast | ⟨rfl, hlast⟩
          · cases (hlast.unique harg).1
          · obtain ⟨-, rfl, rfl⟩ := hlast.unique harg
            obtain rfl := he.unique hlayout
            exact arguments_failed hhere harg
        · obtain ⟨hquiet, e', he', ⟨-, rfl⟩ | ⟨_, hresult, -⟩⟩ := htail.comma_cases
          · rcases hopt.opt_some with hlast | ⟨-, hlast⟩
            · obtain ⟨hj, rfl, rfl⟩ := hlast.unique harg
              cases hj
              obtain rfl := he.unique he'
              exact arguments_last hhere harg he hquiet
            · cases (hlast.unique harg).1
          · cases hresult
      · obtain ⟨j', ra, rb, ca, cb, rfl, rfl, harg, htail⟩ := hround.seq_some
        obtain ⟨hquiet, e', he', ⟨hresult, -⟩ | ⟨_, hresult, rfl, hcomma, hbehind⟩⟩ :=
          htail.comma_cases
        · cases hresult
        · cases hresult
          have hsize := hbehind.le_size (lt_size_of_char hcomma)
          have hrest' := ih (chars.size - k') (by omega)
            (fun m hm => hexpression m (Nat.le_trans (Nat.le_of_lt hlt) hm)) hsize
            hbehind.layout_end hrounds rfl
          have hle : k' ≤ e :=
            Nat.le_trans hrounds.accepts.le (Nat.le_trans hopt.accepts.le he.le)
          rw [Nat.max_assoc]
          exact (hrest'.after_argument hhere harg he' hcomma hquiet hbehind.le hle).assoc

theorem funcArgs_attempt {k : Nat}
    (hexpression : ∀ m, k ≤ m → m ≤ chars.size → ∀ result r c,
      Tries chars (.call .expression) m result r c → ExpressionAttempt chars m result r c)
    (hk : k ≤ chars.size) (hlayout : Accepts chars (.call .spaces) k k)
    (h : Tries chars (.call .funcArgs) k (some j) r c) (he : Accepts chars (.call .spaces) j e) :
    ArgumentsAttempt chars k r e c := by
  obtain ⟨c', rfl, hbody⟩ := h.call_some
  obtain ⟨k₁, r₁, r₂, c₁, c₂, rfl, rfl, hstar, hopt⟩ := hbody.seq_some
  obtain ⟨hfresh, hclosed, hunclosed⟩ := arguments_attempt hexpression hk hlayout hstar hopt he
  refine ⟨hfresh.attempt (Nat.le_refl k), hclosed, fun hchar => ?_⟩
  rw [Course.failures, Course.reported, List.append_nil]
  exact hunclosed hchar

theorem call_attempt
    (hexpression : ∀ m, o < m → m ≤ chars.size → ∀ result r c,
      Tries chars (.call .expression) m result r c → ExpressionAttempt chars m result r c)
    (h : Tries chars (.call .funcCall) o result r c) : CallAttempt chars o result r c := by
  obtain ⟨b, rfl, hbody⟩ := h.call_cases
  rcases hbody.after_name with ⟨rfl, hname⟩ | ⟨k, b₁, hb₁, hname, hbody⟩
  · exact CallAttempt.of_fails hname.fails h
  obtain ⟨b₂, hb₂, hbody⟩ := hbody.after_act
  obtain ⟨a, b₃, hb₃, hblanks, hbody⟩ := hbody.after_layout (.inr rfl)
  have hb₃ := (hb₁.trans hb₂).trans hb₃
  rcases hbody.after_char with ⟨-, rfl, rfl, hquiet⟩ | ⟨hbracket, b₄, hb₄, hbody⟩
  · refine .noBracket hname hblanks ((hb₃.plain hquiet.toPlain).attempt rfl rfl) ?_
    rw [Option.elim_none, Course.furthest_failed rfl, hb₃.furthest, hquiet.furthest, none_furtherOf]
  obtain ⟨m, b₅, hb₅, hspaces, hbody⟩ := hbody.after_layout (.inl rfl)
  have hb₅ := (hb₃.trans hb₄).trans hb₅
  have ho := hname.lt rfl
  have ha := hblanks.le
  have hm := hspaces.le
  have hsize := hspaces.le_size (lt_size_of_char hbracket)
  rcases hbody.seq_cases with ⟨-, hargs⟩ | ⟨j', rA, rC, cA, cC, rfl, rfl, hargs, hclose⟩
  · obtain ⟨b₆, -, hargs⟩ := hargs.call_none
    exact absurd hargs (Tries.not_none_of_isTotal rfl)
  obtain ⟨hquiet, e, he, hend⟩ := hclose.closing
  have hb : b.Surrounds cA := hb₅.trans (.behind (.refl cA) hquiet)
  obtain ⟨hfresh, hclosed, hunclosed⟩ := funcArgs_attempt
    (fun m' hm' => hexpression m' (by omega)) hsize hspaces.layout_end hargs he
  have hfresh' : b.Fresh o := (hb.fresh hfresh).mono (by omega)
  rcases hend with ⟨hchar, rfl, rfl⟩ | ⟨hchar, rfl, rfl⟩
  · obtain ⟨hreach, hremembered⟩ := hclosed hchar
    rw [Nat.max_eq_right (by omega)]
    refine .matched (hfresh'.attempt (Nat.le_refl o)) (fun x hx => ?_) fun t ht => ?_
    · exact Nat.lt_succ_of_le (hremembered x (hb.remembered ▸ hx))
    · rw [Option.elim_some, Course.furthest_matched, hb.furthest] at ht
      have := hargs.furthest_bounds t ht
      omega
  · obtain ⟨t, ht, hstart, hstop, hend⟩ := hunclosed hchar
    obtain ⟨t', ht', hstop', -⟩ := h.furthest_of_failed rfl
    have hmem : t ∈ (Course.attempt .funcCall o (some (max rA rC)) b).failures := by
      rw [Course.failures, hb.failures]
      exact List.mem_append_left _ ht
    have hovertakes := Course.overtakes_of_furthest ht' hmem
    have hA := hargs.le_reach
    exact .unclosed hname hblanks hbracket (by omega) (hfresh'.attempt (Nat.le_refl o)) ht'
      (by omega) (by omega)

section Operands

variable {b : Course}

theorem CallAttempt.fresh (h : CallAttempt chars o result r c) : c.Fresh o := by
  cases h with
  | noName _ hplain | noBracket _ _ hplain => exact hplain.fresh
  | matched hfresh | unclosed _ _ _ _ hfresh => exact hfresh

/-- An operand that lies before the layout behind it is in order. -/
theorem Course.EndsIn.tidy {d : Course} (hb : b.EndsIn o d) (hlt : o < j)
    (hle : j ≤ e) (hr : r ≤ e) (hremembered : ∀ x ∈ d.remembered, x < j)
    (hfurthest : ∀ t ∈ d.furthest, t.stop < e ∨ t.stop = e ∧ t.start < e) :
    Tidy (.attempt .noBinopExpression o none b) r j e := by
  refine ⟨hr, ?_, fun t ht => .inr ?_⟩
  · rw [Course.remembered_attempt rfl, hb.remembered]
    exact List.forall_mem_cons.mpr ⟨hlt, hremembered⟩
  · rw [Course.furthest_matched] at ht
    rcases hb.furthest ht with ht | ht
    · exact hfurthest t ht
    · omega

/-- Behind a variable no bracket follows, or one that is not closed. -/
theorem CallAttempt.standing {d v : Course} (h : CallAttempt chars o none r d)
    (hb : b.EndsIn o (.next d v)) (hquiet : v.Quiet) (hname : Accepts chars (.call .name) o j)
    (he : Accepts chars (.call .spaces) j e) :
    Standing chars (.attempt .noBinopExpression o none b) (max r j) j e := by
  have hlt := hname.lt rfl
  have hle := he.le
  have hfurthest : (Course.next d v).furthest = d.furthest := by
    rw [Course.furthest_next, hquiet.furthest, furtherOf_none]
  have hremembered : (Course.next d v).remembered = d.remembered := by
    rw [Course.remembered, hquiet.remembered, List.append_nil]
  cases h with
  | noName hfails => exact absurd hfails hname.not_fails
  | noBracket hname' hblanks hplain hfails =>
      obtain rfl := hname.unique hname'
      have hbehind := (he.layout_behind_blanks hblanks).le
      refine .tidy (hb.tidy hlt hle (by omega) ?_ ?_)
      · rw [hremembered, hplain.remembered]
        exact List.forall_mem_nil _
      · rw [hfurthest, hfails]
        rintro t ⟨⟩
        simp only
        omega
  | unclosed hname' hblanks hbracket hreach hfresh hfails hstart hstop =>
      obtain rfl := hname.unique hname'
      have hblanks' := hblanks.le
      obtain rfl := he.layout_end_of_bracket hblanks hbracket
      refine .unclosed ⟨hbracket, _, ?_, hstart, by omega⟩
      rw [Course.furthest_matched]
      exact hb.furthest_eq (hfurthest.trans hfails) (by omega)

/-- Behind a sign with an expression stands what stands behind the expression. -/
theorem ExpressionAttempt.standing_unop {m : Nat} {d d' u : Course}
    (h : ExpressionAttempt chars m (some j) r u)
    (htries : Tries chars (.call .expression) m (some j) r u) (hm : o < m) (hd : d.Surrounds u)
    (hd' : d'.Surrounds (.attempt .unop o none d)) (hb : b.EndsIn o d')
    (he : Accepts chars (.call .spaces) j e) :
    Standing chars (.attempt .noBinopExpression o none b) r j e := by
  have hj := htries.accepts.le
  obtain ⟨t, ht, hstart, hstop⟩ := h.furthest he
  have hbounds := htries.furthest_bounds t ht
  have hremembered : (Course.attempt .noBinopExpression o none b).remembered =
      o :: u.remembered := by
    rw [Course.remembered_attempt rfl, hb.remembered, hd'.remembered,
      Course.remembered_forgotten rfl, hd.remembered]
  refine (h.standing j rfl e he).of_last ?_ ?_ (fun h => ?_) ?_
  · rw [Course.furthest_matched, ht]
    refine hb.furthest_eq ?_ (by omega)
    rw [hd'.furthest, Course.furthest_matched, hd.furthest, ht]
  · rw [hremembered]
    exact List.subset_cons_self _ _
  · rw [hremembered]
    exact List.forall_mem_cons.mpr ⟨by omega, h⟩
  · exact Course.Covers.attempt (hb.covers.trans (hd'.covers.trans hd.covers.attempt))

/-- An expression in brackets is in order: the closing bracket stands behind its layout. -/
theorem ExpressionAttempt.tidy_bracket {k m r₁ r₂ : Nat} {c₁ c₂ d : Course}
    (h : ExpressionAttempt chars m (some k) r₁ c₁)
    (htries : Tries chars (.call .expression) m (some k) r₁ c₁) (hm : o < m)
    (hclose : Tries chars (.seq (.call .spaces) (.char ')')) k (some j) r₂ c₂)
    (hd : d.Surrounds (.next c₁ c₂)) (hb : b.EndsIn o d) (hle : j ≤ e) :
    Tidy (.attempt .noBinopExpression o none b) (max r₁ r₂) j e := by
  have hk := htries.accepts.le
  obtain ⟨hquiet, e', he', ⟨hchar, hj, rfl⟩ | ⟨-, hj, -⟩⟩ := hclose.closing
  · cases hj
    have hk' := he'.le
    have htidy := (h.standing k rfl e' he').tidy_of_char hchar (by decide) (by decide)
    have hr := htidy.reach_le
    refine hb.tidy (by omega) hle (by omega) (fun x hx => ?_) fun t ht => .inl ?_
    · rw [hd.remembered, Course.remembered, hquiet.remembered, List.append_nil] at hx
      have := htidy.remembered_lt x hx
      omega
    · rw [hd.furthest, Course.furthest_next, hquiet.furthest, furtherOf_none] at ht
      have := htries.furthest_bounds t ht
      omega
  · cases hj

variable (hexpression : ∀ m, o < m → m ≤ chars.size → ∀ result r c,
  Tries chars (.call .expression) m result r c → ExpressionAttempt chars m result r c)

include hexpression

theorem OperandBody.fresh (h : OperandBody chars o result r b) : b.Fresh o := by
  cases h with
  | stuck hplain => exact hplain.fresh
  | literal hb hquiet => exact hb.fresh hquiet.toPlain.fresh
  | call hb hcall => exact hb.fresh hcall.fresh
  | «variable» hb hquiet _ hcall => exact hb.fresh (hcall.fresh.next_plain hquiet.toPlain)
  | unop hsign hspaces htries hd hd' hb =>
      have hle := hspaces.le
      have hattempt := hexpression _ (by omega) (hspaces.le_size (lt_size_of_char hsign)) _ _ _ htries
      have hinner := (hd.fresh hattempt.fresh).mono (k := o) (by omega)
      exact hb.fresh (hd'.fresh (hinner.attempt (Nat.le_refl o)))
  | bracket hbracket hspaces htries hd hb =>
      have hle := hspaces.le
      have hsize := hspaces.le_size (lt_size_of_char hbracket)
      refine hb.fresh (hd.fresh ?_)
      rcases htries.seq_cases with ⟨-, hfails⟩ | ⟨k, r₁, r₂, c₁, c₂, -, rfl, hinner, hclose⟩
      · exact (hexpression _ (by omega) hsize _ _ _ hfails).fresh.mono (by omega)
      · exact ((hexpression _ (by omega) hsize _ _ _ hinner).fresh.mono (by omega)).next_plain
          hclose.closing.1.toPlain

theorem OperandBody.standing (h : OperandBody chars o (some j) r b) (hlt : o < j)
    (he : Accepts chars (.call .spaces) j e) :
    Standing chars (.attempt .noBinopExpression o none b) r j e := by
  have hle := he.le
  cases h with
  | literal hb hquiet =>
      refine .tidy (hb.tidy hlt hle hle ?_ ?_)
      · rw [hquiet.remembered]
        exact List.forall_mem_nil _
      · rw [hquiet.furthest]
        exact fun t ht => nomatch ht
  | call hb hcall =>
      cases hcall with
      | matched hfresh hremembered hfurthest =>
          exact .tidy (hb.tidy hlt hle hle hremembered fun t ht =>
            .inl (Nat.lt_of_lt_of_le (hfurthest t ht) hle))
  | «variable» hb hquiet hname hcall => exact hcall.standing hb hquiet hname he
  | @unop m _ _ _ _ _ _ hsign hspaces htries hd hd' hb =>
      have hm : o < m := hspaces.le
      have hsize := hspaces.le_size (lt_size_of_char hsign)
      exact (hexpression m hm hsize _ _ _ htries).standing_unop htries hm hd hd' hb he
  | @bracket m _ _ _ _ _ hbracket hspaces htries hd hb =>
      have hm : o < m := hspaces.le
      have hsize := hspaces.le_size (lt_size_of_char hbracket)
      obtain ⟨k, r₁, r₂, c₁, c₂, rfl, rfl, hinner, hclose⟩ := htries.seq_some
      exact .tidy ((hexpression m hm hsize _ _ _ hinner).tidy_bracket hinner hm hclose hd hb hle)

/-- The attempt of an operand, if the expressions in it are attempted as they should be. -/
theorem operand_attempt (h : Tries chars (.call .noBinopExpression) o result r c) :
    OperandAttempt chars o result r c := by
  obtain ⟨b, rfl, hbody⟩ := operandBody_of_tries (call_attempt hexpression) h
  refine ⟨(hbody.fresh hexpression).attempt (Nat.le_refl o), fun j hj e he => ?_⟩
  cases hj
  exact hbody.standing hexpression (h.accepts.lt rfl) he

end Operands

end Expressions

end Sumscript

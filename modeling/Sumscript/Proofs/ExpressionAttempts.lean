import Sumscript.Proofs.OperandAttempts

/-! # What is attempted of an expression

An expression is first tried as a binary operation. If that fails behind its left operand, the
operand is tried again and read again. What is known of the operand then is left out, and with it
only such failures as do not get further than what follows the operand.
-/

namespace Sumscript

open Token

section Expressions

variable {chars : Array Char} {o i j e r : Nat} {result : Option Nat} {c : Course}

/-- The attempt of what makes an operation out of an operand fails before a sign or behind it. -/
theorem operation_cases (h : Tries chars .binopTail i result r c) :
    ∃ e, Accepts chars (.call .spaces) i e ∧
      (chars[e]? ≠ some '+' ∧ result = none ∧ r = e ∧ c.Plain ∧
          c.furthest = some ⟨.rule .op, e, e⟩ ∨
        chars[e]? = some '+' ∧ ∃ m c', c.Surrounds c' ∧ Accepts chars (.call .spaces) (e + 1) m ∧
          Tries chars (.call .expression) m result r c') := by
  obtain ⟨e, c₁, hc₁, he, h⟩ := h.after_layout (.inl rfl)
  refine ⟨e, he, ?_⟩
  rcases h.after_op with ⟨hsign, hresult, hr, hplain, hfurthest⟩ | ⟨hsign, c₂, hc₂, h⟩
  · exact .inl ⟨hsign, hresult, hr, hc₁.plain hplain, hc₁.furthest.trans hfurthest⟩
  · obtain ⟨c₃, hc₃, h⟩ := h.after_act
    obtain ⟨m, c₄, hc₄, hm, h⟩ := h.after_layout (.inl rfl)
    obtain ⟨c₅, hc₅, h⟩ := h.before_act
    exact .inr ⟨hsign, m, c₅, (((hc₁.trans hc₂).trans hc₃).trans hc₄).trans hc₅, hm, h⟩

/-- The course of an expression that is no operation: its operand is tried twice, the first time
with what should follow it. -/
def operandAgain (o reach : Nat) (operand behind : Course) : Course :=
  .attempt .expression o none (.next (.attempt .binop o (some reach) (.next operand behind)) operand)

section OperandAgain

variable {c₁ c₂ : Course} {w : Token} (hrevisit : c₁.revisit = .nothing)
  (hfurthest : furtherOf c₁.furthest c₂.furthest = some w)
  (hagain : furtherOf (some w) c₁.furthest = some w) (hstart : o < w.start) (hstop : r ≤ w.stop)

include hfurthest hstart hstop

theorem furthest_binop : (Course.attempt .binop o (some r) (.next c₁ c₂)).furthest = some w := by
  rw [Course.furthest_failed rfl, Course.furthest_next, hfurthest]
  refine furtherOf_eq_left ?_
  rintro u ⟨⟩
  simp only
  omega

include hagain

theorem furthest_operandAgain : (operandAgain o r c₁ c₂).furthest = some w := by
  rw [operandAgain, Course.furthest_matched, Course.furthest_next,
    furthest_binop hfurthest hstart hstop, hagain]

include hrevisit

theorem fresh_operandAgain (hfresh : (Course.next c₁ c₂).Fresh o) :
    (operandAgain o r c₁ c₂).Fresh o := by
  refine ((hfresh.attempt (Nat.le_refl o)).next_again ?_ ?_ ?_).attempt (Nat.le_refl o)
  · rw [Course.remembered_forgotten rfl]
    exact List.subset_append_left _ _
  · rw [furthest_binop hfurthest hstart hstop, hrevisit, hagain]
    rfl
  · exact (Course.Covers.refl c₁).next_left.attempt

theorem settled_operandAgain (hsettled : furtherOf (some w) c₂.revisit.furthest = some w) :
    (operandAgain o r c₁ c₂).Settled := by
  unfold Course.Settled
  rw [furthest_operandAgain hfurthest hagain hstart hstop, operandAgain,
    Course.revisit_attempt rfl, Course.revisit_next, Course.revisit_attempt rfl,
    Course.revisit_next, hrevisit, Course.furthest_matched, Course.furthest_next,
    Course.furthest_failed rfl, Course.furthest_next]
  rw [Course.furthest_nothing, none_furtherOf, furtherOf_none, ← furtherOf_assoc, hsettled]
  refine furtherOf_eq_left ?_
  rintro u ⟨⟩
  simp only
  omega

end OperandAgain

/-- The course of an expression whose operand fails. -/
def operandFailed (o reach : Nat) (operand : Course) : Course :=
  .attempt .expression o (some reach) (.next (.attempt .binop o (some reach) operand) operand)

theorem fresh_operandFailed (hrevisit : c.revisit = .nothing) (hfresh : c.Fresh o) :
    (operandFailed o r c).Fresh o := by
  refine (hfresh.attempt (Nat.le_refl o)).failed_again ?_ rfl (Nat.le_refl o) ?_ ?_
  · rw [Course.remembered_forgotten rfl]
    exact List.Subset.refl _
  · -- The failure of the expression gets as far as that of the operation, and comes later.
    have habsorb : furtherOf (some ⟨.rule .binop, o, r⟩) (some ⟨.rule .expression, o, r⟩) =
        some ⟨.rule .expression, o, r⟩ :=
      furtherOf_eq_right (by rintro u ⟨⟩; exact .inr ⟨rfl, Nat.le_refl o⟩)
    rw [hrevisit, Course.furthest_nothing, furtherOf_none, Course.furthest_failed rfl,
      furtherOf_assoc, habsorb, furtherOf_assoc, furtherOf_assoc, furtherOf_absorb habsorb,
      ← furtherOf_assoc, furtherOf_self]
  · exact (Course.Covers.refl c).attempt

theorem settled_operandFailed (hrevisit : c.revisit = .nothing) : (operandFailed o r c).Settled := by
  unfold Course.Settled
  have hrevisit' : (operandFailed o r c).revisit.furthest = some ⟨.rule .expression, o, r⟩ := by
    rw [operandFailed, Course.revisit_attempt rfl, Course.revisit_next, Course.revisit_attempt rfl,
      hrevisit, Course.furthest_failed rfl, Course.furthest_next, Course.furthest_failed rfl]
    refine furtherOf_eq_right ?_
    rintro u ⟨⟩
    exact .inr ⟨rfl, Nat.le_refl o⟩
  rw [hrevisit', operandFailed, Course.furthest_failed rfl, furtherOf_assoc, furtherOf_self]

/-- The outcome of an operand is remembered, so the operand is not gone again. -/
theorem Tries.revisit_operand (h : Tries chars (.call .noBinopExpression) o result r c) :
    c.revisit = .nothing := by
  obtain ⟨b, rfl, -⟩ := h.call_cases
  exact Course.revisit_attempt_remembered rfl

theorem remembered_operandAgain (o r : Nat) (c₁ c₂ : Course) :
    (operandAgain o r c₁ c₂).remembered = (c₁.remembered ++ c₂.remembered) ++ c₁.remembered := by
  rw [operandAgain, Course.remembered_forgotten rfl, Course.remembered,
    Course.remembered_forgotten rfl, Course.remembered]

/-- The course of an expression that is an operation. -/
def operationFound (o : Nat) (operand behind : Course) : Course :=
  .attempt .expression o none (.attempt .binop o none (.next operand behind))

theorem remembered_operationFound {c₂ u : Course} (c₁ : Course) (hu : c₂.Surrounds u) :
    (operationFound o c₁ c₂).remembered = c₁.remembered ++ u.remembered := by
  rw [operationFound, Course.remembered_forgotten rfl, Course.remembered_forgotten rfl,
    Course.remembered, hu.remembered]

theorem furthest_operationFound {c₁ c₂ u : Course} {t : Token} (hu : c₂.Surrounds u)
    (ht : u.furthest = some t) (hless : ∀ s ∈ c₁.furthest, s.stop < t.stop) :
    (operationFound o c₁ c₂).furthest = u.furthest := by
  rw [operationFound, Course.furthest_matched, Course.furthest_matched, Course.furthest_next,
    hu.furthest, ht]
  exact furtherOf_eq_right fun s hs => .inl (hless s hs)

/-- An operand is in order if a sign with an expression stands behind it. -/
theorem OperandAttempt.tidy_of_operation {k m e₀ r' : Nat} {u : Course}
    (h : OperandAttempt chars o (some k) r c) (he₀ : Accepts chars (.call .spaces) k e₀)
    (hsign : chars[e₀]? = some '+') (hm : Accepts chars (.call .spaces) (e₀ + 1) m)
    (hright : Tries chars (.call .expression) m (some j) r' u) : Tidy c r k e₀ := by
  cases h.standing k rfl e₀ he₀ with
  | tidy h => exact h
  | dangling h =>
      obtain ⟨m', _, _, hm', hfails, -⟩ := h.rest
      obtain rfl := hm.unique hm'
      cases (hright.unique hfails).1
  | unclosed h => cases hsign.symm.trans h.bracket

section Cases

variable {k e₀ r₁ r₂ : Nat} {c₁ c₂ : Course}
  (hoperand : OperandAttempt chars o (some k) r₁ c₁)
  (htries : Tries chars (.call .noBinopExpression) o (some k) r₁ c₁)
  (he₀ : Accepts chars (.call .spaces) k e₀)

include hoperand htries he₀

/-- Behind an operand that is in order a sign is missing. -/
theorem expression_tidy (htidy : Tidy c₁ r₁ k e₀) (hsign : chars[e₀]? ≠ some '+')
    (hplain : c₂.Plain) (hop : c₂.furthest = some ⟨.rule .op, e₀, e₀⟩) :
    ExpressionAttempt chars o (some k) (max (max r₁ e₀) r₁)
      (operandAgain o (max r₁ e₀) c₁ c₂) := by
  have hlt := htries.accepts.lt rfl
  have hrevisit := htries.revisit_operand
  have hk := he₀.le
  have hr := htidy.reach_le
  have hfurthest : furtherOf c₁.furthest c₂.furthest = some ⟨.rule .op, e₀, e₀⟩ := by
    rw [hop]
    refine furtherOf_eq_right fun u hu => ?_
    rcases htidy.furthest u hu with rfl | hu
    · exact .inr ⟨rfl, Nat.le_refl e₀⟩
    · simp only
      omega
  have hagain := furtherOf_eq_left htidy.furthest
  have hstop : max r₁ e₀ ≤ e₀ := Nat.max_le.mpr ⟨hr, Nat.le_refl e₀⟩
  have hwhole := furthest_operandAgain hfurthest hagain (Nat.lt_of_lt_of_le hlt hk) hstop
  refine ⟨⟨?_, fun j hj e he => ?_⟩, ?_, fun j hj e he _ => ?_⟩
  · exact fresh_operandAgain hrevisit hfurthest hagain (Nat.lt_of_lt_of_le hlt hk) hstop
      (hoperand.fresh.next_plain hplain)
  · cases hj
    obtain rfl := he.unique he₀
    refine .tidy ⟨by omega, fun x hx => ?_, ?_⟩
    · rw [remembered_operandAgain, hplain.remembered, List.append_nil, List.mem_append,
        or_self] at hx
      exact htidy.remembered_lt x hx
    · rw [hwhole]
      rintro t ⟨⟩
      exact .inl rfl
  · refine settled_operandAgain hrevisit hfurthest hagain (Nat.lt_of_lt_of_le hlt hk) hstop ?_
    rw [hplain.revisit, hop, furtherOf_self]
  · cases hj
    obtain rfl := he.unique he₀
    exact ⟨hsign, hwhole⟩

/-- Behind a name a bracket is not closed. -/
theorem expression_unclosed (hunclosed : Unclosed chars c₁ r₁ e₀) (hplain : c₂.Plain)
    (hop : c₂.furthest = some ⟨.rule .op, e₀, e₀⟩) :
    ExpressionAttempt chars o (some k) (max (max r₁ e₀) r₁)
      (operandAgain o (max r₁ e₀) c₁ c₂) := by
  have hlt := htries.accepts.lt rfl
  have hrevisit := htries.revisit_operand
  have hk := he₀.le
  obtain ⟨t, ht, hstart, hstop⟩ := hunclosed.furthest
  have hbounds := htries.furthest_bounds t ht
  have hless : ∀ u ∈ (some ⟨.rule .op, e₀, e₀⟩ : Option Token),
      u = t ∨ u.stop < t.stop ∨ u.stop = t.stop ∧ u.start < t.start := by
    rintro u ⟨⟩
    simp only
    omega
  have hfurthest : furtherOf c₁.furthest c₂.furthest = some t := by
    rw [hop, ht]
    exact furtherOf_eq_left hless
  have hagain : furtherOf (some t) c₁.furthest = some t := by
    rw [ht, furtherOf_self]
  have hstart' : o < t.start := by omega
  have hstop' : max r₁ e₀ ≤ t.stop := by omega
  have hwhole := furthest_operandAgain hfurthest hagain hstart' hstop'
  refine ⟨⟨?_, fun j hj e he => ?_⟩, ?_, fun j hj e he htidy => ?_⟩
  · exact fresh_operandAgain hrevisit hfurthest hagain hstart' hstop'
      (hoperand.fresh.next_plain hplain)
  · cases hj
    obtain rfl := he.unique he₀
    exact .unclosed ⟨hunclosed.bracket, t, hwhole, hstart, by omega⟩
  · refine settled_operandAgain hrevisit hfurthest hagain hstart' hstop' ?_
    rw [hplain.revisit, hop]
    exact furtherOf_eq_left hless
  · cases hj
    obtain rfl := he.unique he₀
    rcases htidy.furthest t hwhole with rfl | hless'
    · exact absurd hstart (Nat.lt_irrefl e)
    · omega

/-- Whatever was tried of the operand, what is tried behind the sign gets as far. -/
theorem operand_before_failed {m : Nat} {u : Course} {w : Token} (hsign : chars[e₀]? = some '+')
    (hm : Accepts chars (.call .spaces) (e₀ + 1) m)
    (hright : Tries chars (.call .expression) m none r₂ u)
    (hlast : ExpressionAttempt chars m none r₂ u) (hu : c₂.Surrounds u)
    (hw : u.furthest = some w) (hwstop : w.stop = r₂) :
    r₁ ≤ r₂ ∧ furtherOf c₁.furthest c₂.furthest = some w ∧
      furtherOf (some w) c₁.furthest = some w ∧ (Course.next c₁ c₂).Fresh o := by
  have hlt := htries.accepts.lt rfl
  have hk := he₀.le
  have hm' := hm.le
  have hle₂ := hright.le_reach
  have hw₂ : c₂.furthest = some w := hu.furthest.trans hw
  rw [hw₂]
  cases hoperand.standing k rfl e₀ he₀ with
  | tidy htidy =>
      have hr := htidy.reach_le
      have hbounds : ∀ v ∈ c₁.furthest, v.stop < w.stop := fun v hv => by
        have := htries.furthest_bounds v hv
        omega
      refine ⟨by omega, furtherOf_eq_right fun v hv => .inl (hbounds v hv),
        furtherOf_eq_left fun v hv => .inr (.inl (hbounds v hv)), ?_⟩
      refine hoperand.fresh.next (fun x hx => ?_) (by omega : o ≤ m) (hu.fresh hlast.fresh)
      have := htidy.remembered_lt x hx
      omega
  | dangling hdangling =>
      obtain ⟨m₁, r', c', hm₁, hfails, hr, hc₁, hsub, hcovers⟩ := hdangling.rest
      obtain rfl := hm₁.unique hm
      obtain ⟨-, rfl, rfl⟩ := hfails.unique hright
      have hsettled := hu.settled hlast.settled
      rw [hw] at hc₁
      refine ⟨hr, by rw [hc₁, furtherOf_self], by rw [hc₁, furtherOf_self], ?_⟩
      refine hoperand.fresh.next_again ?_ ?_ (hcovers.trans hu.covered)
      · rw [hu.remembered]
        exact hsub
      · rw [hc₁, ← hw₂, hsettled, furtherOf_self]
  | unclosed hunclosed => cases hsign.symm.trans hunclosed.bracket

/-- Behind a sign an expression is missing. -/
theorem expression_dangling {m : Nat} {u : Course} (hsign : chars[e₀]? = some '+')
    (hm : Accepts chars (.call .spaces) (e₀ + 1) m)
    (hright : Tries chars (.call .expression) m none r₂ u)
    (hlast : ExpressionAttempt chars m none r₂ u) (hu : c₂.Surrounds u) :
    ExpressionAttempt chars o (some k) (max (max r₁ r₂) r₁)
      (operandAgain o (max r₁ r₂) c₁ c₂) := by
  have hlt := htries.accepts.lt rfl
  have hrevisit := htries.revisit_operand
  have hk := he₀.le
  have hm' := hm.le
  obtain ⟨w, hw, hwstop, hwstart⟩ := hright.furthest_of_failed rfl
  have hw₂ : c₂.furthest = some w := hu.furthest.trans hw
  have hsettled : furtherOf (some w) c₂.revisit.furthest = some w := by
    rw [← hw₂]
    exact hu.settled hlast.settled
  obtain ⟨hr, hfurthest, hagain, hfresh⟩ :=
    operand_before_failed hoperand htries he₀ hsign hm hright hlast hu hw hwstop
  have hstart : o < w.start := by omega
  have hstop : max r₁ r₂ ≤ w.stop := by omega
  have hwhole := furthest_operandAgain hfurthest hagain hstart hstop
  refine ⟨⟨fresh_operandAgain hrevisit hfurthest hagain hstart hstop hfresh, fun j hj e he => ?_⟩,
    settled_operandAgain hrevisit hfurthest hagain hstart hstop hsettled, fun j hj e he htidy => ?_⟩
  · cases hj
    obtain rfl := he.unique he₀
    refine .dangling ⟨hsign, m, r₂, u, hm, hright, by omega, hwhole.trans hw.symm, ?_, ?_⟩
    · rw [remembered_operandAgain, hu.remembered]
      exact fun x hx => List.mem_append_left _ (List.mem_append_right _ hx)
    · exact hu.covers.next_right.attempt.next_left.attempt
  · cases hj
    obtain rfl := he.unique he₀
    have hbounds := hright.furthest_bounds w hw
    rcases htidy.furthest w hwhole with rfl | hless
    · exact absurd hwstart (by simp only; omega)
    · omega

end Cases

section Cases

variable {k r₁ r₂ : Nat} {c₁ c₂ : Course}
  (hexpression : ∀ m, o < m → m ≤ chars.size → ∀ result r c,
    Tries chars (.call .expression) m result r c → ExpressionAttempt chars m result r c)
  (hoperand : OperandAttempt chars o (some k) r₁ c₁)
  (htries : Tries chars (.call .noBinopExpression) o (some k) r₁ c₁)

include hexpression hoperand htries

/-- An operand behind which stands no operation is an expression. -/
theorem expression_again (htail : Tries chars .binopTail k none r₂ c₂) :
    ExpressionAttempt chars o (some k) (max (max r₁ r₂) r₁)
      (operandAgain o (max r₁ r₂) c₁ c₂) := by
  have hlt := htries.accepts.lt rfl
  obtain ⟨e₀, he₀, ⟨hsign, -, rfl, hplain, hop⟩ | ⟨hsign, m, u, hu, hm, hright⟩⟩ :=
    operation_cases htail
  · cases hoperand.standing k rfl r₂ he₀ with
    | tidy htidy => exact expression_tidy hoperand htries he₀ htidy hsign hplain hop
    | dangling hdangling => exact absurd hdangling.sign hsign
    | unclosed hunclosed => exact expression_unclosed hoperand htries he₀ hunclosed hplain hop
  · have hk := he₀.le
    have hm' := hm.le
    have hlast := hexpression m (by omega) (hm.le_size (lt_size_of_char hsign)) _ _ _ hright
    exact expression_dangling hoperand htries he₀ hsign hm hright hlast hu

/-- An operand with what makes an operation out of it is an expression. -/
theorem expression_operation (htail : Tries chars .binopTail k (some j) r₂ c₂) :
    ExpressionAttempt chars o (some j) (max r₁ r₂) (operationFound o c₁ c₂) := by
  have hlt := htries.accepts.lt rfl
  have hrevisit := htries.revisit_operand
  obtain ⟨e₀, he₀, ⟨-, hresult, -⟩ | ⟨hsign, m, u, hu, hm, hright⟩⟩ := operation_cases htail
  · cases hresult
  have hm' := hm.le
  have hk := he₀.le
  have hlast := hexpression m (by omega) (hm.le_size (lt_size_of_char hsign)) _ _ _ hright
  have htidy := hoperand.tidy_of_operation he₀ hsign hm hright
  have hr := htidy.reach_le
  have hr₂ := hright.le_reach
  have hremembered := remembered_operationFound (o := o) c₁ hu
  have hfurthest : ∀ e, Accepts chars (.call .spaces) j e →
      (operationFound o c₁ c₂).furthest = u.furthest := by
    intro e he
    obtain ⟨t, ht, -⟩ := hlast.furthest he
    have hbounds := hright.furthest_bounds t ht
    refine furthest_operationFound hu ht fun s hs => ?_
    have := htries.furthest_bounds s hs
    omega
  refine ⟨⟨?_, fun j' hj' e he => ?_⟩, ?_, fun j' hj' e he hd => ?_⟩
  · refine ((hoperand.fresh.next (fun x hx => ?_) (by omega : o ≤ m)
      (hu.fresh hlast.fresh)).attempt (Nat.le_refl o)).attempt (Nat.le_refl o)
    have := htidy.remembered_lt x hx
    omega
  · cases hj'
    have hj := hright.accepts.le
    rw [Nat.max_eq_right (by omega)]
    refine (hlast.standing j rfl e he).of_last (hfurthest e he) ?_ (fun h => ?_) ?_
    · rw [hremembered]
      exact List.subset_append_right _ _
    · rw [hremembered]
      refine List.forall_mem_append.mpr ⟨fun x hx => ?_, h⟩
      have := htidy.remembered_lt x hx
      omega
    · exact hu.covers.next_right.attempt.attempt
  · exact (((hu.settled hlast.settled).behind hrevisit).matched rfl).matched rfl
  · cases hj'
    rw [hfurthest e he]
    refine hlast.ended j rfl e he ⟨?_, fun x hx => ?_, ?_⟩
    · have := hd.reach_le
      omega
    · refine hd.remembered_lt x ?_
      rw [hremembered]
      exact List.mem_append_right _ hx
    · rw [← hfurthest e he]
      exact hd.furthest

end Cases

/-- The attempt of an expression, by induction on the text that is left. -/
theorem expression_attempt (ho : o ≤ chars.size)
    (h : Tries chars (.call .expression) o result r c) : ExpressionAttempt chars o result r c := by
  induction hrest : chars.size - o using Nat.strongRecOn generalizing o result r c with
  | ind rest ih =>
      have hexpression : ∀ m, o < m → m ≤ chars.size → ∀ result r c,
          Tries chars (.call .expression) m result r c → ExpressionAttempt chars m result r c :=
        fun m hm hsize result r c h => ih (chars.size - m) (by omega) hsize h rfl
      obtain ⟨b, rfl, hbody⟩ := h.call_cases
      rcases hbody.alt_cases with ⟨j, rfl, hbinop⟩ | ⟨r₁, r₂, c₁, c₂, rfl, rfl, hbinop, hsecond⟩
      · obtain ⟨b₁, rfl, hparts⟩ := hbinop.call_some
        obtain ⟨k, r₁, r₂, c₁, c₂, rfl, rfl, hfirst, htail⟩ := hparts.seq_some
        exact expression_operation hexpression (operand_attempt hexpression hfirst) hfirst htail
      · obtain ⟨b₁, rfl, hparts⟩ := hbinop.call_none
        have hoperand := operand_attempt hexpression hsecond
        rcases hparts.seq_none with hfirst | ⟨k, r₁, r₃, c₁, c₃, rfl, rfl, hfirst, htail⟩
        · obtain ⟨rfl, rfl, rfl⟩ := hfirst.unique hsecond
          rw [Nat.max_self]
          have hrevisit := hfirst.revisit_operand
          exact ⟨⟨fresh_operandFailed hrevisit hoperand.fresh, fun j hj => nomatch hj⟩,
            settled_operandFailed hrevisit, fun j hj => nomatch hj⟩
        · obtain ⟨rfl, rfl, rfl⟩ := hfirst.unique hsecond
          exact expression_again hexpression hoperand hsecond htail

end Expressions

end Sumscript

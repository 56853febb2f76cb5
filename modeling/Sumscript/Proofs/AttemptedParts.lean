import Sumscript.Proofs.FurthestAttempt
import Sumscript.Proofs.ParsedText

/-! # Attempts part by part

How the attempts of a phrase begin and go on. What looks only at what it reads and reports nothing
is passed over: of the course of a phrase, only the parts are kept in which something can fail or
is remembered.
-/

namespace Sumscript

open Token

namespace Tries

variable {chars : Array Char} {p q : Pattern} {rule : Rule} {i j r : Nat} {result : Option Nat}
  {c : Course}

theorem furthest_bounds (h : Tries chars p i result r c) :
    ∀ t ∈ c.furthest, i ≤ t.start ∧ t.start ≤ t.stop ∧ t.stop ≤ r :=
  fun t ht => h.failures_bounds t (Course.mem_of_furthest ht)

/-- A failed attempt is reported, if not something that is further. -/
theorem furthest_of_failed (hrule : rule.isLexical = false)
    (h : Tries chars (.call rule) i none r c) :
    ∃ t, c.furthest = some t ∧ t.stop = r ∧ i ≤ t.start := by
  have hbounds := h.furthest_bounds
  obtain ⟨c', rfl, -⟩ := h.call_none
  rw [Course.furthest_failed hrule] at hbounds ⊢
  cases hinner : c'.furthest with
  | none => exact ⟨_, rfl, rfl, Nat.le_refl i⟩
  | some u =>
      rw [hinner, some_furtherOf_some] at hbounds
      rw [some_furtherOf_some]
      split
      · exact ⟨_, rfl, rfl, Nat.le_refl i⟩
      next hovertakes =>
        rw [overtakes_iff] at hovertakes
        rw [if_neg (by rwa [overtakes_iff])] at hbounds
        have := hbounds u rfl
        exact ⟨u, rfl, by simp only at hovertakes; omega, this.1⟩

/-- Layout matches everywhere, and reports nothing. -/
theorem layout (hrule : rule = .spaces ∨ rule = .simpleSpaces)
    (h : Tries chars (.call rule) i result r c) : result = some r ∧ c.Quiet := by
  obtain ⟨hexact, htotal, hquiet⟩ :
      rule.isExact = true ∧ rule.production.isTotal = true ∧ rule.isQuiet = true := by
    rcases hrule with rfl | rfl <;> decide
  refine ⟨?_, h.quiet hquiet⟩
  have hcommits := h.commits hexact
  cases result with
  | some j => rw [hcommits]; rfl
  | none =>
      obtain ⟨c', -, hbody⟩ := h.call_none
      exact absurd hbody (not_none_of_isTotal htotal)

/-- A rule for a word that matches reports nothing. -/
theorem word (hexact : rule.isExact = true)
    (hquiet : rule.production.callsOnly Rule.isQuiet = true)
    (h : Tries chars (.call rule) i (some j) r c) : r = j ∧ c.Quiet := by
  have hplain : rule.isPlain = true := by
    revert hexact
    cases rule <;> decide
  refine ⟨h.commits hexact, h.plain hplain, ?_⟩
  obtain ⟨c', rfl, hbody⟩ := h.call_some
  rw [Course.failures, Course.reported, List.append_nil]
  exact (hbody.quiet hquiet).failures

/-- A word with an action behind it reports nothing when it is read. -/
theorem labelled {word : Rule} {action : Action}
    (hproduction : rule.production = .seq (.call word) (.act action))
    (hrule : rule.isExact = true) (hword : word.isExact = true)
    (hquiet : word.production.callsOnly Rule.isQuiet = true)
    (h : Tries chars (.call rule) i (some j) r c) : r = j ∧ c.Quiet := by
  have hplain : rule.isPlain = true := by
    revert hrule
    cases rule <;> decide
  refine ⟨h.commits hrule, h.plain hplain, ?_⟩
  obtain ⟨c', rfl, hbody⟩ := h.call_some
  rw [hproduction] at hbody
  obtain ⟨k, r₁, r₂, c₁, c₂, rfl, rfl, hfirst, hact⟩ := hbody.seq_some
  obtain ⟨-, -, rfl⟩ := hact.act_some
  rw [Course.failures, Course.failures, (hfirst.word hword hquiet).2.failures]
  rfl

theorem op_none (h : Tries chars (.call .op) i none r c) :
    chars[i]? ≠ some '+' ∧ r = i ∧ c.Plain ∧ c.furthest = some ⟨.rule .op, i, i⟩ := by
  have hplain := h.plain rfl
  obtain ⟨c', rfl, hbody⟩ := h.call_none
  obtain ⟨hchar, rfl, rfl⟩ := char_none hbody
  exact ⟨hchar, rfl, hplain, rfl⟩

/-! Parts that look only at what they read leave the rest of a sequence to be tried. -/

/-- What fails without looking further is tried in vain. -/
theorem endsIn_next {c' : Course} (h : Tries chars p i none i c) (hplain : c.Plain) :
    (Course.next c c').EndsIn i c' := by
  refine .stuck hplain (fun t ht => ?_) (.refl c')
  have := h.furthest_bounds t ht
  omega

/-- Behind an alternative that is tried in vain the other one is tried. -/
theorem alt_stuck (hstuck : ∀ {r c}, Tries chars p i none r c → r = i ∧ c.Plain)
    (h : Tries chars (.alt p q) i result r c) :
    (∃ j, result = some j ∧ Tries chars p i (some j) r c) ∨
      ∃ c', c.EndsIn i c' ∧ Fails chars p i ∧ Tries chars q i result r c' := by
  rcases h.alt_cases with h | ⟨r₁, r₂, c₁, c₂, rfl, rfl, hfirst, hsecond⟩
  · exact .inl h
  · obtain ⟨rfl, hplain⟩ := hstuck hfirst
    rw [Nat.max_eq_right hsecond.le_reach]
    exact .inr ⟨c₂, hfirst.endsIn_next hplain, hfirst.fails, hsecond⟩

/-- Behind a part that looks as far as it reads and reports nothing the rest is tried. -/
theorem seq_quiet (hp : p.commits = true)
    (hquiet : ∀ {k r c}, Tries chars p i (some k) r c → c.Quiet)
    (h : Tries chars (.seq p q) i result r c) :
    result = none ∧ Tries chars p i none r c ∨
      ∃ k c', c.Surrounds c' ∧ Accepts chars p i k ∧ Tries chars q k result r c' := by
  rcases h.seq_cases with h | ⟨k, r₁, r₂, c₁, c₂, rfl, rfl, hfirst, hsecond⟩
  · exact .inl h
  · have hr : r₁ = k := hfirst.commits hp
    rw [hr, Nat.max_eq_right hsecond.le_reach]
    exact .inr ⟨k, c₂, .before (hquiet hfirst) (.refl c₂), hfirst.accepts, hsecond⟩

theorem after_layout (hrule : rule = .spaces ∨ rule = .simpleSpaces)
    (h : Tries chars (.seq (.call rule) q) i result r c) :
    ∃ k c', c.Surrounds c' ∧ Accepts chars (.call rule) i k ∧ Tries chars q k result r c' := by
  have hcommits : (Pattern.call rule).commits = true := by
    rcases hrule with rfl | rfl <;> rfl
  rcases seq_quiet hcommits (fun h => (h.layout hrule).2) h with ⟨-, hfails⟩ | h
  · cases (hfails.layout hrule).1
  · exact h

theorem after_act {action : Action} (h : Tries chars (.seq (.act action) q) i result r c) :
    ∃ c', c.Surrounds c' ∧ Tries chars q i result r c' := by
  have hquiet : ∀ {k r c}, Tries chars (.act action) i (some k) r c → c.Quiet := by
    intro k r c h
    obtain ⟨-, -, rfl⟩ := h.act_some
    exact .nothing
  rcases seq_quiet rfl hquiet h with ⟨-, hfails⟩ | ⟨k, c', hc, hact, hrest⟩
  · exact absurd hfails (not_none_of_isTotal rfl)
  · obtain rfl := accepts_act_iff.mp hact
    exact ⟨c', hc, hrest⟩

theorem after_char {a : Char} (h : Tries chars (.seq (.char a) q) i result r c) :
    chars[i]? ≠ some a ∧ result = none ∧ r = i ∧ c.Quiet ∨
      chars[i]? = some a ∧ ∃ c', c.Surrounds c' ∧ Tries chars q (i + 1) result r c' := by
  have hquiet : ∀ {k r c}, Tries chars (.char a) i (some k) r c → c.Quiet := by
    intro k r c h
    obtain ⟨-, -, -, rfl⟩ := h.char_some
    exact .nothing
  rcases seq_quiet rfl hquiet h with ⟨hresult, hfails⟩ | ⟨k, c', hc, hread, hrest⟩
  · obtain ⟨hchar, hr, rfl⟩ := hfails.char_none
    exact .inl ⟨hchar, hresult, hr, .nothing⟩
  · obtain ⟨hchar, rfl⟩ := accepts_char_iff.mp hread
    exact .inr ⟨hchar, c', hc, hrest⟩

theorem after_name (h : Tries chars (.seq (.call .name) q) i result r c) :
    result = none ∧ Tries chars (.call .name) i none r c ∨
      ∃ k c', c.Surrounds c' ∧ Accepts chars (.call .name) i k ∧ Tries chars q k result r c' :=
  seq_quiet rfl (fun h => (h.word rfl rfl).2) h

theorem after_op (h : Tries chars (.seq (.call .op) q) i result r c) :
    chars[i]? ≠ some '+' ∧ result = none ∧ r = i ∧ c.Plain ∧
        c.furthest = some ⟨.rule .op, i, i⟩ ∨
      chars[i]? = some '+' ∧ ∃ c', c.Surrounds c' ∧ Tries chars q (i + 1) result r c' := by
  rcases seq_quiet rfl (fun h => (h.word rfl rfl).2) h with
    ⟨hresult, hfails⟩ | ⟨k, c', hc, hread, hrest⟩
  · obtain ⟨hchar, hr, hplain, hfurthest⟩ := hfails.op_none
    exact .inl ⟨hchar, hresult, hr, hplain, hfurthest⟩
  · obtain ⟨hchar, rfl⟩ := accepts_op_iff.mp hread
    exact .inr ⟨hchar, c', hc, hrest⟩

/-- An action adds nothing to what was tried before it. -/
theorem before_act {action : Action} (h : Tries chars (.seq p (.act action)) i result r c) :
    ∃ c', c.Surrounds c' ∧ Tries chars p i result r c' := by
  rcases h.seq_cases with ⟨rfl, hfirst⟩ | ⟨k, r₁, r₂, c₁, c₂, rfl, rfl, hfirst, hact⟩
  · exact ⟨c, .refl c, hfirst⟩
  · cases result with
    | none => exact absurd hact (not_none_of_isTotal rfl)
    | some j =>
        obtain ⟨rfl, rfl, rfl⟩ := hact.act_some
        rw [Nat.max_eq_left hfirst.stop_le_reach]
        exact ⟨c₁, .behind (.refl c₁) .nothing, hfirst⟩

/-- Before a closing bracket there may be layout. -/
theorem closing (h : Tries chars (.seq (.call .spaces) (.char ')')) i result r c) :
    c.Quiet ∧ ∃ e, Accepts chars (.call .spaces) i e ∧
      (chars[e]? = some ')' ∧ result = some (e + 1) ∧ r = e + 1 ∨
        chars[e]? ≠ some ')' ∧ result = none ∧ r = e) := by
  obtain ⟨e, c', hc, hlayout, h⟩ := h.after_layout (.inl rfl)
  cases result with
  | some j =>
      obtain ⟨hchar, rfl, rfl, rfl⟩ := h.char_some
      exact ⟨⟨hc.plain .nothing, hc.failures⟩, e, hlayout, .inl ⟨hchar, rfl, rfl⟩⟩
  | none =>
      obtain ⟨hchar, rfl, rfl⟩ := h.char_none
      exact ⟨⟨hc.plain .nothing, hc.failures⟩, r, hlayout, .inr ⟨hchar, rfl, rfl⟩⟩

theorem unop_cases (h : Tries chars (.call .unop) i result r c) :
    chars[i]? ≠ some '+' ∧ result = none ∧ r = i ∧ c.Plain ∨
      chars[i]? = some '+' ∧ ∃ m d u, c = .attempt .unop i (result.elim (some r) fun _ => none) d ∧
        d.Surrounds u ∧ Accepts chars (.call .spaces) (i + 1) m ∧
        Tries chars (.call .expression) m result r u := by
  obtain ⟨d, rfl, hbody⟩ := h.call_cases
  rcases hbody.after_op with ⟨hchar, rfl, rfl, hplain, -⟩ | ⟨hsign, d₁, hd₁, hbody⟩
  · exact .inl ⟨hchar, rfl, rfl, hplain.attempt rfl rfl⟩
  · obtain ⟨d₂, hd₂, hbody⟩ := hbody.after_act
    obtain ⟨m, d₃, hd₃, hspaces, hbody⟩ := hbody.after_layout (.inl rfl)
    obtain ⟨u, hd₄, htries⟩ := hbody.before_act
    exact .inr ⟨hsign, m, d, u, rfl, ((hd₁.trans hd₂).trans hd₃).trans hd₄, hspaces, htries⟩

/-- What follows an argument: a comma with layout around it, or else the end of the list. -/
theorem comma_cases {j : Nat}
    (h : Tries chars (.seq (.call .spaces) (.seq (.char ',') (.call .spaces))) j result r c) :
    c.Quiet ∧ ∃ e, Accepts chars (.call .spaces) j e ∧
      (result = none ∧ r = e ∨ ∃ k, result = some k ∧ r = k ∧ chars[e]? = some ',' ∧
        Accepts chars (.call .spaces) (e + 1) k) := by
  obtain ⟨e, c', hc, he, h⟩ := h.after_layout (.inl rfl)
  rcases h.after_char with ⟨-, hresult, hr, hquiet⟩ | ⟨hchar, c'', hc', hspaces⟩
  · exact ⟨⟨hc.plain hquiet.toPlain, hc.failures.trans hquiet.failures⟩, e, he, .inl ⟨hresult, hr⟩⟩
  · obtain ⟨hresult, hquiet⟩ := hspaces.layout (.inl rfl)
    subst hresult
    have hc := hc.trans hc'
    exact ⟨⟨hc.plain hquiet.toPlain, hc.failures.trans hquiet.failures⟩, e, he,
      .inr ⟨r, rfl, rfl, hchar, hspaces.accepts⟩⟩

end Tries

section Layout

variable {chars : Array Char} {i j e : Nat}

/-- Layout ends where none begins. -/
theorem Accepts.layout_end (h : Accepts chars (.call .spaces) i e) :
    Accepts chars (.call .spaces) e e := by
  rw [accepts_call_iff] at h ⊢
  change Accepts chars (.star (.call .space)) i e at h
  have hfails : Fails chars (.call .space) e :=
    h.star_induction (motive := fun _ => Fails chars (.call .space) e) id fun _ _ _ _ _ ih => ih
  exact accepts_star_iff.mpr (.inl ⟨hfails, rfl⟩)

/-- Layout goes on where blanks end. -/
theorem Accepts.layout_behind_blanks {a : Nat} (he : Accepts chars (.call .spaces) j e)
    (h : Accepts chars (.call .simpleSpaces) j a) : Accepts chars (.call .spaces) a e := by
  have hstar : Accepts chars (.star (.call .simpleSpace)) j a := accepts_call_iff.mp h
  refine hstar.star_induction (motive := fun i => Accepts chars (.call .spaces) i e →
    Accepts chars (.call .spaces) a e) (fun _ h => h) (fun i k hblank hlt hrest ih hi => ih ?_) he
  have hspace : Accepts chars (.call .space) i k :=
    accepts_space_iff.mpr (.inl ((readsOne_simpleSpace.accepts_iff _ _).mp hblank))
  rcases accepts_star_iff.mp (accepts_call_iff.mp hi) with ⟨hfails, -⟩ | ⟨k', hspace', -, hrest'⟩
  · exact absurd hfails hspace.not_fails
  · obtain rfl := hspace.unique hspace'
    exact accepts_call_iff.mpr hrest'

/-- Layout ends where blanks end before a bracket. -/
theorem Accepts.layout_end_of_bracket {a : Nat} (he : Accepts chars (.call .spaces) j e)
    (h : Accepts chars (.call .simpleSpaces) j a) (hbracket : chars[a]? = some '(') : e = a := by
  rcases accepts_star_iff.mp (accepts_call_iff.mp (he.layout_behind_blanks h)) with
    ⟨-, hend⟩ | ⟨k, hspace, -⟩
  · exact hend
  · refine absurd (fails_space_iff.mpr fun c hc => ?_) hspace.not_fails
    cases hbracket.symm.trans hc
    rfl

end Layout

end Sumscript

import Sumscript.Proofs.RememberedOutcomes
import Sumscript.Proofs.WrittenRules

/-! # A syntax error ends where no program goes on

What an attempt has looked at begins a text that its pattern describes, so what was read of a text
can be continued to a program. On the other hand an attempt depends only on the characters up to
the first one that it did not read, so every text that agrees with them fails in the same way.
-/

namespace Sumscript

/-- What is spelled over a span begins a text that a pattern describes. -/
def Begins (chars : Array Char) (p : Pattern) (i r : Nat) : Prop :=
  ∃ u w, Spells chars i u r ∧ p.Describes (u ++ w)

/-- What is spelled over a span is described by a pattern. At the end of the text it may lack the
end of a comment. -/
def Completes (chars : Array Char) (p : Pattern) (i j : Nat) : Prop :=
  ∃ u, Spells chars i u j ∧ (p.Describes u ∨ chars[j]? = none ∧ ∃ w, p.Describes (u ++ w))

variable {chars : Array Char} {p q : Pattern} {rule : Rule} {i j k r : Nat} {result : Option Nat}
  {c : Course}

section Viability

theorem Begins.mono (h : Begins chars p i r) (hle : ∀ w, p.Describes w → q.Describes w) :
    Begins chars q i r := by
  obtain ⟨u, w, hspells, hw⟩ := h
  exact ⟨u, w, hspells, hle _ hw⟩

theorem Completes.mono (h : Completes chars p i j) (hle : ∀ w, p.Describes w → q.Describes w) :
    Completes chars q i j := by
  obtain ⟨u, hspells, hu | ⟨hend, w, hw⟩⟩ := h
  · exact ⟨u, hspells, .inl (hle _ hu)⟩
  · exact ⟨u, hspells, .inr ⟨hend, w, hle _ hw⟩⟩

/-- Nothing begins whatever a pattern describes. -/
theorem begins_nothing (hp : p.isPositive = true) : Begins chars p i i := by
  obtain ⟨w, hw⟩ := Pattern.exists_describes hp
  exact ⟨[], w, rfl, hw⟩

theorem Begins.seq_left (h : Begins chars p i r) (hq : q.isPositive = true) :
    Begins chars (.seq p q) i r := by
  obtain ⟨u, w, hspells, hw⟩ := h
  obtain ⟨v, hv⟩ := Pattern.exists_describes hq
  exact ⟨u, w ++ v, hspells, u ++ w, v, (List.append_assoc u w v).symm, hw, hv⟩

theorem Completes.begins_seq (h : Completes chars p i k) (h' : Begins chars q k r) :
    Begins chars (.seq p q) i r := by
  obtain ⟨v, w', hspells', hv⟩ := h'
  obtain ⟨u, hspells, hu | ⟨hend, w, hw⟩⟩ := h
  · exact ⟨u ++ v, w', hspells.append hspells', u, v ++ w', List.append_assoc u v w', hu, hv⟩
  · -- Behind the end of the text nothing was read.
    obtain ⟨rfl, rfl⟩ := hspells'.nil_of_end hend
    exact ⟨u, w ++ w', hspells, u ++ w, w', (List.append_assoc u w w').symm, hw, hv⟩

theorem Completes.seq (h : Completes chars p i k) (h' : Completes chars q k j) :
    Completes chars (.seq p q) i j := by
  obtain ⟨v, hspells', hv⟩ := h'
  obtain ⟨u, hspells, hu | ⟨hend, w, hw⟩⟩ := h
  · refine ⟨u ++ v, hspells.append hspells', hv.imp (fun hv => ⟨u, v, rfl, hu, hv⟩) ?_⟩
    rintro ⟨hend, w, hw⟩
    exact ⟨hend, w, u, v ++ w, List.append_assoc u v w, hu, hw⟩
  · obtain ⟨rfl, rfl⟩ := hspells'.nil_of_end hend
    obtain ⟨w', hw'⟩ : ∃ w', q.Describes w' :=
      hv.elim (fun hv => ⟨[], hv⟩) fun ⟨_, w', hw'⟩ => ⟨w', hw'⟩
    exact ⟨u, hspells, .inr ⟨hend, w ++ w', u ++ w, w', (List.append_assoc u w w').symm, hw, hw'⟩⟩

theorem describes_star_of_once {w : List Char} (h : p.Describes w) : (Pattern.star p).Describes w :=
  ⟨[w], by simp, List.forall_mem_singleton.mpr h⟩

theorem describes_star_of_more {w : List Char} (h : (Pattern.seq p (.star p)).Describes w) :
    (Pattern.star p).Describes w := by
  obtain ⟨u, _, rfl, hu, parts, rfl, hparts⟩ := h
  exact ⟨u :: parts, rfl, List.forall_mem_cons.mpr ⟨hu, hparts⟩⟩

theorem completes_nothing (h : p.Describes []) : Completes chars p i i :=
  ⟨[], rfl, .inl h⟩

theorem Begins.max {r' : Nat} (h : Begins chars p i r) (h' : Begins chars p i r') :
    Begins chars p i (max r r') := by
  rcases Nat.le_total r r' with hle | hle
  · rwa [Nat.max_eq_right hle]
  · rwa [Nat.max_eq_left hle]

theorem Completes.begins (h : Completes chars p i j) : Begins chars p i j := by
  obtain ⟨u, hspells, hu | ⟨-, w, hw⟩⟩ := h
  · exact ⟨u, [], hspells, by rwa [List.append_nil]⟩
  · exact ⟨u, w, hspells, hw⟩

theorem completes_of_leaf (hleaf : p.isLeaf = true) (h : Accepts chars p i j) :
    Completes chars p i j := by
  cases p with
  | char c =>
      obtain ⟨hchar, rfl⟩ := accepts_char_iff.mp h
      exact ⟨[c], .char hchar, .inl rfl⟩
  | range low high =>
      obtain ⟨⟨c, hchar, hc⟩, rfl⟩ := ((readsOne_range low high).accepts_iff i j).mp h
      obtain ⟨hlow, hhigh⟩ := (Bool.and_eq_true _ _).mp hc
      exact ⟨[c], .char hchar, .inl ⟨c, rfl, of_decide_eq_true hlow, of_decide_eq_true hhigh⟩⟩
  | any =>
      obtain ⟨⟨c, hchar⟩, rfl⟩ := accepts_any_iff.mp h
      exact ⟨[c], .char hchar, .inl ⟨c, rfl⟩⟩
  | stop =>
      obtain ⟨-, rfl⟩ := accepts_stop_iff.mp h
      exact completes_nothing rfl
  | act =>
      obtain rfl := accepts_act_iff.mp h
      exact completes_nothing rfl
  | _ => cases hleaf

/-- A comment that ends with the text is completed by a line end. -/
theorem completes_comment (h : Accepts chars (.call .comment) i j) :
    Completes chars (.call .comment) i j := by
  obtain ⟨body, k, hbody, hspells, hnewline | ⟨hend, rfl⟩⟩ := accepts_comment_iff.mp h
  · obtain ⟨n, hn, hspells', -⟩ := accepts_newline_iff.mp hnewline
    exact ⟨_, hspells.append hspells', .inl ⟨body, n, hbody, hn, rfl⟩⟩
  · exact ⟨_, hspells, .inr ⟨hend, ['\n'], body, _, hbody, .feed, rfl⟩⟩

theorem Tries.viable_comment (h : Tries chars (.call .comment) i result r c) :
    Begins chars (.call .comment) i r ∧ ∀ j ∈ result, Completes chars (.call .comment) i j := by
  have hcommits := h.commits rfl
  cases result with
  | some j =>
      obtain rfl : r = j := hcommits
      have hcomplete := completes_comment h.accepts
      exact ⟨hcomplete.begins, fun j hj => by cases hj; exact hcomplete⟩
  | none =>
      obtain rfl : r = i := hcommits
      exact ⟨begins_nothing rfl, fun j hj => by cases hj⟩

/-- What an attempt has looked at begins a text that its pattern describes, and what it has read is
such a text. -/
theorem Tries.viable (h : Tries chars p i result r c) (hp : p.isPositive = true) :
    Begins chars p i r ∧ ∀ j ∈ result, Completes chars p i j := by
  induction h with
  | leaf hleaf haccepts =>
      have hcomplete := completes_of_leaf hleaf haccepts
      exact ⟨hcomplete.begins, fun j hj => by cases hj; exact hcomplete⟩
  | leafFail => exact ⟨begins_nothing hp, fun j hj => by cases hj⟩
  | @call rule _ _ _ _ hbody ih =>
      by_cases hrule : rule = .comment
      · subst hrule
        exact Tries.viable_comment (.call hbody)
      · obtain ⟨hbegins, hcompletes⟩ := ih (isPositive_production hrule)
        exact ⟨hbegins.mono fun _ => describes_of_production hrule,
          fun j hj => (hcompletes j hj).mono fun _ => describes_of_production hrule⟩
  | @callFail rule _ _ _ hbody ih =>
      by_cases hrule : rule = .comment
      · subst hrule
        exact Tries.viable_comment (.callFail hbody)
      · exact ⟨(ih (isPositive_production hrule)).1.mono fun _ => describes_of_production hrule,
          fun j hj => by cases hj⟩
  | seqFail _ ih =>
      obtain ⟨hp, hq⟩ := (Bool.and_eq_true _ _).mp hp
      exact ⟨(ih hp).1.seq_left hq, fun j hj => by cases hj⟩
  | seq _ _ ih ih' =>
      obtain ⟨hp, hq⟩ := (Bool.and_eq_true _ _).mp hp
      obtain ⟨hbegins, hcompletes⟩ := ih hp
      obtain ⟨hbegins', hcompletes'⟩ := ih' hq
      have hfirst := hcompletes _ rfl
      exact ⟨(hbegins.seq_left hq).max (hfirst.begins_seq hbegins'),
        fun j hj => hfirst.seq (hcompletes' j hj)⟩
  | group _ ih => exact ih hp
  | altFirst _ ih =>
      obtain ⟨hbegins, hcompletes⟩ := ih ((Bool.and_eq_true _ _).mp hp).1
      exact ⟨hbegins.mono fun _ => Or.inl, fun j hj => (hcompletes j hj).mono fun _ => Or.inl⟩
  | altSecond _ _ ih ih' =>
      obtain ⟨hp, hq⟩ := (Bool.and_eq_true _ _).mp hp
      obtain ⟨hbegins', hcompletes'⟩ := ih' hq
      exact ⟨((ih hp).1.mono fun _ => Or.inl).max (hbegins'.mono fun _ => Or.inr),
        fun j hj => (hcompletes' j hj).mono fun _ => Or.inr⟩
  | starDone _ ih =>
      refine ⟨(ih hp).1.mono fun _ => describes_star_of_once, fun j hj => ?_⟩
      cases hj
      exact completes_nothing ⟨[], rfl, List.forall_mem_nil _⟩
  | starMore _ _ _ ih ih' =>
      obtain ⟨hbegins, hcompletes⟩ := ih hp
      obtain ⟨hbegins', hcompletes'⟩ := ih' hp
      have hfirst := hcompletes _ rfl
      exact ⟨(hbegins.mono fun _ => describes_star_of_once).max
          ((hfirst.begins_seq hbegins').mono fun _ => describes_star_of_more),
        fun j hj => (hfirst.seq (hcompletes' j hj)).mono fun _ => describes_star_of_more⟩
  | optSome _ ih =>
      obtain ⟨hbegins, hcompletes⟩ := ih hp
      exact ⟨hbegins.mono fun _ => Or.inr, fun j hj => (hcompletes j hj).mono fun _ => Or.inr⟩
  | optNone _ ih =>
      refine ⟨(ih hp).1.mono fun _ => Or.inr, fun j hj => ?_⟩
      cases hj
      exact completes_nothing (.inl rfl)
  | notAhead | notAheadFail => cases hp

end Viability

section Agreement

variable {chars' : Array Char}

/-- Whether every lookahead of a pattern looks for a line end. -/
def Pattern.looksForLineEnds : Pattern → Bool
  | .notAhead p => p = .call .newline
  | .seq p q | .alt p q => p.looksForLineEnds && q.looksForLineEnds
  | .group p | .star p | .opt p => p.looksForLineEnds
  | _ => true

theorem looksForLineEnds_production (rule : Rule) :
    rule.production.looksForLineEnds = true := by
  cases rule <;> decide

/-- What looks at one character does the same where that character is the same. -/
theorem Matches.congr_leaf {v : Verdict} (h : Matches chars p i v) (hleaf : p.isLeaf = true)
    (hsame : chars'[i]? = chars[i]?) : Matches chars' p i v := by
  have hsize : chars'.size ≤ i ↔ chars.size ≤ i := by
    rw [← Array.getElem?_eq_none_iff, hsame, Array.getElem?_eq_none_iff]
  cases h with
  | char hchar => exact .char (hsame.trans hchar)
  | charFail hchar => exact .charFail (hsame ▸ hchar)
  | range hchar hrange => exact .range (hsame.trans hchar) hrange
  | rangeFail hchar => exact .rangeFail (hsame ▸ hchar)
  | any hchar => exact .any (hsame.trans hchar)
  | anyFail hchar => exact .anyFail (hsame.trans hchar)
  | stop hend => exact .stop (hsize.mpr hend)
  | stopFail hend => exact .stopFail (by omega)
  | act => exact .act
  | _ => cases hleaf

theorem exists_tries_newline (hsame : chars'[i]? = chars[i]?)
    (h : Tries chars (.call .newline) i result r c) :
    ∃ result' r' c', Tries chars' (.call .newline) i result' r' c' ∧
      result'.isSome = result.isSome := by
  cases result with
  | some j =>
      obtain ⟨-, a, hchar, ha⟩ := h.accepts.newline_head
      obtain ⟨j', log, reach, hmatches⟩ := exists_accepts_newline (hsame.trans hchar) ha
      obtain ⟨c', htries⟩ := hmatches.exists_tries
      exact ⟨_, _, c', htries, rfl⟩
  | none =>
      have hfails := fails_newline_iff.mp h.fails
      rw [← hsame] at hfails
      obtain ⟨reach, hmatches⟩ := fails_newline_iff.mpr hfails
      obtain ⟨c', htries⟩ := hmatches.exists_tries
      exact ⟨_, _, c', htries, rfl⟩

/-- An attempt depends only on the characters up to the first one that it did not read. -/
theorem Tries.congr_chars (h : Tries chars p i result r c) (hp : p.looksForLineEnds = true)
    (hsame : ∀ x ≤ r, chars'[x]? = chars[x]?) : ∃ c', Tries chars' p i result r c' := by
  induction h with
  | leaf hleaf haccepts =>
      have hle := haccepts.le
      obtain ⟨log, reach, hmatches⟩ := haccepts
      exact ⟨_, .leaf hleaf ⟨log, reach, hmatches.congr_leaf hleaf (hsame _ hle)⟩⟩
  | leafFail hleaf hfails =>
      obtain ⟨reach, hmatches⟩ := hfails
      exact ⟨_, .leafFail hleaf ⟨reach, hmatches.congr_leaf hleaf (hsame _ (Nat.le_refl _))⟩⟩
  | call _ ih =>
      obtain ⟨c', hbody⟩ := ih (looksForLineEnds_production _) hsame
      exact ⟨_, .call hbody⟩
  | callFail _ ih =>
      obtain ⟨c', hbody⟩ := ih (looksForLineEnds_production _) hsame
      exact ⟨_, .callFail hbody⟩
  | seqFail _ ih =>
      obtain ⟨c', hfirst⟩ := ih ((Bool.and_eq_true _ _).mp hp).1 hsame
      exact ⟨_, .seqFail hfirst⟩
  | seq _ _ ih ih' =>
      obtain ⟨hp, hq⟩ := (Bool.and_eq_true _ _).mp hp
      obtain ⟨c', hfirst⟩ := ih hp fun x hx => hsame x (Nat.le_trans hx (Nat.le_max_left _ _))
      obtain ⟨c'', hsecond⟩ := ih' hq fun x hx => hsame x (Nat.le_trans hx (Nat.le_max_right _ _))
      exact ⟨_, .seq hfirst hsecond⟩
  | group _ ih =>
      obtain ⟨c', hbody⟩ := ih hp hsame
      exact ⟨_, .group hbody⟩
  | altFirst _ ih =>
      obtain ⟨c', hfirst⟩ := ih ((Bool.and_eq_true _ _).mp hp).1 hsame
      exact ⟨_, .altFirst hfirst⟩
  | altSecond _ _ ih ih' =>
      obtain ⟨hp, hq⟩ := (Bool.and_eq_true _ _).mp hp
      obtain ⟨c', hfirst⟩ := ih hp fun x hx => hsame x (Nat.le_trans hx (Nat.le_max_left _ _))
      obtain ⟨c'', hsecond⟩ := ih' hq fun x hx => hsame x (Nat.le_trans hx (Nat.le_max_right _ _))
      exact ⟨_, .altSecond hfirst hsecond⟩
  | starDone _ ih =>
      obtain ⟨c', hbody⟩ := ih hp hsame
      exact ⟨_, .starDone hbody⟩
  | starMore _ hprogress _ ih ih' =>
      obtain ⟨c', hbody⟩ := ih hp fun x hx => hsame x (Nat.le_trans hx (Nat.le_max_left _ _))
      obtain ⟨c'', hrest⟩ := ih' hp fun x hx => hsame x (Nat.le_trans hx (Nat.le_max_right _ _))
      exact ⟨_, .starMore hbody hprogress hrest⟩
  | optSome _ ih =>
      obtain ⟨c', hbody⟩ := ih hp hsame
      exact ⟨_, .optSome hbody⟩
  | optNone _ ih =>
      obtain ⟨c', hbody⟩ := ih hp hsame
      exact ⟨_, .optNone hbody⟩
  | notAhead hbody =>
      -- How far a lookahead looked does not count, but its outcome needs one character only.
      obtain rfl := of_decide_eq_true hp
      obtain ⟨result', r', c', hbody', hnone⟩ := exists_tries_newline (hsame _ (Nat.le_refl _)) hbody
      obtain rfl : result' = none := Option.not_isSome_iff_eq_none.mp (by simp [hnone])
      exact ⟨_, .notAhead hbody'⟩
  | notAheadFail hbody =>
      obtain rfl := of_decide_eq_true hp
      obtain ⟨result', r', c', hbody', hsome⟩ := exists_tries_newline (hsame _ (Nat.le_refl _)) hbody
      obtain ⟨j', rfl⟩ := Option.isSome_iff_exists.mp hsome
      exact ⟨_, .notAheadFail hbody'⟩

end Agreement

section Errors

variable {maxDepth : Nat}

/-- A text is accepted, under a nesting limit that is great enough. -/
def IsAccepted (w : List Char) : Prop :=
  ∃ depth, ∀ maxDepth, depth ≤ maxDepth → ∃ log, tokenize maxDepth w.toArray = .ok log

/-- The first characters of a text can be continued to one that is accepted. -/
def IsViable (chars : Array Char) (count : Nat) : Prop :=
  count ≤ chars.size ∧ ∃ w, IsAccepted (chars.toList.take count ++ w)

theorem Rendering.isAccepted {t : Node} {w : List Char} (h : Rendering t w) : IsAccepted w := by
  obtain ⟨log, hsucceeds, -⟩ := h.builds
  refine ⟨w.length, fun maxDepth hdepth => ⟨log, ?_⟩⟩
  exact tokenize_of_succeeds hsucceeds (by simpa using hdepth)

/-- A text of which the grammar fails to match the first characters is not continued to an
accepted one by leaving these as they are. -/
theorem not_isAccepted_of_fails {w : List Char} (h : Tries chars (.call .program) 0 none r c)
    (hsame : ∀ x ≤ r, w.toArray[x]? = chars[x]?) : ¬ IsAccepted w := by
  rintro ⟨depth, haccepted⟩
  obtain ⟨log, hlog⟩ := haccepted depth (Nat.le_refl depth)
  obtain ⟨stop, hsucceeds⟩ := succeeds_of_tokenize hlog
  obtain ⟨c', hfails⟩ := h.congr_chars rfl hsame
  exact hsucceeds.not_fails hfails.fails

theorem isViable_of_fails (h : Tries chars (.call .program) 0 none r c) : IsViable chars r := by
  obtain ⟨⟨u, w, hspells, t, hrendering⟩, -⟩ := h.viable rfl
  have hdrop := hspells.drop_eq
  have hlength : r = u.length := by simpa using hspells.eq_add_length
  rw [List.drop_zero] at hdrop
  refine ⟨?_, w, ?_⟩
  · rw [← Array.length_toList, hdrop, List.length_append]
    omega
  · rw [hdrop, hlength, List.take_left']
    · exact hrendering.isAccepted
    · rfl

theorem le_of_isViable (h : Tries chars (.call .program) 0 none r c) (hk : IsViable chars k) :
    k ≤ r := by
  obtain ⟨hsize, w, haccepted⟩ := hk
  refine Nat.le_of_not_lt fun hlt => not_isAccepted_of_fails h (fun x hx => ?_) haccepted
  have hx : x < (chars.toList.take k).length := by
    rw [List.length_take, Array.length_toList]
    omega
  rw [List.getElem?_toArray, List.getElem?_append_left hx, List.getElem?_take_of_lt (by omega),
    Array.getElem?_toList]

/-- A syntax error that no limit caused ends where the longest prefix of the text does that can be
continued to an accepted text. -/
theorem tokenize_longest_prefix (maxDepth : Nat) (chars : Array Char) (e : SyntaxError)
    (h : tokenize maxDepth chars = .error e) (hcause : e.cause = .noMatch) :
    IsViable chars e.range.span.stop ∧ ∀ k, IsViable chars k → k ≤ e.range.span.stop := by
  obtain ⟨hopen, hfails⟩ := open_of_noMatch h hcause
  obtain ⟨result, r, c, htries⟩ := exists_tries chars
  cases result with
  | some j => exact absurd hfails htries.accepts.not_fails
  | none =>
      obtain ⟨t, ht, rfl, -⟩ := htries.furthest_of_failed rfl
      have hfurthest := (program_attempt htries [] (List.forall_mem_nil _)).furthest
      have hlog := tokenizeWith_of_open hopen htries
      rw [hfurthest, ht] at hlog
      cases h.symm.trans hlog
      exact ⟨isViable_of_fails htries, fun k hk => le_of_isViable htries hk⟩

/-- In `f(2 +))` the first bracket that closes comes too early. -/
theorem tokenize_longest_prefix_bracket : ∃ e,
    tokenize 8 "f(2 +))".toList.toArray = .error e ∧ e.cause = .noMatch ∧ e.range.span.stop = 5 ∧
      IsViable "f(2 +))".toList.toArray 5 ∧
      ∀ k, IsViable "f(2 +))".toList.toArray k → k ≤ 5 := by
  have hrun : (Matcher.run ⟨"f(2 +))".toList.toArray, 8, true⟩).1 = false ∧
      (Matcher.run ⟨"f(2 +))".toList.toArray, 8, true⟩).2.tooDeep = none ∧
      (Matcher.run ⟨"f(2 +))".toList.toArray, 8, true⟩).2.furthest =
        some ⟨.rule .expression, 5, 5⟩ := by
    decide +kernel
  have herror : tokenize 8 "f(2 +))".toList.toArray =
      .error (.ofToken .noMatch ⟨.rule .expression, 5, 5⟩ "f(2 +))".toList.toArray) := by
    unfold tokenize tokenizeWith
    generalize Matcher.run ⟨"f(2 +))".toList.toArray, 8, true⟩ = result at hrun ⊢
    obtain ⟨ok, s⟩ := result
    obtain ⟨rfl, hopen, hfurthest⟩ := hrun
    dsimp only at hopen hfurthest ⊢
    rw [hopen, hfurthest]
    rfl
  exact ⟨_, herror, rfl, rfl, tokenize_longest_prefix 8 _ _ herror rfl⟩

end Errors

end Sumscript

import Sumscript.Proofs.LineEndForms
import Sumscript.Proofs.Nesting

/-! # The form of line ends changes no attempt

Two texts that differ only in the form of their line ends are attempted in the same way, every
attempt of the one at the counterpart of where the other makes it. So they have the same tree or
fail for the same reason, and a reader finds the failure at the same line and column.
-/

namespace Sumscript

/-- Two texts that differ only in the form of their line ends, with the counterparts of the offsets
of the first one. -/
structure Respells (chars chars' : Array Char) (f : Nat → Nat) : Prop where
  strictMono : StrictMono f
  same : ∀ {i c}, chars[i]? = some c → isLineEnd c = false →
    chars'[f i]? = some c ∧ f (i + 1) = f i + 1
  newline : ∀ {i c}, chars[i]? = some c → isLineEnd c = true →
    Accepts chars (.call .newline) i (i + 1) ∧ Accepts chars' (.call .newline) (f i) (f (i + 1))
  stop : ∀ {i}, chars[i]? = none → chars'[f i]? = none

section Respelled

variable {n w : List Char} {i : Nat}

theorem getElem?_respell (n w : List Char) (i : Nat) :
    (respell n w).toArray[respelledOffset n w i]? = (respell n (w.drop i)).head? := by
  rw [List.getElem?_toArray, ← List.head?_drop, drop_respelledOffset]

/-- What stands in the place of a line feed is read as one line end. -/
theorem accepts_newline_respell (hn : Newline n) (hchar : w[i]? = some '\n') :
    Accepts (respell n w).toArray (.call .newline) (respelledOffset n w i)
      (respelledOffset n w (i + 1)) := by
  have hdrop : (respell n w).drop (respelledOffset n w i) = n ++ respell n (w.drop (i + 1)) := by
    rw [drop_respelledOffset, List.drop_eq_getElem?_toList_append, hchar]
    exact respell_feed
  have hspells : Spells (respell n w).toArray (respelledOffset n w i) n
      (respelledOffset n w (i + 1)) := by
    rw [respelledOffset_feed hchar]
    exact spells_of_drop_eq hdrop
  apply accepts_newline_iff.mpr
  refine ⟨n, hn, hspells, ?_⟩
  -- A return that stands for a line feed has no line feed behind it: there are none left.
  rintro rfl hfeed
  rw [getElem?_respell] at hfeed
  exact not_mem_respell_feed (by decide) (List.mem_of_head? hfeed)

theorem respells_respell (hn : Newline n) (hreturn : '\r' ∉ w) :
    Respells w.toArray (respell n w).toArray (respelledOffset n w) := by
  constructor
  · exact respelledOffset_strictMono hn
  · intro i c hchar hc
    have hfeed : c ≠ '\n' := by
      rintro rfl
      cases hc
    rw [List.getElem?_toArray] at hchar
    refine ⟨?_, respelledOffset_other hchar hfeed⟩
    rw [getElem?_respell, List.drop_eq_getElem?_toList_append, hchar]
    simp [respell_cons hfeed]
  · intro i c hchar hc
    have hmem : c ∈ w := List.mem_of_getElem? (by simpa using hchar)
    obtain rfl : c = '\n' := by
      rcases isLineEnd_iff.mp hc with rfl | rfl
      · rfl
      · exact absurd hmem hreturn
    constructor
    · apply accepts_newline_iff.mpr
      exact ⟨_, .feed, ⟨hchar, rfl⟩, by simp⟩
    · exact accepts_newline_respell hn (by simpa using hchar)
  · intro i hchar
    rw [List.getElem?_toArray, List.getElem?_eq_none_iff] at hchar
    rw [getElem?_respell, List.drop_eq_nil_of_le hchar]
    rfl

end Respelled

section Characters

variable {chars chars' : Array Char} {f : Nat → Nat} {p : Pattern} {g : Char → Bool} {i j : Nat}
  {c : Char} {w : List Char}

/-- What is no line end stands in both texts. -/
theorem Respells.char_of (h : Respells chars chars' f) (hchar : chars'[f i]? = some c)
    (hc : isLineEnd c = false) : chars[i]? = some c := by
  cases hsource : chars[i]? with
  | none =>
      rw [h.stop hsource] at hchar
      cases hchar
  | some a =>
      by_cases ha : isLineEnd a = true
      · obtain ⟨-, a', hchar', ha'⟩ := (h.newline hsource ha).2.newline_head
        cases hchar.symm.trans hchar'
        rw [hc] at ha'
        cases ha'
      · have hsame := (h.same hsource (Bool.eq_false_iff.mpr ha)).1
        exact hsame.symm.trans hchar

theorem Respells.eq_none_iff (h : Respells chars chars' f) :
    chars'[f i]? = none ↔ chars[i]? = none := by
  constructor
  · intro hnone
    cases hsource : chars[i]? with
    | none => rfl
    | some a =>
        by_cases ha : isLineEnd a = true
        · obtain ⟨-, a', hchar', -⟩ := (h.newline hsource ha).2.newline_head
          rw [hnone] at hchar'
          cases hchar'
        · have hsame := (h.same hsource (Bool.eq_false_iff.mpr ha)).1
          rw [hnone] at hsame
          cases hsame
  · exact h.stop

theorem Respells.spells (h : Respells chars chars' f) (hw : ∀ c ∈ w, isLineEnd c = false)
    (hspells : Spells chars i w j) : Spells chars' (f i) w (f j) := by
  induction w generalizing i with
  | nil =>
      cases hspells
      rfl
  | cons c w ih =>
      obtain ⟨hc, hw⟩ := List.forall_mem_cons.mp hw
      obtain ⟨hsame, hnext⟩ := h.same hspells.1 hc
      have hrest := ih hw hspells.2
      rw [hnext] at hrest
      exact .cons hsame hrest

/-- A pattern is read in the same way at an offset and at its counterpart. -/
structure ReadsAlike (chars chars' : Array Char) (f : Nat → Nat) (p : Pattern) (i : Nat) : Prop where
  accepts : ∀ {j}, Accepts chars p i j → Accepts chars' p (f i) (f j)
  fails : Fails chars p i → Fails chars' p (f i)

/-- What takes one character, but no line end, takes it in both texts. -/
theorem Respells.readsOne (h : Respells chars chars' f) (hone : ReadsOne chars p g)
    (hone' : ReadsOne chars' p g) (hg : ∀ c, isLineEnd c = true → g c = false) :
    ReadsAlike chars chars' f p i := by
  constructor
  · intro j haccepts
    obtain ⟨⟨c, hchar, hc⟩, rfl⟩ := (hone.accepts_iff i j).mp haccepts
    have hlineEnd : isLineEnd c = false := by
      by_contra hlineEnd
      rw [hg c (by simpa using hlineEnd)] at hc
      cases hc
    obtain ⟨hsame, hnext⟩ := h.same hchar hlineEnd
    exact (hone'.accepts_iff _ _).mpr ⟨⟨c, hsame, hc⟩, hnext⟩
  · intro hfails
    apply (hone'.fails_iff _).mpr
    intro c hchar
    by_cases hc : isLineEnd c = true
    · exact hg c hc
    · exact (hone.fails_iff i).mp hfails c (h.char_of hchar (Bool.eq_false_iff.mpr hc))

theorem Respells.readsAlike_stop (h : Respells chars chars' f) :
    ReadsAlike chars chars' f .stop i := by
  have hend : chars'.size ≤ f i ↔ chars.size ≤ i := by
    simpa using h.eq_none_iff (i := i)
  constructor
  · intro j haccepts
    obtain ⟨hi, rfl⟩ := accepts_stop_iff.mp haccepts
    exact accepts_stop_iff.mpr ⟨hend.mpr hi, rfl⟩
  · rintro ⟨reach, hmatches⟩
    cases hmatches with
    | stopFail hi => exact ⟨_, .stopFail (by omega)⟩

theorem Respells.readsAlike_newline (h : Respells chars chars' f) :
    ReadsAlike chars chars' f (.call .newline) i := by
  constructor
  · intro j haccepts
    obtain ⟨-, c, hchar, hc⟩ := haccepts.newline_head
    obtain ⟨hshort, hrespelled⟩ := h.newline hchar hc
    obtain rfl := haccepts.unique hshort
    exact hrespelled
  · intro hfails
    rw [fails_newline_iff] at hfails ⊢
    intro c hchar
    by_contra hc
    cases hsource : chars[i]? with
    | none =>
        rw [h.stop hsource] at hchar
        cases hchar
    | some a =>
        have hsame := (h.same hsource (hfails a hsource)).1
        cases hchar.symm.trans hsame
        exact hc (hfails c hsource)

theorem Respells.readsAlike_comment (h : Respells chars chars' f) :
    ReadsAlike chars chars' f (.call .comment) i := by
  constructor
  · intro j haccepts
    obtain ⟨body, k, hbody, hspells, hend⟩ := accepts_comment_iff.mp haccepts
    have hspells' := h.spells (List.forall_mem_cons.mpr ⟨rfl, hbody⟩) hspells
    apply accepts_comment_iff.mpr
    refine ⟨body, f k, hbody, hspells', hend.imp h.readsAlike_newline.accepts ?_⟩
    rintro ⟨hnone, rfl⟩
    exact ⟨h.stop hnone, rfl⟩
  · intro hfails
    rw [fails_comment_iff] at hfails ⊢
    exact fun hchar => hfails (h.char_of hchar rfl)

end Characters

/-! ## Moving attempts -/

/-- A token at the counterparts of its offsets. -/
def Token.relocate (f : Nat → Nat) (t : Token) : Token :=
  ⟨t.label, f t.start, f t.stop⟩

def Opening.relocate (f : Nat → Nat) (o : Opening) : Opening :=
  ⟨f o.offset, o.others⟩

/-- Two courses fail and count alike, the one at the counterparts of the offsets of the other. -/
structure Course.Relocated (f : Nat → Nat) (c c' : Course) : Prop where
  failures : c'.failures = c.failures.map (Token.relocate f)
  openings : ∀ others, c'.openings others = (c.openings others).map (Opening.relocate f)

namespace Course

variable {f : Nat → Nat} {c c' d d' : Course} {rule : Rule} {start : Nat} {failure : Option Nat}

theorem Quiet.relocated (h : c.Quiet) (h' : c'.Quiet) : c.Relocated f c' := by
  constructor
  · simp [h.failures, h'.failures]
  · simp [h.openings, h'.openings]

theorem Relocated.next (h : c.Relocated f c') (h' : d.Relocated f d') :
    (Course.next c d).Relocated f (.next c' d') := by
  constructor
  · simp [Course.failures, h.failures, h'.failures]
  · simp [Course.openings, h.openings, h'.openings]

theorem Relocated.attempt (h : c.Relocated f c') :
    (Course.attempt rule start failure c).Relocated f
      (.attempt rule (f start) (failure.map f) c') := by
  constructor
  · rw [Course.failures, Course.failures, List.map_append, h.failures]
    cases failure with
    | none => rfl
    | some reach =>
        cases hrule : rule.isLexical <;> simp [Course.reported, hrule, Token.relocate]
  · intro others
    cases hrule : rule.isCounted <;>
      simp [Course.openings, hrule, h.openings, Opening.relocate]

end Course

section Furthest

variable {f : Nat → Nat}

theorem Token.relocate_overtakes (hf : StrictMono f) (t u : Token) :
    (t.relocate f).overtakes (u.relocate f) = t.overtakes u := by
  rw [Bool.eq_iff_iff, overtakes_iff, overtakes_iff]
  simp [relocate, hf.lt_iff_lt, hf.le_iff_le, hf.injective.eq_iff]

theorem Token.orFurther_relocate (hf : StrictMono f) (best : Option Token) (t : Token) :
    orFurther (best.map (relocate f)) (t.relocate f) = (orFurther best t).map (relocate f) := by
  cases best with
  | none => rfl
  | some u =>
      simp only [Option.map_some, orFurther, relocate_overtakes hf]
      split <;> rfl

theorem Token.foldl_relocate (hf : StrictMono f) (l : List Token) (best : Option Token) :
    (l.map (relocate f)).foldl orFurther (best.map (relocate f)) =
      (l.foldl orFurther best).map (relocate f) := by
  induction l generalizing best with
  | nil => rfl
  | cons t l ih => rw [List.map_cons, List.foldl_cons, List.foldl_cons, orFurther_relocate hf, ih]

theorem Course.Relocated.furthest {c c' : Course} (hf : StrictMono f) (h : c.Relocated f c') :
    c'.furthest = c.furthest.map (Token.relocate f) := by
  unfold Course.furthest
  rw [h.failures]
  exact Token.foldl_relocate hf c.failures none

theorem Course.Relocated.pastLimit {c c' : Course} (h : c.Relocated f c') (limit others : Nat) :
    c'.pastLimit limit others = (c.pastLimit limit others).map (Opening.relocate f) := by
  unfold Course.pastLimit
  rw [h.openings, List.find?_map]
  rfl

end Furthest

/-! ## Attempts of patterns -/

/-- Whether a pattern leaves it to other rules to read line ends. -/
def Pattern.avoidsLineEnds : Pattern → Bool
  | .char c => !isLineEnd c
  | .range low high => !(low ≤ '\n' && '\n' ≤ high) && !(low ≤ '\r' && '\r' ≤ high)
  | .any | .notAhead _ => false
  | .stop | .act _ | .call _ => true
  | .seq p q | .alt p q => p.avoidsLineEnds && q.avoidsLineEnds
  | .group p | .star p | .opt p => p.avoidsLineEnds

theorem Rule.avoidsLineEnds_production (rule : Rule) (hnewline : rule ≠ .newline)
    (hcomment : rule ≠ .comment) : rule.production.avoidsLineEnds = true := by
  revert hnewline hcomment
  cases rule <;> decide

section Patterns

variable {chars chars' : Array Char} {f : Nat → Nat} {p : Pattern} {rule : Rule} {i r : Nat}
  {result : Option Nat} {c : Course}

theorem Respells.readsAlike_leaf (h : Respells chars chars' f) (hleaf : p.isLeaf = true)
    (hp : p.avoidsLineEnds = true) : ReadsAlike chars chars' f p i := by
  cases p with
  | char a =>
      apply h.readsOne (readsOne_char a) (readsOne_char a)
      intro c hc
      rw [beq_eq_false_iff_ne]
      rintro rfl
      rw [Pattern.avoidsLineEnds, hc] at hp
      cases hp
  | range low high =>
      apply h.readsOne (readsOne_range low high) (readsOne_range low high)
      intro c hc
      simp only [Pattern.avoidsLineEnds, Bool.and_eq_true, Bool.not_eq_true'] at hp
      rcases isLineEnd_iff.mp hc with rfl | rfl
      · exact hp.1
      · exact hp.2
  | stop => exact h.readsAlike_stop
  | act action =>
      constructor
      · intro j haccepts
        obtain rfl := accepts_act_iff.mp haccepts
        exact accepts_act_iff.mpr rfl
      · rintro ⟨reach, hmatches⟩
        cases hmatches
  | any => cases hp
  | _ => cases hleaf

/-- What commits itself is attempted as it is read. -/
theorem ReadsAlike.tries (h : ReadsAlike chars chars' f p i) (hp : p.commits = true)
    (htries : Tries chars p i result r c) :
    ∃ c', Tries chars' p (f i) (result.map f) (f r) c' := by
  have hexists : ∃ r' c', Tries chars' p (f i) (result.map f) r' c' := by
    cases result with
    | some j => exact (h.accepts htries.accepts).exists_tries
    | none => exact (h.fails htries.fails).exists_tries
  obtain ⟨r', c', htries'⟩ := hexists
  have hr' : r' = f r := by
    rw [htries.commits hp, htries'.commits hp]
    cases result <;> rfl
  rw [hr'] at htries'
  exact ⟨c', htries'⟩

/-- Line ends and comments report nothing, however long they are. -/
theorem Respells.tries_lineEnd (h : Respells chars chars' f) (hrule : rule = .newline ∨ rule = .comment)
    (htries : Tries chars (.call rule) i result r c) :
    ∃ c', Tries chars' (.call rule) (f i) (result.map f) (f r) c' ∧ c.Relocated f c' := by
  have hquiet : (Pattern.call rule).callsOnly Rule.isQuiet = true := by
    rcases hrule with rfl | rfl <;> rfl
  have hcommits : (Pattern.call rule).commits = true := by
    rcases hrule with rfl | rfl <;> rfl
  have halike : ReadsAlike chars chars' f (.call rule) i := by
    rcases hrule with rfl | rfl
    · exact h.readsAlike_newline
    · exact h.readsAlike_comment
  obtain ⟨c', htries'⟩ := halike.tries hcommits htries
  exact ⟨c', htries', (htries.quiet hquiet).relocated (htries'.quiet hquiet)⟩

/-- Every attempt is made in the same way at the counterpart of its offset. -/
theorem Respells.tries (h : Respells chars chars' f) (htries : Tries chars p i result r c)
    (hp : p.avoidsLineEnds = true) :
    ∃ c', Tries chars' p (f i) (result.map f) (f r) c' ∧ c.Relocated f c' := by
  have hmax : ∀ a b, f (max a b) = max (f a) (f b) := fun a b => h.strictMono.monotone.map_max
  have hnothing : Course.nothing.Relocated f .nothing := Course.Quiet.nothing.relocated .nothing
  induction htries with
  | leaf hleaf haccepts =>
      exact ⟨_, .leaf hleaf ((h.readsAlike_leaf hleaf hp).accepts haccepts), hnothing⟩
  | leafFail hleaf hfails =>
      exact ⟨_, .leafFail hleaf ((h.readsAlike_leaf hleaf hp).fails hfails), hnothing⟩
  | @call rule i j r c hbody ih =>
      by_cases hrule : rule = .newline ∨ rule = .comment
      · exact h.tries_lineEnd hrule (.call hbody)
      · rw [not_or] at hrule
        obtain ⟨c', hbody', hc⟩ := ih (rule.avoidsLineEnds_production hrule.1 hrule.2)
        exact ⟨_, .call hbody', hc.attempt⟩
  | @callFail rule i r c hbody ih =>
      by_cases hrule : rule = .newline ∨ rule = .comment
      · exact h.tries_lineEnd hrule (.callFail hbody)
      · rw [not_or] at hrule
        obtain ⟨c', hbody', hc⟩ := ih (rule.avoidsLineEnds_production hrule.1 hrule.2)
        exact ⟨_, .callFail hbody', hc.attempt⟩
  | seqFail _ ih =>
      obtain ⟨hp, -⟩ := (Bool.and_eq_true _ _).mp hp
      obtain ⟨c', hfirst, hc⟩ := ih hp
      exact ⟨c', .seqFail hfirst, hc⟩
  | seq _ _ ih ih' =>
      obtain ⟨hp, hq⟩ := (Bool.and_eq_true _ _).mp hp
      obtain ⟨c₁, hfirst, hc⟩ := ih hp
      obtain ⟨c₂, hsecond, hc'⟩ := ih' hq
      rw [hmax]
      exact ⟨_, .seq hfirst hsecond, hc.next hc'⟩
  | group _ ih =>
      obtain ⟨c', hbody, hc⟩ := ih hp
      exact ⟨c', .group hbody, hc⟩
  | altFirst _ ih =>
      obtain ⟨hp, -⟩ := (Bool.and_eq_true _ _).mp hp
      obtain ⟨c', hfirst, hc⟩ := ih hp
      exact ⟨c', .altFirst hfirst, hc⟩
  | altSecond _ _ ih ih' =>
      obtain ⟨hp, hq⟩ := (Bool.and_eq_true _ _).mp hp
      obtain ⟨c₁, hfirst, hc⟩ := ih hp
      obtain ⟨c₂, hsecond, hc'⟩ := ih' hq
      rw [hmax]
      exact ⟨_, .altSecond hfirst hsecond, hc.next hc'⟩
  | starDone _ ih =>
      obtain ⟨c', hbody, hc⟩ := ih hp
      exact ⟨c', .starDone hbody, hc⟩
  | starMore _ hprogress _ ih ih' =>
      obtain ⟨c₁, hbody, hc⟩ := ih hp
      obtain ⟨c₂, hrest, hc'⟩ := ih' hp
      rw [hmax]
      exact ⟨_, .starMore hbody (h.strictMono hprogress) hrest, hc.next hc'⟩
  | optSome _ ih =>
      obtain ⟨c', hbody, hc⟩ := ih hp
      exact ⟨c', .optSome hbody, hc⟩
  | optNone _ ih =>
      obtain ⟨c', hbody, hc⟩ := ih hp
      exact ⟨c', .optNone hbody, hc⟩
  | notAhead | notAheadFail => cases hp

end Patterns

/-! ## Outcomes -/

/-- Two outcomes of parsing tell a person the same: the same tree, or a failure of the same
cause and the same phrase at the same lines and columns. -/
inductive SameReport : Except ParseError Node → Except ParseError Node → Prop where
  | tree (t : Node) : SameReport (.ok t) (.ok t)
  | failure {e e' : SyntaxError} (cause : e.cause = e'.cause) (label : e.label = e'.label)
      (start : e.range.start = e'.range.start) (stop : e.range.stop = e'.range.stop) :
      SameReport (.error (.syntaxError e)) (.error (.syntaxError e'))

section Outcomes

variable {n w : List Char}

/-- The same failure is told at the counterparts of its offsets. -/
theorem SameReport.relocate (hn : Newline n) (hreturn : '\r' ∉ w) (cause : SyntaxCause)
    (t : Token) :
    SameReport (.error (.syntaxError (.ofToken cause t w.toArray)))
      (.error (.syntaxError
        (.ofToken cause (t.relocate (respelledOffset n w)) (respell n w).toArray))) := by
  apply SameReport.failure
  · rfl
  · rfl
  · exact (position_respell hn hreturn t.start).symm
  · exact (position_respell hn hreturn t.stop).symm

/-- The form of line ends makes no difference. A text with line feeds, and the same text with
another form of line end in the place of every line feed, have the same tree, or they fail for
the same reason at the same phrase, lines and columns. -/
theorem parse_respell (maxDepth : Nat) (hn : Newline n) (hreturn : '\r' ∉ w) :
    SameReport (parse maxDepth w.toArray) (parse maxDepth (respell n w).toArray) := by
  have hrespells := respells_respell hn hreturn
  obtain ⟨result, r, c, htries⟩ := exists_tries w.toArray
  obtain ⟨c', htries', hc⟩ := hrespells.tries htries rfl
  rw [respelledOffset_zero] at htries'
  have htokenize := tokenize_eq_of_tries htries maxDepth
  have htokenize' := tokenize_eq_of_tries htries' maxDepth
  rw [hc.pastLimit] at htokenize'
  cases hpath : c.pastLimit maxDepth 0 with
  | some first =>
      rw [hpath, Option.elim_some] at htokenize
      rw [hpath, Option.map_some, Option.elim_some] at htokenize'
      rw [parse_of_error htokenize, parse_of_error htokenize']
      exact .relocate hn hreturn _ ⟨.rule .expression, first.offset, first.offset⟩
  | none =>
      rw [hpath, Option.elim_none] at htokenize
      rw [hpath, Option.map_none, Option.elim_none] at htokenize'
      rw [parse_congr_tokenize htokenize, parse_congr_tokenize htokenize']
      cases result with
      | some j =>
          obtain ⟨t, hbuilds, hrendering⟩ := programFound htries.accepts
          have hrespelled : Rendering t (respell n w) := hrendering.respell hn hreturn
          have htree : parse w.toArray.size w.toArray = .ok t :=
            parse_of_builds hbuilds (Nat.le_refl _)
          have htree' : parse (respell n w).toArray.size (respell n w).toArray = .ok t :=
            hrespelled.parse_eq (Nat.le_refl _)
          rw [htree, htree']
          exact .tree t
      | none =>
          rw [parse_of_error (tokenize_of_fails htries), parse_of_error (tokenize_of_fails htries'),
            hc.furthest hrespells.strictMono]
          cases c.furthest with
          | none =>
              have hanchor : Token.noAttempt.relocate (respelledOffset n w) = .noAttempt := by
                simp [Token.relocate, Token.noAttempt, respelledOffset_zero]
              have hreport := SameReport.relocate hn hreturn .noMatch .noAttempt
              rw [hanchor] at hreport
              exact hreport
          | some t => exact .relocate hn hreturn _ t

/-- The parenthesis on the second line is left open, whatever ends the lines. -/
theorem parse_respell_openParenthesis :
    Newline ['\r', '\n'] ∧ '\r' ∉ "a=1\nb=(\n".toList ∧
    respell ['\r', '\n'] "a=1\nb=(\n".toList = "a=1\r\nb=(\r\n".toList ∧
    (parse 8 "a=1\nb=(\n".toList.toArray).toOption = none ∧
    SameReport (parse 8 "a=1\nb=(\n".toList.toArray)
      (parse 8 (respell ['\r', '\n'] "a=1\nb=(\n".toList).toArray) := by
  have hreturn : '\r' ∉ "a=1\nb=(\n".toList := by decide
  refine ⟨.returnFeed, hreturn, by decide, by decide +kernel, ?_⟩
  exact parse_respell 8 .returnFeed hreturn

end Outcomes

end Sumscript

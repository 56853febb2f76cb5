import Sumscript.Proofs.LexicalRules

/-! # What the rule for separators reads

The rule reads marks with blanks before them as often as it can and then layout. A text between
two statements is read to its end, and so is a text behind the last statement, although the
marks that are read need not be those of its written form.
-/

namespace Sumscript

/-- A semicolon, a line end or a comment. -/
def Pattern.mark : Pattern :=
  .alt (.char ';') (.alt (.call .newline) (.call .comment))

/-- A mark with blanks before it. -/
def Pattern.separatorRound : Pattern :=
  .seq (.call .simpleSpaces) .mark

/-- Rounds of marks, as many as there are, lead up to blanks before an offset. -/
def RunsOut (chars : Array Char) (i j : Nat) : Prop :=
  ∃ k b, Accepts chars (.star .separatorRound) i k ∧ Blanks b ∧ Spells chars k b j

variable {chars : Array Char} {i j k : Nat}

theorem accepts_mark_iff : Accepts chars .mark i j ↔
    (chars[i]? = some ';' ∧ j = i + 1) ∨ Accepts chars (.call .newline) i j ∨
      Accepts chars (.call .comment) i j := by
  unfold Pattern.mark
  rw [accepts_alt_iff, accepts_alt_iff, accepts_char_iff, fails_char_iff, fails_newline_iff]
  refine or_congr_right ⟨fun h => h.2.imp_right And.right, ?_⟩
  rintro (hnewline | hcomment)
  · obtain ⟨-, c, hchar, hc⟩ := hnewline.newline_head
    refine ⟨fun hchar' => ?_, .inl hnewline⟩
    cases hchar.symm.trans hchar'
    cases hc
  · obtain ⟨body, k, -, ⟨hsign, -⟩, -⟩ := accepts_comment_iff.mp hcomment
    refine ⟨fun hchar => ?_, .inr ⟨fun c hchar => ?_, hcomment⟩⟩
    · cases hsign.symm.trans hchar
    · cases hsign.symm.trans hchar
      rfl

theorem Accepts.mark_head (h : Accepts chars .mark i j) :
    i < j ∧ ∃ c, chars[i]? = some c ∧ isBlankOrTab c = false := by
  rcases accepts_mark_iff.mp h with ⟨hchar, rfl⟩ | hnewline | hcomment
  · exact ⟨Nat.lt_succ_self i, _, hchar, rfl⟩
  · obtain ⟨hlt, c, hchar, hc⟩ := hnewline.newline_head
    refine ⟨hlt, c, hchar, ?_⟩
    rcases isLineEnd_iff.mp hc with rfl | rfl <;> rfl
  · obtain ⟨log, hsucceeds⟩ := hcomment
    obtain ⟨body, k, -, ⟨hsign, -⟩, -⟩ := accepts_comment_iff.mp hsucceeds.accepts
    exact ⟨hsucceeds.lt rfl, _, hsign, rfl⟩

theorem accepts_separatorRound_iff : Accepts chars .separatorRound i j ↔
    ∃ k w, Blanks w ∧ Spells chars i w k ∧ Accepts chars .mark k j := by
  unfold Pattern.separatorRound
  simp only [accepts_seq_iff, accepts_simpleSpaces_iff]
  constructor
  · rintro ⟨k, ⟨w, hw, hspells, -⟩, hmark⟩
    exact ⟨k, w, hw, hspells, hmark⟩
  · rintro ⟨k, w, hw, hspells, hmark⟩
    obtain ⟨-, c, hchar, hc⟩ := hmark.mark_head
    refine ⟨k, ⟨w, hw, hspells, fun c' hchar' => ?_⟩, hmark⟩
    cases hchar.symm.trans hchar'
    exact hc

theorem fails_separatorRound_iff : Fails chars .separatorRound i ↔
    ∃ k w, Blanks w ∧ Spells chars i w k ∧ (∀ c, chars[k]? = some c → isBlankOrTab c = false) ∧
      Fails chars .mark k := by
  unfold Pattern.separatorRound
  rw [fails_seq_iff]
  constructor
  · rintro (hfails | ⟨k, log, hblanks, hmark⟩)
    · exact absurd (fails_call_iff.mp hfails) not_fails_star
    · obtain ⟨w, hw, hspells, hnext⟩ := accepts_simpleSpaces_iff.mp hblanks.accepts
      exact ⟨k, w, hw, hspells, hnext, hmark⟩
  · rintro ⟨k, w, hw, hspells, hnext, hmark⟩
    obtain ⟨log, hblanks⟩ := accepts_simpleSpaces_iff.mpr ⟨w, hw, hspells, hnext⟩
    exact .inr ⟨k, log, hblanks, hmark⟩

/-- Whether a character can go on with what stands between statements. -/
def startsSeparator (c : Char) : Bool :=
  startsLayout c || c == ';'

theorem fails_separatorRound (hnext : ∀ c, chars[i]? = some c → startsSeparator c = false) :
    Fails chars .separatorRound i := by
  have hparts : ∀ {c}, chars[i]? = some c →
      ((isBlankOrTab c = false ∧ isLineEnd c = false) ∧ c ≠ '#') ∧ c ≠ ';' := by
    intro c hchar
    simpa [startsSeparator, startsLayout] using hnext c hchar
  refine fails_separatorRound_iff.mpr
    ⟨i, [], .nil, rfl, fun c hchar => (hparts hchar).1.1.1, ?_⟩
  refine fails_alt_iff.mpr ⟨fails_char_iff.mpr fun hchar => ?_, fails_alt_iff.mpr ⟨?_, ?_⟩⟩
  · exact (hparts hchar).2 rfl
  · exact fails_newline_iff.mpr fun c hchar => (hparts hchar).1.1.2
  · exact fails_comment_iff.mpr fun hchar => (hparts hchar).1.2 rfl

theorem Accepts.round_lt (h : Accepts chars .separatorRound i j) : i < j := by
  obtain ⟨k, w, -, hspells, hmark⟩ := accepts_separatorRound_iff.mp h
  have := hspells.eq_add_length
  have := hmark.mark_head.1
  omega

namespace RunsOut

theorem done (hfails : Fails chars .separatorRound i) : RunsOut chars i i :=
  ⟨i, [], accepts_star_iff.mpr (.inl ⟨hfails, rfl⟩), .nil, rfl⟩

theorem round (hround : Accepts chars .separatorRound i k) (h : RunsOut chars k j) :
    RunsOut chars i j := by
  obtain ⟨m, b, hstar, hb, hspells⟩ := h
  exact ⟨m, b, accepts_star_iff.mpr (.inr ⟨k, hround, hround.round_lt, hstar⟩), hb, hspells⟩

theorem blank {c : Char} (hchar : chars[i]? = some c) (hc : isBlankOrTab c = true)
    (h : RunsOut chars (i + 1) j) : RunsOut chars i j := by
  obtain ⟨m, b, hstar, hb, hspells⟩ := h
  rcases accepts_star_iff.mp hstar with ⟨hfails, rfl⟩ | ⟨k, hround, -, hstar⟩
  · -- No round begins behind the blank, so none begins at it, and the blank is left over.
    obtain ⟨k, w, hw, hspells', hnext, hmark⟩ := fails_separatorRound_iff.mp hfails
    have hfails' := fails_separatorRound_iff.mpr
      ⟨k, c :: w, List.forall_mem_cons.mpr ⟨hc, hw⟩, ⟨hchar, hspells'⟩, hnext, hmark⟩
    exact ⟨i, c :: b, accepts_star_iff.mpr (.inl ⟨hfails', rfl⟩),
      List.forall_mem_cons.mpr ⟨hc, hb⟩, hchar, hspells⟩
  · obtain ⟨k', w, hw, hspells', hmark⟩ := accepts_separatorRound_iff.mp hround
    have hround' : Accepts chars .separatorRound i k := accepts_separatorRound_iff.mpr
      ⟨k', c :: w, List.forall_mem_cons.mpr ⟨hc, hw⟩, ⟨hchar, hspells'⟩, hmark⟩
    exact .round hround' ⟨m, b, hstar, hb, hspells⟩

/-- A mark with blanks before it begins a round, which may take more than the mark. -/
theorem mark {a m : List Char} {l : Nat} (ha : Blanks a) (hspells : Spells chars i a l)
    (hm : Mark m) (hspells' : Spells chars l m k) (h : RunsOut chars k j) :
    ∃ k', Accepts chars .separatorRound i k' ∧ RunsOut chars k' j := by
  obtain ⟨e, b, hstar, hb, hspells''⟩ := h
  have htakes : ∀ {k k'}, Accepts chars (.call .newline) k k' →
      Accepts chars .separatorRound k k' := fun h =>
    accepts_separatorRound_iff.mpr ⟨_, [], .nil, rfl, accepts_mark_iff.mpr (.inr (.inl h))⟩
  -- A return takes a line feed behind it along, which then is missing from the next round.
  have hfound : ∃ k', Accepts chars .mark l k' ∧
      Accepts chars (.star .separatorRound) k' e := by
    cases hm with
    | semicolon =>
        obtain ⟨hchar, rfl⟩ := hspells'
        exact ⟨_, accepts_mark_iff.mpr (.inl ⟨hchar, rfl⟩), hstar⟩
    | newline hn =>
        obtain ⟨k', hnewline, hstar'⟩ := hstar.star_behind_newline htakes hn hspells'
        exact ⟨k', accepts_mark_iff.mpr (.inr (.inl hnewline)), hstar'⟩
    | comment hbody hn =>
        obtain ⟨k', hcomment, hstar'⟩ := hstar.star_behind_comment htakes hbody hn hspells'
        exact ⟨k', accepts_mark_iff.mpr (.inr (.inr hcomment)), hstar'⟩
  obtain ⟨k', hmark, hstar'⟩ := hfound
  exact ⟨k', accepts_separatorRound_iff.mpr ⟨l, a, ha, hspells, hmark⟩, e, b, hstar', hb,
    hspells''⟩

theorem layout {atEnd : Bool} {w : List Char} (hw : Layout atEnd w) (hspells : Spells chars i w k)
    (hend : atEnd = true → chars[k]? = none) (h : RunsOut chars k j) : RunsOut chars i j := by
  induction hw generalizing i with
  | nil =>
      cases hspells
      exact h
  | blank hc _ ih => exact .blank hspells.1 hc (ih hspells.2)
  | newline hn _ ih =>
      obtain ⟨m, hspells, hrest⟩ := spells_append_iff.mp hspells
      obtain ⟨k', hround, hrest⟩ := RunsOut.mark .nil rfl (.newline hn) hspells (ih hrest)
      exact .round hround hrest
  | @comment body n w hbody hn _ ih =>
      obtain ⟨m, hspells, hrest⟩ : ∃ m, Spells chars i ('#' :: (body ++ n)) m ∧
          Spells chars m w k := by
        rw [← spells_append_iff, List.cons_append, List.append_assoc]
        exact hspells
      obtain ⟨k', hround, hrest⟩ := RunsOut.mark .nil rfl (.comment hbody hn) hspells (ih hrest)
      exact .round hround hrest
  | @lastComment body hatEnd hbody =>
      have hcomment : Accepts chars (.call .comment) i k :=
        accepts_comment_iff.mpr ⟨body, k, hbody, hspells, .inr ⟨hend hatEnd, rfl⟩⟩
      have hmark := accepts_mark_iff.mpr (.inr (.inr hcomment))
      exact .round (accepts_separatorRound_iff.mpr ⟨i, [], .nil, rfl, hmark⟩) h

theorem separator {w : List Char} (hw : Separator w) (hspells : Spells chars i w k)
    (h : RunsOut chars k j) :
    ∃ k', Accepts chars .separatorRound i k' ∧ RunsOut chars k' j := by
  induction hw generalizing i with
  | last ha hm hb =>
      obtain ⟨l, hspells, hrest⟩ := spells_append_iff.mp hspells
      obtain ⟨m, hspells', hrest⟩ := spells_append_iff.mp hrest
      exact RunsOut.mark ha hspells hm hspells' (.layout hb hrest (fun h => nomatch h) h)
  | more ha hm _ ih =>
      obtain ⟨l, hspells, hrest⟩ := spells_append_iff.mp hspells
      obtain ⟨m, hspells', hrest⟩ := spells_append_iff.mp hrest
      obtain ⟨k', hround, hout⟩ := ih hrest
      exact RunsOut.mark ha hspells hm hspells' (.round hround hout)

end RunsOut

theorem Blanks.layout {atEnd : Bool} {w : List Char} (h : Blanks w) : Layout atEnd w := by
  induction w with
  | nil => exact .nil
  | cons c w ih =>
      obtain ⟨hc, hw⟩ := List.forall_mem_cons.mp h
      exact .blank hc (ih hw)

theorem accepts_statementSep_of_round (hround : Accepts chars .separatorRound i k)
    (h : RunsOut chars k j) (hnext : ∀ c, chars[j]? = some c → startsLayout c = false) :
    Accepts chars (.call .statementSep) i j := by
  obtain ⟨m, b, hstar, hb, hspells⟩ := h
  have hlayout : Layout false b := hb.layout
  have hspaces := accepts_spaces hlayout hspells (fun h => nomatch h) hnext
  exact accepts_call_iff.mpr (accepts_seq_iff.mpr
    ⟨m, accepts_seq_iff.mpr ⟨k, accepts_group_iff.mpr hround, hstar⟩, hspaces⟩)

/-- A separator is read up to the statement behind it. -/
theorem accepts_statementSep {w : List Char} (hw : Separator w) (hspells : Spells chars i w j)
    (hnext : ∀ c, chars[j]? = some c → startsSeparator c = false) :
    Accepts chars (.call .statementSep) i j := by
  obtain ⟨k, hround, hout⟩ := RunsOut.separator hw hspells (.done (fails_separatorRound hnext))
  exact accepts_statementSep_of_round hround hout fun c hchar =>
    ((Bool.or_eq_false_iff).mp (hnext c hchar)).1

/-- What stands behind the last statement is read up to the end of the text, be it as layout
only or with marks. -/
theorem accepts_programEnd {w : List Char} (hw : ProgramEnd w) (hspells : Spells chars i w j)
    (hend : chars[j]? = none) :
    Fails chars (.call .statementSep) i ∧ Accepts chars (.call .spaces) i j ∨
      Accepts chars (.call .statementSep) i j := by
  have hstop : ∀ {f : Char → Bool} c, chars[j]? = some c → f c = false := by
    intro f c hchar
    rw [hend] at hchar
    cases hchar
  have hdone : RunsOut chars j j := .done (fails_separatorRound hstop)
  have hout : RunsOut chars i j := by
    cases hw with
    | layout hlayout => exact .layout hlayout hspells (fun _ => hend) hdone
    | separator hseparator hlayout =>
        obtain ⟨k, hspells, hrest⟩ := spells_append_iff.mp hspells
        obtain ⟨k', hround, hout⟩ := RunsOut.separator hseparator hspells
          (.layout hlayout hrest (fun _ => hend) hdone)
        exact .round hround hout
  obtain ⟨k, b, hstar, hb, hrest⟩ := hout
  -- Line ends and comments are marks as well, so layout with any of them is read as rounds.
  rcases accepts_star_iff.mp hstar with ⟨hfails, rfl⟩ | ⟨k', hround, -, hstar⟩
  · refine .inl ⟨?_, ?_⟩
    · have hgroup : Fails chars (.group .separatorRound) _ := fails_group_iff.mpr hfails
      exact fails_call_iff.mpr (fails_seq_iff.mpr (.inl (fails_seq_iff.mpr (.inl hgroup))))
    · have hlayout : Layout true b := hb.layout
      exact accepts_spaces hlayout hrest (fun _ => hend) hstop
  · exact .inr (accepts_statementSep_of_round hround ⟨k, b, hstar, hb, hrest⟩ hstop)

theorem Layout.append_blanks {atEnd : Bool} {a w : List Char} (h : Layout atEnd w)
    (ha : Blanks a) : Layout atEnd (a ++ w) := by
  induction a with
  | nil => exact h
  | cons c a ih =>
      obtain ⟨hc, ha⟩ := List.forall_mem_cons.mp ha
      exact .blank hc (ih ha)

/-- A text that separates statements or, at the end of the program, ends it. -/
inductive Separation : Bool → List Char → Prop where
  | between {w} (hseparator : Separator w) : Separation false w
  | behind {w} (hend : ProgramEnd w) : Separation true w

theorem Separation.more {atEnd : Bool} {a m w : List Char} (ha : Blanks a) (hm : Mark m)
    (h : Separation atEnd w) : Separation atEnd (a ++ (m ++ w)) := by
  cases h with
  | between hseparator => exact .between (.more ha hm hseparator)
  | behind hend =>
      refine .behind ?_
      cases hend with
      | layout hlayout =>
          have hfirst := Separator.last ha hm .nil
          rw [List.append_nil] at hfirst
          rw [← List.append_assoc]
          exact .separator hfirst hlayout
      | separator hseparator hlayout =>
          rw [← List.append_assoc, ← List.append_assoc, List.append_assoc a]
          exact .separator (.more ha hm hseparator) hlayout

theorem Separation.last {atEnd : Bool} {a m w : List Char} (ha : Blanks a) (hm : Mark m)
    (h : Layout atEnd w) : Separation atEnd (a ++ (m ++ w)) := by
  cases atEnd with
  | false => exact .between (.last ha hm h)
  | true => exact .more ha hm (.behind (.layout h))

theorem Accepts.mark_cases (h : Accepts chars .mark i j) :
    (∃ m, Mark m ∧ Spells chars i m j) ∨
      ∃ body, CommentBody body ∧ Spells chars i ('#' :: body) j ∧ chars[j]? = none := by
  rcases accepts_mark_iff.mp h with ⟨hchar, rfl⟩ | hnewline | hcomment
  · exact .inl ⟨_, .semicolon, hchar, rfl⟩
  · obtain ⟨n, hn, hspells, -⟩ := accepts_newline_iff.mp hnewline
    exact .inl ⟨n, .newline hn, hspells⟩
  · obtain ⟨body, k, hbody, hspells, hend⟩ := accepts_comment_iff.mp hcomment
    rcases hend with hnewline | ⟨hnone, rfl⟩
    · obtain ⟨n, hn, hspells', -⟩ := accepts_newline_iff.mp hnewline
      exact .inl ⟨_, .comment hbody hn, hspells.append hspells'⟩
    · exact .inr ⟨body, hbody, hspells, hnone⟩

theorem Accepts.round_head (h : Accepts chars .separatorRound i j) : chars[i]? ≠ none := by
  obtain ⟨k, w, -, hspells, hmark⟩ := accepts_separatorRound_iff.mp h
  intro hnone
  obtain ⟨-, rfl⟩ := hspells.nil_of_end hnone
  obtain ⟨-, c, hchar, -⟩ := hmark.mark_head
  rw [hnone] at hchar
  cases hchar

/-- What the rule has read separates statements or ends the program. -/
theorem separation_of_accepts (h : Accepts chars (.call .statementSep) i j) :
    ∃ w, Separation chars[j]?.isNone w ∧ Spells chars i w j := by
  rw [accepts_call_iff] at h
  change Accepts chars (.seq (.plus .separatorRound) (.call .spaces)) i j at h
  simp only [Pattern.plus, accepts_seq_iff, accepts_group_iff] at h
  obtain ⟨m, ⟨k, hround, hstar⟩, hspaces⟩ := h
  have hrounds : ∀ i, Accepts chars .separatorRound i k →
      ∃ w, Separation chars[j]?.isNone w ∧ Spells chars i w j := by
    refine hstar.star_induction (motive := fun k => ∀ i, Accepts chars .separatorRound i k →
      ∃ w, Separation chars[j]?.isNone w ∧ Spells chars i w j) ?_ ?_
    · intro _ i hround
      obtain ⟨l, a, ha, hspells, hmark⟩ := accepts_separatorRound_iff.mp hround
      obtain ⟨w, hw, hspells''⟩ := layout_of_accepts hspaces
      rcases hmark.mark_cases with ⟨mark, hm, hspells'⟩ | ⟨body, hbody, hspells', hnone⟩
      · exact ⟨_, .last ha hm hw, hspells.append (hspells'.append hspells'')⟩
      · obtain ⟨rfl, rfl⟩ := hspells''.nil_of_end hnone
        have hlast : Layout true ('#' :: body) := .lastComment rfl hbody
        rw [hnone]
        exact ⟨_, .behind (.layout (hlast.append_blanks ha)), hspells.append hspells'⟩
    · intro k k' hnext _ _ ih i hround
      obtain ⟨l, a, ha, hspells, hmark⟩ := accepts_separatorRound_iff.mp hround
      obtain ⟨w, hw, hspells''⟩ := ih k hnext
      rcases hmark.mark_cases with ⟨mark, hm, hspells'⟩ | ⟨body, hbody, hspells', hnone⟩
      · exact ⟨_, hw.more ha hm, hspells.append (hspells'.append hspells'')⟩
      · exact absurd hnone hnext.round_head
  exact hrounds i hround

end Sumscript

import Sumscript.Proofs.Spelling

/-! # Names, numbers, layout and separators

What the rules below the level of phrases read, in both directions: a text that such a rule has
read has the written form it should have, and a text of that form is read up to its end,
provided the character behind it does not go on with it.
-/

namespace Sumscript

variable {chars : Array Char} {i j k : Nat}

section Words

/-- A name is read as far as it goes. -/
theorem accepts_name_iff : Accepts chars (.call .name) i j ↔
    ∃ name : String, Identifier.isValid name = true ∧ Spells chars i name.toList j ∧
      ∀ c, chars[j]? = some c → Identifier.continues c = false := by
  rw [accepts_call_iff]
  change Accepts chars (.seq (.call .alphaChar) (.star (.call .alphaNumericChar))) i j ↔ _
  rw [accepts_seq_iff]
  simp only [readsOne_alphaChar.accepts_iff, readsOne_alphaNumericChar.star_iff]
  constructor
  · rintro ⟨_, ⟨⟨c, hchar, hstarts⟩, rfl⟩, w, hw, hspells, hnext⟩
    refine ⟨String.ofList (c :: w), ?_, ?_, hnext⟩
    · simpa [Identifier.isValid, hstarts] using hw
    · rw [String.toList_ofList]
      exact ⟨hchar, hspells⟩
  · rintro ⟨name, hvalid, hspells, hnext⟩
    unfold Identifier.isValid at hvalid
    cases hname : name.toList with
    | nil =>
        rw [hname] at hvalid
        cases hvalid
    | cons c w =>
        rw [hname] at hvalid hspells
        obtain ⟨hstarts, hw⟩ := (Bool.and_eq_true _ _).mp hvalid
        exact ⟨i + 1, ⟨⟨c, hspells.1, hstarts⟩, rfl⟩, w, List.all_eq_true.mp hw, hspells.2, hnext⟩

theorem fails_name_iff : Fails chars (.call .name) i ↔
    ∀ c, chars[i]? = some c → Identifier.starts c = false := by
  rw [fails_call_iff]
  change Fails chars (.seq (.call .alphaChar) (.star (.call .alphaNumericChar))) i ↔ _
  rw [fails_seq_iff, readsOne_alphaChar.fails_iff]
  exact or_iff_left fun ⟨_, _, _, hfails⟩ => not_fails_star hfails

/-- A number is read as far as it goes. -/
theorem accepts_number_iff : Accepts chars (.call .number) i j ↔
    ∃ name : String, isNumber name = true ∧ Spells chars i name.toList j ∧
      ∀ c, chars[j]? = some c → c.isDigit = false := by
  rw [accepts_call_iff]
  change Accepts chars (.seq (.group (.call .digit)) (.star (.call .digit))) i j ↔ _
  rw [accepts_seq_iff]
  simp only [readsOne_digit.group.accepts_iff, readsOne_digit.star_iff]
  constructor
  · rintro ⟨_, ⟨⟨c, hchar, hdigit⟩, rfl⟩, w, hw, hspells, hnext⟩
    refine ⟨String.ofList (c :: w), ?_, ?_, hnext⟩
    · simpa [isNumber, hdigit] using hw
    · rw [String.toList_ofList]
      exact ⟨hchar, hspells⟩
  · rintro ⟨name, hvalid, hspells, hnext⟩
    unfold isNumber at hvalid
    cases hname : name.toList with
    | nil =>
        rw [hname] at hvalid
        cases hvalid
    | cons c w =>
        rw [hname] at hvalid hspells
        have hall := List.all_eq_true.mp ((Bool.and_eq_true _ _).mp hvalid).2
        obtain ⟨hdigit, hw⟩ := List.forall_mem_cons.mp hall
        exact ⟨i + 1, ⟨⟨c, hspells.1, hdigit⟩, rfl⟩, w, hw, hspells.2, hnext⟩

theorem fails_number_iff : Fails chars (.call .number) i ↔
    ∀ c, chars[i]? = some c → c.isDigit = false := by
  rw [fails_call_iff]
  change Fails chars (.seq (.group (.call .digit)) (.star (.call .digit))) i ↔ _
  rw [fails_seq_iff, readsOne_digit.group.fails_iff]
  exact or_iff_left fun ⟨_, _, _, hfails⟩ => not_fails_star hfails

/-- Blanks are read as far as they go. -/
theorem accepts_simpleSpaces_iff : Accepts chars (.call .simpleSpaces) i j ↔
    ∃ w, Blanks w ∧ Spells chars i w j ∧ ∀ c, chars[j]? = some c → isBlankOrTab c = false := by
  rw [accepts_call_iff]
  exact readsOne_simpleSpace.star_iff

end Words

section Layout

/-- Whether a character can begin layout. -/
def startsLayout (c : Char) : Bool :=
  isBlankOrTab c || isLineEnd c || c == '#'

/-- A carriage return is never read without a line feed that follows it. -/
theorem accepts_newline_iff : Accepts chars (.call .newline) i j ↔
    ∃ n, Newline n ∧ Spells chars i n j ∧ (n = ['\r'] → chars[j]? ≠ some '\n') := by
  rw [accepts_call_iff]
  change Accepts chars
    (.alt (.group (.seq (.char '\r') (.char '\n'))) (.alt (.char '\n') (.char '\r'))) i j ↔ _
  simp only [accepts_alt_iff, accepts_group_iff, accepts_seq_iff, accepts_char_iff,
    fails_group_iff, fails_seq_iff, fails_char_iff, succeeds_char_iff]
  constructor
  · rintro (⟨_, ⟨hreturn, rfl⟩, hfeed, rfl⟩ | ⟨hfails, ⟨hfeed, rfl⟩ | ⟨_, hreturn, rfl⟩⟩)
    · exact ⟨_, .returnFeed, ⟨hreturn, hfeed, rfl⟩, by simp⟩
    · exact ⟨_, .feed, ⟨hfeed, rfl⟩, by simp⟩
    · refine ⟨_, .returnAlone, ⟨hreturn, rfl⟩, fun _ => ?_⟩
      grind
  · rintro ⟨n, hn, hspells, halone⟩
    cases hn with
    | returnFeed => grind [Spells]
    | feed => grind [Spells]
    | returnAlone => grind [Spells]

theorem fails_newline_iff : Fails chars (.call .newline) i ↔
    ∀ c, chars[i]? = some c → isLineEnd c = false := by
  rw [fails_call_iff]
  change Fails chars
    (.alt (.group (.seq (.char '\r') (.char '\n'))) (.alt (.char '\n') (.char '\r'))) i ↔ _
  simp only [fails_alt_iff, fails_group_iff, fails_seq_iff, fails_char_iff, succeeds_char_iff]
  constructor
  · rintro ⟨-, hfeed, hreturn⟩ c hchar
    rw [← Bool.not_eq_true, isLineEnd_iff]
    rintro (rfl | rfl)
    · exact hfeed hchar
    · exact hreturn hchar
  · intro h
    have hreturn : chars[i]? ≠ some '\r' := fun hchar => absurd (h _ hchar) (by decide)
    have hfeed : chars[i]? ≠ some '\n' := fun hchar => absurd (h _ hchar) (by decide)
    exact ⟨.inl hreturn, hfeed, hreturn⟩

theorem Accepts.newline_head (h : Accepts chars (.call .newline) i j) :
    i < j ∧ ∃ c, chars[i]? = some c ∧ isLineEnd c = true := by
  obtain ⟨n, hn, hspells, -⟩ := accepts_newline_iff.mp h
  have hlength := hspells.eq_add_length
  cases hn with
  | returnFeed | feed | returnAlone =>
      rw [List.length_cons] at hlength
      exact ⟨by omega, _, hspells.1, rfl⟩

theorem exists_accepts_newline {c : Char} (hchar : chars[i]? = some c) (hc : isLineEnd c = true) :
    ∃ j, Accepts chars (.call .newline) i j := by
  rcases isLineEnd_iff.mp hc with rfl | rfl
  · exact ⟨_, accepts_newline_iff.mpr ⟨_, .feed, ⟨hchar, rfl⟩, by simp⟩⟩
  · by_cases hfeed : chars[i + 1]? = some '\n'
    · exact ⟨_, accepts_newline_iff.mpr ⟨_, .returnFeed, ⟨hchar, hfeed, rfl⟩, by simp⟩⟩
    · exact ⟨_, accepts_newline_iff.mpr ⟨_, .returnAlone, ⟨hchar, rfl⟩, fun _ => hfeed⟩⟩

theorem readsOne_commentChar : ReadsOne chars (.seq (.notAhead (.call .newline)) .any)
    fun c => !isLineEnd c := by
  constructor
  · intro i j
    simp only [accepts_seq_iff, accepts_notAhead_iff, fails_newline_iff, accepts_any_iff]
    constructor
    · rintro ⟨_, ⟨hnewline, rfl⟩, ⟨c, hchar⟩, rfl⟩
      exact ⟨⟨c, hchar, by rw [hnewline c hchar]; rfl⟩, rfl⟩
    · rintro ⟨⟨c, hchar, hc⟩, rfl⟩
      refine ⟨i, ⟨fun c' hchar' => ?_, rfl⟩, ⟨c, hchar⟩, rfl⟩
      cases hchar.symm.trans hchar'
      exact Bool.not_eq_true' _ ▸ hc
  · intro i
    simp only [fails_seq_iff, fails_notAhead_iff, fails_any_iff, succeeds_notAhead_iff]
    constructor
    · rintro (⟨j, log, hnewline⟩ | ⟨_, _, ⟨_, rfl, rfl⟩, hnone⟩) c hchar
      · obtain ⟨-, c', hchar', hc'⟩ := hnewline.accepts.newline_head
        cases hchar.symm.trans hchar'
        rw [hc']
        rfl
      · rw [hnone] at hchar
        cases hchar
    · intro h
      cases hchar : chars[i]? with
      | none =>
          refine .inr ⟨i, [], ⟨fails_newline_iff.mpr fun c hc => ?_, rfl, rfl⟩, hchar⟩
          rw [hchar] at hc
          cases hc
      | some c =>
          exact .inl (exists_accepts_newline hchar (by simpa using h c hchar))

/-- A comment is read up to its line end, and with it, or up to the end of the text. -/
theorem accepts_comment_iff : Accepts chars (.call .comment) i j ↔
    ∃ body k, CommentBody body ∧ Spells chars i ('#' :: body) k ∧
      (Accepts chars (.call .newline) k j ∨ chars[k]? = none ∧ j = k) := by
  rw [accepts_call_iff]
  change Accepts chars (.seq (.char '#') (.seq (.star (.seq (.notAhead (.call .newline)) .any))
    (.opt (.call .newline)))) i j ↔ _
  simp only [accepts_seq_iff, accepts_char_iff, readsOne_commentChar.star_iff, accepts_opt_iff,
    fails_newline_iff]
  constructor
  · rintro ⟨_, ⟨hsign, rfl⟩, k, ⟨body, hbody, hspells, hstop⟩, hend⟩
    refine ⟨body, k, fun c hc => by simpa using hbody c hc, ⟨hsign, hspells⟩, ?_⟩
    refine hend.imp_right fun ⟨hnewline, hjk⟩ => ⟨?_, hjk⟩
    cases hchar : chars[k]? with
    | none => rfl
    | some c =>
        have := hstop c hchar
        rw [hnewline c hchar] at this
        cases this
  · rintro ⟨body, k, hbody, hspells, hend⟩
    refine ⟨_, ⟨hspells.1, rfl⟩, k, ⟨body, fun c hc => by simp [hbody c hc], hspells.2, ?_⟩, ?_⟩
    · rcases hend with hnewline | ⟨hnone, -⟩
      · obtain ⟨-, c, hchar, hc⟩ := hnewline.newline_head
        intro c' hchar'
        cases hchar.symm.trans hchar'
        simp [hc]
      · intro c hchar
        rw [hnone] at hchar
        cases hchar
    · refine hend.imp_right fun ⟨hnone, hjk⟩ => ⟨fun c hchar => ?_, hjk⟩
      rw [hnone] at hchar
      cases hchar

theorem fails_comment_iff : Fails chars (.call .comment) i ↔ chars[i]? ≠ some '#' := by
  rw [fails_call_iff]
  change Fails chars (.seq (.char '#') (.seq (.star (.seq (.notAhead (.call .newline)) .any))
    (.opt (.call .newline)))) i ↔ _
  simp only [fails_seq_iff, fails_char_iff, not_fails_star, not_fails_opt, and_false, exists_false,
    or_false]

/-- A repetition that takes line ends takes one of any form. What is read as the line end may
be longer, if what follows begins with a line feed. -/
theorem Accepts.star_behind_newline {p : Pattern}
    (htakes : ∀ {k k'}, Accepts chars (.call .newline) k k' → Accepts chars p k k')
    {n : List Char} (hn : Newline n) (hspells : Spells chars i n k)
    (hrest : Accepts chars (.star p) k j) :
    ∃ k', Accepts chars (.call .newline) i k' ∧ Accepts chars (.star p) k' j := by
  -- A return and, as the next line end, a line feed are read as one line end.
  by_cases halone : n = ['\r'] ∧ chars[k]? = some '\n'
  · obtain ⟨rfl, hfeed⟩ := halone
    obtain ⟨hreturn, rfl⟩ := hspells
    have hnext : Accepts chars (.call .newline) (i + 1) (i + 2) :=
      accepts_newline_iff.mpr ⟨_, .feed, ⟨hfeed, rfl⟩, by simp⟩
    refine ⟨i + 2, accepts_newline_iff.mpr ⟨_, .returnFeed, ⟨hreturn, hfeed, rfl⟩, by simp⟩, ?_⟩
    rcases accepts_star_iff.mp hrest with ⟨hfails, -⟩ | ⟨k', hbody, -, hrest'⟩
    · exact absurd hfails (htakes hnext).not_fails
    · rw [(htakes hnext).unique hbody]
      exact hrest'
  · refine ⟨k, accepts_newline_iff.mpr ⟨n, hn, hspells, fun hn hfeed => ?_⟩, hrest⟩
    exact halone ⟨hn, hfeed⟩

theorem Accepts.star_behind_comment {p : Pattern}
    (htakes : ∀ {k k'}, Accepts chars (.call .newline) k k' → Accepts chars p k k')
    {body n : List Char} (hbody : CommentBody body) (hn : Newline n)
    (hspells : Spells chars i ('#' :: (body ++ n)) k) (hrest : Accepts chars (.star p) k j) :
    ∃ k', Accepts chars (.call .comment) i k' ∧ Accepts chars (.star p) k' j := by
  obtain ⟨hsign, m, hspells, hspells'⟩ := by simpa using hspells
  obtain ⟨k', hnewline, hrest'⟩ := hrest.star_behind_newline htakes hn hspells'
  exact ⟨k', accepts_comment_iff.mpr ⟨body, m, hbody, ⟨hsign, hspells⟩, .inl hnewline⟩, hrest'⟩

theorem accepts_space_iff : Accepts chars (.call .space) i j ↔
    ((∃ c, chars[i]? = some c ∧ isBlankOrTab c = true) ∧ j = i + 1) ∨
      Accepts chars (.call .newline) i j ∨ Accepts chars (.call .comment) i j := by
  have hblank : ReadsOne chars (.alt (.char ' ') (.char '\t')) isBlankOrTab :=
    (readsOne_char ' ').alt (readsOne_char '\t')
  have hassoc : Accepts chars (.call .space) i j ↔
      Accepts chars (.alt (.alt (.char ' ') (.char '\t')) (.alt (.call .newline) (.call .comment)))
        i j := by
    rw [accepts_call_iff]
    simp only [Rule.production, Pattern.oneOf, accepts_alt_iff, fails_alt_iff]
    grind
  rw [hassoc, accepts_alt_iff, hblank.accepts_iff, hblank.fails_iff, accepts_alt_iff]
  refine or_congr_right ⟨fun h => h.2.imp_right And.right, ?_⟩
  rintro (hnewline | hcomment)
  · obtain ⟨-, c, hchar, hc⟩ := hnewline.newline_head
    refine ⟨fun c' hchar' => ?_, .inl hnewline⟩
    cases hchar.symm.trans hchar'
    rcases isLineEnd_iff.mp hc with rfl | rfl <;> rfl
  · obtain ⟨body, k, -, ⟨hsign, -⟩, -⟩ := accepts_comment_iff.mp hcomment
    refine ⟨fun c' hchar' => ?_, .inr ⟨fails_newline_iff.mpr fun c' hchar' => ?_, hcomment⟩⟩
    · cases hsign.symm.trans hchar'
      rfl
    · cases hsign.symm.trans hchar'
      rfl

theorem fails_space_iff : Fails chars (.call .space) i ↔
    ∀ c, chars[i]? = some c → startsLayout c = false := by
  rw [fails_call_iff]
  change Fails chars (.alt (.char ' ') (.alt (.char '\t') (.alt (.call .newline) (.call .comment))))
    i ↔ _
  simp only [fails_alt_iff, fails_char_iff, fails_newline_iff, fails_comment_iff]
  cases chars[i]? with
  | none => simp
  | some c => simp [startsLayout, isBlankOrTab, and_assoc]

/-- Layout is read as far as it goes. -/
theorem accepts_spaces {atEnd : Bool} {w : List Char} (hw : Layout atEnd w)
    (hspells : Spells chars i w j) (hend : atEnd = true → chars[j]? = none)
    (hnext : ∀ c, chars[j]? = some c → startsLayout c = false) :
    Accepts chars (.call .spaces) i j := by
  rw [accepts_call_iff]
  change Accepts chars (.star (.call .space)) i j
  have htakes : ∀ {k k'}, Accepts chars (.call .newline) k k' →
      Accepts chars (.call .space) k k' := fun h => accepts_space_iff.mpr (.inr (.inl h))
  induction hw generalizing i with
  | nil =>
      cases hspells
      exact accepts_star_iff.mpr (.inl ⟨fails_space_iff.mpr hnext, rfl⟩)
  | blank hblank _ ih =>
      have hspace := accepts_space_iff.mpr (.inl ⟨⟨_, hspells.1, hblank⟩, rfl⟩)
      exact accepts_star_iff.mpr (.inr ⟨_, hspace, Nat.lt_succ_self i, ih hspells.2⟩)
  | newline hn _ ih =>
      obtain ⟨k, hspells, hrest⟩ := spells_append_iff.mp hspells
      obtain ⟨k', hnewline, hstar⟩ := (ih hrest).star_behind_newline htakes hn hspells
      have hlt := hnewline.newline_head.1
      exact accepts_star_iff.mpr (.inr ⟨k', htakes hnewline, hlt, hstar⟩)
  | @comment body n w hbody hn _ ih =>
      obtain ⟨k, hspells, hrest⟩ : ∃ k, Spells chars i ('#' :: (body ++ n)) k ∧
          Spells chars k w j := by
        rw [← spells_append_iff, List.cons_append, List.append_assoc]
        exact hspells
      obtain ⟨k', hcomment, hstar⟩ := (ih hrest).star_behind_comment htakes hbody hn hspells
      obtain ⟨log, hsucceeds⟩ := hcomment
      have hlt := hsucceeds.lt rfl
      have hspace := accepts_space_iff.mpr (.inr (.inr hsucceeds.accepts))
      exact accepts_star_iff.mpr (.inr ⟨k', hspace, hlt, hstar⟩)
  | @lastComment body hatEnd hbody =>
      have hnone := hend hatEnd
      have hcomment := accepts_comment_iff.mpr ⟨body, j, hbody, hspells, .inr ⟨hnone, rfl⟩⟩
      obtain ⟨log, hsucceeds⟩ := hcomment
      have hlt := hsucceeds.lt rfl
      have hspace := accepts_space_iff.mpr (.inr (.inr hsucceeds.accepts))
      have hfails := fails_space_iff.mpr hnext
      exact accepts_star_iff.mpr
        (.inr ⟨j, hspace, hlt, accepts_star_iff.mpr (.inl ⟨hfails, rfl⟩)⟩)

theorem Spells.nil_of_end {w : List Char} (h : Spells chars i w j) (hend : chars[i]? = none) :
    w = [] ∧ j = i := by
  cases w with
  | nil => exact ⟨rfl, h⟩
  | cons c w =>
      have := h.1
      rw [hend] at this
      cases this

/-- Layout that was read is layout. Its last comment lacks the line end only at the end of the
text. -/
theorem layout_of_accepts (h : Accepts chars (.call .spaces) i j) :
    ∃ w, Layout chars[j]?.isNone w ∧ Spells chars i w j := by
  rw [accepts_call_iff] at h
  refine Accepts.star_induction (p := .call .space)
    (motive := fun i => ∃ w, Layout chars[j]?.isNone w ∧ Spells chars i w j) h
    (fun _ => ⟨[], .nil, rfl⟩) fun i k hspace _ _ ih => ?_
  obtain ⟨w, hw, hspells⟩ := ih
  rcases accepts_space_iff.mp hspace with ⟨⟨c, hchar, hblank⟩, rfl⟩ | hnewline | hcomment
  · exact ⟨_, .blank hblank hw, hchar, hspells⟩
  · obtain ⟨n, hn, hspells', -⟩ := accepts_newline_iff.mp hnewline
    exact ⟨_, .newline hn hw, hspells'.append hspells⟩
  · obtain ⟨body, m, hbody, hspells', hend⟩ := accepts_comment_iff.mp hcomment
    rcases hend with hnewline | ⟨hnone, rfl⟩
    · obtain ⟨n, hn, hspells'', -⟩ := accepts_newline_iff.mp hnewline
      exact ⟨_, .comment hbody hn hw, hspells'.append (hspells''.append hspells)⟩
    · obtain ⟨rfl, rfl⟩ := hspells.nil_of_end hnone
      exact ⟨_, .lastComment (by rw [hnone]; rfl) hbody, hspells'⟩

end Layout

end Sumscript

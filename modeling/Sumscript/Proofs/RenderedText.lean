import Sumscript.Proofs.ParsedText

/-! # A rendering is parsed as its tree

No alternative of the grammar gets in the way of the right one: what stands behind a phrase
cannot go on with it, so names, numbers and layout end where they should, a variable is not taken
for a call, and an operand not for the left side of an operation.
-/

namespace Sumscript

/-- Whether a character ends an expression that stands right before it. -/
def closesExpression (c : Char) : Bool :=
  !(Identifier.continues c || startsLayout c || c == '(' || c == '+')

/-- Behind an operand, and blanks, stands something that neither goes on with a name nor makes a
call of it. -/
def OperandEnds (chars : Array Char) (j : Nat) : Prop :=
  ∃ k w, Blanks w ∧ Spells chars j w k ∧ ∀ c, chars[k]? = some c →
    Identifier.continues c = false ∧ isBlankOrTab c = false ∧ c ≠ '('

/-- Behind an expression stands something that does not go on with it. -/
def ExpressionEnds (chars : Array Char) (j : Nat) : Prop :=
  OperandEnds chars j ∧ ∃ k, Accepts chars (.call .spaces) j k ∧ chars[k]? ≠ some '+'

variable {chars : Array Char} {i j k : Nat} {w : List Char}

section Ends

theorem continues_of_blank {c : Char} (h : isBlankOrTab c = true) :
    Identifier.continues c = false := by
  simp only [isBlankOrTab, Bool.or_eq_true, beq_iff_eq] at h
  rcases h with rfl | rfl <;> rfl

theorem OperandEnds.name_ends (h : OperandEnds chars j) :
    ∀ c, chars[j]? = some c → Identifier.continues c = false := by
  obtain ⟨k, w, hw, hspells, hnext⟩ := h
  intro c hchar
  cases w with
  | nil =>
      cases hspells
      exact (hnext c hchar).1
  | cons b w =>
      cases hspells.1.symm.trans hchar
      exact continues_of_blank (List.forall_mem_cons.mp hw).1

/-- Layout and something that is neither layout nor part of a name ends an operand. -/
theorem operandEnds_of_layout {atEnd : Bool} (hw : Layout atEnd w) (hspells : Spells chars j w k)
    (hnext : ∀ c, chars[k]? = some c →
      Identifier.continues c = false ∧ isBlankOrTab c = false ∧ c ≠ '(') :
    OperandEnds chars j := by
  have hlineEnd : ∀ {c}, isLineEnd c = true →
      Identifier.continues c = false ∧ isBlankOrTab c = false ∧ c ≠ '(' := by
    intro c hc
    rcases isLineEnd_iff.mp hc with rfl | rfl <;> decide
  induction hw generalizing j with
  | nil =>
      cases hspells
      exact ⟨_, [], .nil, rfl, hnext⟩
  | @blank c w hc _ ih =>
      obtain ⟨m, v, hv, hspellsv, hnextv⟩ := ih hspells.2
      exact ⟨m, c :: v, List.forall_mem_cons.mpr ⟨hc, hv⟩, .cons hspells.1 hspellsv, hnextv⟩
  | newline hn _ _ =>
      refine ⟨j, [], .nil, rfl, fun c hchar => ?_⟩
      obtain ⟨m, hspellsn, -⟩ := spells_append_iff.mp hspells
      cases hn with
      | returnFeed | feed | returnAlone =>
          cases hspellsn.1.symm.trans hchar
          exact hlineEnd rfl
  | comment | lastComment =>
      refine ⟨j, [], .nil, rfl, fun c hchar => ?_⟩
      cases hspells.1.symm.trans hchar
      decide

theorem closesExpression_iff {c : Char} : closesExpression c = true ↔
    (Identifier.continues c = false ∧ startsLayout c = false) ∧ c ≠ '(' ∧ c ≠ '+' := by
  simp [closesExpression, and_assoc]

theorem expressionEnds_of_layout {atEnd : Bool} (hw : Layout atEnd w)
    (hspells : Spells chars j w k) (hend : atEnd = true → chars[k]? = none)
    (hnext : ∀ c, chars[k]? = some c → closesExpression c = true) : ExpressionEnds chars j := by
  refine ⟨operandEnds_of_layout hw hspells fun c hchar => ?_, k, ?_, fun hchar => ?_⟩
  · obtain ⟨⟨hcontinues, hlayout⟩, hopen, -⟩ := closesExpression_iff.mp (hnext c hchar)
    simp only [startsLayout, Bool.or_eq_false_iff] at hlayout
    exact ⟨hcontinues, hlayout.1.1, hopen⟩
  · exact accepts_spaces hw hspells hend fun c hchar =>
      (closesExpression_iff.mp (hnext c hchar)).1.2
  · exact (closesExpression_iff.mp (hnext _ hchar)).2.2 rfl

theorem expressionEnds_before {c : Char} (hw : Layout false w) (hspells : Spells chars j w k)
    (hchar : chars[k]? = some c) (hc : closesExpression c = true) : ExpressionEnds chars j := by
  refine expressionEnds_of_layout hw hspells (fun h => nomatch h) fun c' hchar' => ?_
  cases hchar.symm.trans hchar'
  exact hc

theorem Layout.append {atEnd : Bool} {a b : List Char} (ha : Layout false a)
    (hb : Layout atEnd b) : Layout atEnd (a ++ b) := by
  induction ha with
  | nil => exact hb
  | blank hc _ ih => exact .blank hc ih
  | newline hn _ ih =>
      rw [List.append_assoc]
      exact .newline hn ih
  | comment hbody hn _ ih =>
      rw [List.cons_append, List.append_assoc, List.append_assoc]
      exact .comment hbody hn ih
  | lastComment hend _ => cases hend

theorem Mark.exists_head {m : List Char} (h : Mark m) : ∃ c r, m = c :: r ∧
    Identifier.continues c = false ∧ isBlankOrTab c = false ∧ c ≠ '(' := by
  cases h with
  | semicolon => exact ⟨_, _, rfl, by decide⟩
  | newline hn =>
      cases hn with
      | returnFeed | feed | returnAlone => exact ⟨_, _, rfl, by decide⟩
  | comment => exact ⟨_, _, rfl, by decide⟩

theorem Mark.eq_semicolon_or_layout {m : List Char} (h : Mark m) :
    m = [';'] ∨ Layout false m := by
  cases h with
  | semicolon => exact .inl rfl
  | newline hn =>
      have hlayout := Layout.newline hn (.nil : Layout false [])
      rw [List.append_nil] at hlayout
      exact .inr hlayout
  | comment hbody hn =>
      have hlayout := Layout.comment hbody hn (.nil : Layout false [])
      rw [List.append_nil] at hlayout
      exact .inr hlayout

/-- Layout at the front of a separator reaches a semicolon or the end of the separator. -/
theorem Separator.exists_layout (h : Separator w) :
    Layout false w ∨ ∃ a b, w = a ++ ';' :: b ∧ Layout false a := by
  induction h with
  | @last a m b ha hm hb =>
      rcases hm.eq_semicolon_or_layout with rfl | hm
      · exact .inr ⟨a, b, rfl, ha.layout⟩
      · exact .inl ((hm.append hb).append_blanks ha)
  | @more a m w ha hm _ ih =>
      rcases hm.eq_semicolon_or_layout with rfl | hm
      · exact .inr ⟨a, w, rfl, ha.layout⟩
      · rcases ih with hw | ⟨a', b, rfl, ha'⟩
        · exact .inl ((hm.append hw).append_blanks ha)
        · refine .inr ⟨a ++ (m ++ a'), b, ?_, (hm.append ha').append_blanks ha⟩
          simp only [List.append_assoc]

theorem Separator.exists_mark (h : Separator w) :
    ∃ a m r, w = a ++ (m ++ r) ∧ Blanks a ∧ Mark m := by
  cases h with
  | last ha hm _ => exact ⟨_, _, _, rfl, ha, hm⟩
  | more ha hm _ => exact ⟨_, _, _, rfl, ha, hm⟩

theorem Separator.operandEnds (h : Separator w) (hspells : Spells chars j w k) :
    OperandEnds chars j := by
  obtain ⟨a, m, r, rfl, ha, hm⟩ := h.exists_mark
  obtain ⟨c, r', rfl, hc⟩ := hm.exists_head
  obtain ⟨l, hspellsa, hspells⟩ := spells_append_iff.mp hspells
  refine ⟨l, a, ha, hspellsa, fun c' hchar => ?_⟩
  cases hspells.1.symm.trans hchar
  exact hc

/-- What separates statements, or ends the program, ends the expression before it. -/
theorem expressionEnds_of_separation {atEnd : Bool} (hw : Separation atEnd w)
    (hspells : Spells chars j w k) (hend : atEnd = true → chars[k]? = none)
    (hnext : ∀ c, chars[k]? = some c → startsLayout c = false ∧ c ≠ '+') :
    ExpressionEnds chars j := by
  -- Layout is read up to what comes next or up to a semicolon, and neither is an operator.
  have hspaces : ∀ {b a}, Layout b a → Spells chars j a k → (b = true → chars[k]? = none) →
      ∃ k, Accepts chars (.call .spaces) j k ∧ chars[k]? ≠ some '+' := by
    intro b a ha hspellsa hb
    refine ⟨k, accepts_spaces ha hspellsa hb fun c hchar => (hnext c hchar).1, fun hchar => ?_⟩
    exact (hnext _ hchar).2 rfl
  have hsemicolon : ∀ {a b}, Layout false a → Spells chars j (a ++ ';' :: b) k →
      ∃ k, Accepts chars (.call .spaces) j k ∧ chars[k]? ≠ some '+' := by
    intro a b ha hspellsa
    obtain ⟨l, hspellsa, hchar, -⟩ := spells_append_iff.mp hspellsa
    refine ⟨l, accepts_spaces ha hspellsa (fun h => nomatch h) fun c hchar' => ?_, fun hchar' => ?_⟩
    · cases hchar.symm.trans hchar'
      rfl
    · cases hchar.symm.trans hchar'
  cases hw with
  | between hseparator =>
      refine ⟨hseparator.operandEnds hspells, ?_⟩
      rcases hseparator.exists_layout with hlayout | ⟨a, b, rfl, ha⟩
      · exact hspaces hlayout hspells fun h => nomatch h
      · exact hsemicolon ha hspells
  | behind hbehind =>
      have hnone := hend rfl
      cases hbehind with
      | layout hlayout =>
          refine expressionEnds_of_layout hlayout hspells hend fun c hchar => ?_
          rw [hnone] at hchar
          cases hchar
      | separator hseparator hlayout =>
          obtain ⟨l, hspellsa, hspellsb⟩ := spells_append_iff.mp hspells
          refine ⟨hseparator.operandEnds hspellsa, ?_⟩
          rcases hseparator.exists_layout with ha | ⟨a, b, rfl, ha⟩
          · exact hspaces (ha.append hlayout) hspells hend
          · rw [List.append_assoc, List.cons_append] at hspells
            exact hsemicolon ha hspells

end Ends

section Failures

theorem fails_literal (h : ∀ c, chars[i]? = some c → c.isDigit = false) :
    Fails chars (.call .literal) i :=
  fails_call_iff.mpr (fails_seq_iff.mpr (.inl (fails_number_iff.mpr h)))

theorem fails_funcCall_of_start (h : ∀ c, chars[i]? = some c → Identifier.starts c = false) :
    Fails chars (.call .funcCall) i :=
  fails_call_iff.mpr (fails_seq_iff.mpr (.inl (fails_name_iff.mpr h)))

theorem fails_variable (h : ∀ c, chars[i]? = some c → Identifier.starts c = false) :
    Fails chars (.call .variable) i :=
  fails_call_iff.mpr (fails_seq_iff.mpr (.inl (fails_name_iff.mpr h)))

theorem fails_unop (h : chars[i]? ≠ some '+') : Fails chars (.call .unop) i :=
  fails_call_iff.mpr (fails_seq_iff.mpr (.inl (fails_call_iff.mpr (fails_char_iff.mpr h))))

theorem Accepts.fails_seq {p q : Pattern} (h : Accepts chars p i k) (hfails : Fails chars q k) :
    Fails chars (.seq p q) i := by
  obtain ⟨log, h⟩ := h
  exact fails_seq_iff.mpr (.inr ⟨k, log, h, hfails⟩)

/-- A name without an opening parenthesis behind it is no call. -/
theorem fails_funcCall_of_name {name : String} (hvalid : Identifier.isValid name = true)
    (hspells : Spells chars i name.toList j) (hends : OperandEnds chars j) :
    Fails chars (.call .funcCall) i := by
  have hname := accepts_name_iff.mpr ⟨name, hvalid, hspells, hends.name_ends⟩
  obtain ⟨k, w, hw, hspellsw, hnext⟩ := hends
  have hblanks := accepts_simpleSpaces_iff.mpr
    ⟨w, hw, hspellsw, fun c hchar => (hnext c hchar).2.1⟩
  refine fails_call_iff.mpr (hname.fails_seq ?_)
  refine (accepts_act_iff.mpr rfl).fails_seq (hblanks.fails_seq (fails_seq_iff.mpr (.inl ?_)))
  exact fails_char_iff.mpr fun hchar => (hnext _ hchar).2.2 rfl

/-- Nothing that starts an expression begins with such a character. -/
theorem fails_expression (h : ∀ c, chars[i]? = some c →
    Identifier.continues c = false ∧ c ≠ '(' ∧ c ≠ '+') : Fails chars (.call .expression) i := by
  have hparts : ∀ c, chars[i]? = some c → Identifier.starts c = false ∧ c.isDigit = false :=
    fun c hchar => (Bool.or_eq_false_iff).mp (h c hchar).1
  have hoperand : Fails chars (.call .noBinopExpression) i := by
    refine fails_call_iff.mpr (fails_alt_iff.mpr ⟨fails_literal fun c hc => (hparts c hc).2, ?_⟩)
    refine fails_alt_iff.mpr ⟨fails_funcCall_of_start fun c hc => (hparts c hc).1, ?_⟩
    refine fails_alt_iff.mpr ⟨fails_variable fun c hc => (hparts c hc).1, ?_⟩
    refine fails_alt_iff.mpr ⟨fails_unop fun hchar => (h _ hchar).2.2 rfl, ?_⟩
    refine fails_group_iff.mpr (fails_seq_iff.mpr (.inl ?_))
    exact fails_char_iff.mpr fun hchar => (h _ hchar).2.1 rfl
  refine fails_call_iff.mpr (fails_alt_iff.mpr ⟨fails_call_iff.mpr ?_, hoperand⟩)
  exact fails_seq_iff.mpr (.inl hoperand)

end Failures

section Heads

theorem exists_head_of_isValid {name : String} (h : Identifier.isValid name = true) :
    ∃ c r, name.toList = c :: r ∧ Identifier.starts c = true := by
  unfold Identifier.isValid at h
  cases hname : name.toList with
  | nil =>
      rw [hname] at h
      cases h
  | cons c r =>
      rw [hname] at h
      exact ⟨c, r, rfl, ((Bool.and_eq_true _ _).mp h).1⟩

theorem exists_head_of_isNumber {name : String} (h : isNumber name = true) :
    ∃ c r, name.toList = c :: r ∧ c.isDigit = true := by
  unfold isNumber at h
  cases hname : name.toList with
  | nil =>
      rw [hname] at h
      cases h
  | cons c r =>
      rw [hname] at h
      have hall := List.all_eq_true.mp ((Bool.and_eq_true _ _).mp h).2
      exact ⟨c, r, rfl, (List.forall_mem_cons.mp hall).1⟩

theorem startsLayout_iff {c : Char} : startsLayout c = true ↔
    c = ' ' ∨ c = '\t' ∨ c = '\n' ∨ c = '\r' ∨ c = '#' := by
  simp [startsLayout, isBlankOrTab, isLineEnd, or_assoc]

theorem startsLayout_of_continues {c : Char} (h : Identifier.continues c = true) :
    startsLayout c = false := by
  refine (Bool.not_eq_true _).mp fun hlayout => ?_
  rcases startsLayout_iff.mp hlayout with rfl | rfl | rfl | rfl | rfl <;> cases h

theorem continues_of_starts {c : Char} (h : Identifier.starts c = true) :
    Identifier.continues c = true := by
  simp [Identifier.continues, h]

theorem continues_of_isDigit {c : Char} (h : c.isDigit = true) :
    Identifier.continues c = true := by
  simp [Identifier.continues, h]

theorem isDigit_of_starts {c : Char} (h : Identifier.starts c = true) : c.isDigit = false := by
  simp only [Identifier.starts_eq, Char.le_def, Bool.or_eq_true, beq_iff_eq, decide_eq_true_eq,
    Bool.and_eq_true] at h
  simp only [Char.isDigit, Bool.and_eq_false_iff, decide_eq_false_iff_not]
  rcases h with (h | h) | rfl
  · right; grind
  · right; grind
  · decide

/-- A phrase other than a list of arguments begins with a character that is no layout. -/
def Phrase.BeginsInText : Phrase → List Char → Prop
  | .arguments _, _ => True
  | _, w => ∃ c r, w = c :: r ∧ startsLayout c = false

theorem Written.beginsInText {phrase : Phrase} (h : Written phrase w) : phrase.BeginsInText w := by
  induction h with
  | literal hname =>
      obtain ⟨c, r, hc, hdigit⟩ := exists_head_of_isNumber hname
      exact ⟨c, r, hc, startsLayout_of_continues (continues_of_isDigit hdigit)⟩
  | «variable» hname =>
      obtain ⟨c, r, hc, hstarts⟩ := exists_head_of_isValid hname
      exact ⟨c, r, hc, startsLayout_of_continues (continues_of_starts hstarts)⟩
  | callOperand _ ih | operand _ ih | callStatement _ ih => exact ih
  | parentheses | unop => exact ⟨_, _, rfl, rfl⟩
  | binop _ _ _ _ ih _ =>
      obtain ⟨c, r, rfl, hc⟩ := ih
      exact ⟨c, _, rfl, hc⟩
  | call hname | assign hname =>
      obtain ⟨c, r, hc, hstarts⟩ := exists_head_of_isValid hname
      rw [hc]
      exact ⟨c, _, rfl, startsLayout_of_continues (continues_of_starts hstarts)⟩
  | noArguments | lastArgument | moreArguments => trivial

theorem Written.exists_head_of_statement {t : Node} (h : Written (.statement t) w) :
    ∃ c r, w = c :: r ∧ Identifier.starts c = true := by
  cases h with
  | assign hname =>
      obtain ⟨c, r, hc, hstarts⟩ := exists_head_of_isValid hname
      rw [hc]
      exact ⟨c, _, rfl, hstarts⟩
  | callStatement hcall =>
      cases hcall with
      | call hname =>
          obtain ⟨c, r, hc, hstarts⟩ := exists_head_of_isValid hname
          rw [hc]
          exact ⟨c, _, rfl, hstarts⟩

/-- Layout before an expression is read up to the expression. -/
theorem accepts_spaces_before {t : Node} {a : List Char} (ha : Layout false a)
    (hspells : Spells chars i a k) (hwritten : Written (.expression t) w)
    (hspells' : Spells chars k w j) : Accepts chars (.call .spaces) i k := by
  obtain ⟨c, r, rfl, hc⟩ := hwritten.beginsInText
  refine accepts_spaces ha hspells (fun h => nomatch h) fun c' hchar => ?_
  cases hspells'.1.symm.trans hchar
  exact hc

/-- Layout before a character that is no layout is read up to it. -/
theorem accepts_spaces_to {a : List Char} {c : Char} (ha : Layout false a)
    (hspells : Spells chars i a k) (hchar : chars[k]? = some c) (hc : startsLayout c = false) :
    Accepts chars (.call .spaces) i k := by
  refine accepts_spaces ha hspells (fun h => nomatch h) fun c' hchar' => ?_
  cases hchar.symm.trans hchar'
  exact hc

end Heads

section Phrases

/-- The rules read a written form of a phrase to its end and build the trees of the phrase. -/
def Phrase.ReadBack (chars : Array Char) : Phrase → List Char → Prop
  | .operand t, w => ∀ i j, Spells chars i w j → OperandEnds chars j →
      Parses chars (.call .noBinopExpression) i j t
  | .expression t, w => ∀ i j, Spells chars i w j → ExpressionEnds chars j →
      Parses chars (.call .expression) i j t
  | .arguments ts, w => ∀ i a c j, Layout false a → Layout false c →
      Spells chars i (a ++ (w ++ c)) j → chars[j]? = some ')' →
        ∃ k l, Accepts chars (.call .spaces) i k ∧
          ParsesArguments chars (.seq (.star .argumentRound) (.opt (.call .funcArg))) k l ts ∧
          Accepts chars (.call .spaces) l j
  | .call t, w => ∀ i j, Spells chars i w j → Parses chars (.call .funcCall) i j t
  | .statement t, w => ∀ i j, Spells chars i w j → ExpressionEnds chars j →
      ParsesStatements chars (.call .statement) i j [t]

variable {t : Node}

theorem fails_binop_of_ends (h : Accepts chars (.call .noBinopExpression) i j)
    (hends : ExpressionEnds chars j) : Fails chars (.call .binop) i := by
  obtain ⟨-, k, hspaces, hnext⟩ := hends
  have htail : Fails chars .binopTail j :=
    hspaces.fails_seq (fails_seq_iff.mpr (.inl (fails_call_iff.mpr (fails_char_iff.mpr hnext))))
  exact fails_binop_iff.mpr (.inr ⟨j, h, htail⟩)

theorem parses_expression_of_operand (h : Parses chars (.call .noBinopExpression) i j t)
    (hends : ExpressionEnds chars j) : Parses chars (.call .expression) i j t :=
  fun s => .call rfl (.altSecond (fails_binop_of_ends h.accepts hends) (h s))

theorem parses_operand_literal {name : String} (hname : isNumber name = true)
    (hspells : Spells chars i name.toList j) (hends : OperandEnds chars j) :
    Parses chars (.call .noBinopExpression) i j (.leaf .literal name) := by
  have hnumber := accepts_number_iff.mpr ⟨name, hname, hspells, fun c hchar =>
    (Bool.or_eq_false_iff.mp (hends.name_ends c hchar)).2⟩
  exact fun s => .call rfl (.altFirst (parses_literal hnumber hspells s))

theorem fails_literal_of_starts {c : Char} (hchar : chars[i]? = some c)
    (hc : Identifier.starts c = true) : Fails chars (.call .literal) i := by
  refine fails_literal fun c' hchar' => ?_
  cases hchar.symm.trans hchar'
  exact isDigit_of_starts hc

theorem parses_operand_variable {name : String} (hname : Identifier.isValid name = true)
    (hspells : Spells chars i name.toList j) (hends : OperandEnds chars j) :
    Parses chars (.call .noBinopExpression) i j (.leaf .variable name) := by
  obtain ⟨c, r, hc, hstarts⟩ := exists_head_of_isValid hname
  have haccepts := accepts_name_iff.mpr ⟨name, hname, hspells, hends.name_ends⟩
  have hvariable := parses_variable haccepts hspells
  have hnocall := fails_funcCall_of_name hname hspells hends
  rw [hc] at hspells
  have hnoliteral := fails_literal_of_starts hspells.1 hstarts
  exact fun s => .call rfl (.altSecond hnoliteral (.altSecond hnocall (.altFirst (hvariable s))))

theorem fails_word {c : Char} (hchar : chars[i]? = some c) (hc : Identifier.continues c = false) :
    Fails chars (.call .literal) i ∧ Fails chars (.call .funcCall) i ∧
      Fails chars (.call .variable) i := by
  have hparts : ∀ c', chars[i]? = some c' → Identifier.starts c' = false ∧ c'.isDigit = false := by
    intro c' hchar'
    cases hchar.symm.trans hchar'
    exact Bool.or_eq_false_iff.mp hc
  exact ⟨fails_literal fun c' h => (hparts c' h).2,
    fails_funcCall_of_start fun c' h => (hparts c' h).1,
    fails_variable fun c' h => (hparts c' h).1⟩

theorem parses_operand_parentheses {m n : Nat} (hopen : chars[i]? = some '(')
    (hbefore : Accepts chars (.call .spaces) (i + 1) m)
    (hinner : Parses chars (.call .expression) m n t)
    (hbehind : Accepts chars (.call .spaces) n k) (hclose : chars[k]? = some ')') :
    Parses chars (.call .noBinopExpression) i (k + 1) t := by
  obtain ⟨hnoliteral, hnocall, hnovariable⟩ := fails_word hopen rfl
  have hnounop : Fails chars (.call .unop) i := fails_unop (by rw [hopen]; decide)
  exact fun s => .call rfl (.altSecond hnoliteral (.altSecond hnocall (.altSecond hnovariable
    (.altSecond hnounop (.group (.seq (.char hopen) (.seq (hbefore.builds rfl) (.seq (hinner s)
      (.seq (hbehind.builds rfl) (.char hclose))))))))))

theorem parses_operand_unop (hop : chars[i]? = some '+')
    (hgap : Accepts chars (.call .spaces) (i + 1) k)
    (hoperand : Parses chars (.call .expression) k j t) :
    Parses chars (.call .noBinopExpression) i j ⟨.unop, "+", [t]⟩ := by
  obtain ⟨hnoliteral, hnocall, hnovariable⟩ := fails_word hop rfl
  exact fun s => .call rfl (.altSecond hnoliteral (.altSecond hnocall (.altSecond hnovariable
    (.altFirst (parses_unop hop hgap hoperand s)))))

theorem fails_arguments_of_close (hclose : chars[i]? = some ')') :
    Fails chars .argumentRound i ∧ Fails chars (.call .funcArg) i := by
  have hexpression : Fails chars (.call .expression) i := by
    refine fails_expression fun c hchar => ?_
    cases hclose.symm.trans hchar
    decide
  have hargument : Fails chars (.call .funcArg) i :=
    fails_call_iff.mpr (fails_seq_iff.mpr (.inl hexpression))
  exact ⟨fails_seq_iff.mpr (.inl hargument), hargument⟩

theorem parsesArguments_nil (hclose : chars[i]? = some ')') :
    ParsesArguments chars (.seq (.star .argumentRound) (.opt (.call .funcArg))) i i [] := by
  obtain ⟨hround, hargument⟩ := fails_arguments_of_close hclose
  intro root name done stack
  rw [List.append_nil]
  exact .seq (.starDone hround) (.optNone hargument)

theorem fails_argumentRound_of_last (h : Accepts chars (.call .expression) i k)
    (hgap : Accepts chars (.call .spaces) k j) (hclose : chars[j]? = some ')') :
    Fails chars .argumentRound i := by
  refine (accepts_funcArg_iff.mpr h).fails_seq (hgap.fails_seq ?_)
  refine fails_seq_iff.mpr (.inl (fails_char_iff.mpr fun hchar => ?_))
  cases hclose.symm.trans hchar

theorem parsesArguments_last (h : Parses chars (.call .expression) i k t)
    (hgap : Accepts chars (.call .spaces) k j) (hclose : chars[j]? = some ')') :
    ParsesArguments chars (.seq (.star .argumentRound) (.opt (.call .funcArg))) i k [t] := by
  have hround := fails_argumentRound_of_last h.accepts hgap hclose
  intro root name done stack
  exact .seq (.starDone hround) (.optSome (parsesArguments_funcArg h root name done stack))

/-- A name and blanks are read up to a character that goes on with neither. -/
theorem accepts_name_blanks {name : String} {a : List Char} {c : Char}
    (hname : Identifier.isValid name = true) (hspells : Spells chars i name.toList k)
    (ha : Blanks a) (hspellsa : Spells chars k a j) (hchar : chars[j]? = some c)
    (hc : Identifier.continues c = false) (hblank : isBlankOrTab c = false) :
    Accepts chars (.call .name) i k ∧ Accepts chars (.call .simpleSpaces) k j := by
  constructor
  · refine accepts_name_iff.mpr ⟨name, hname, hspells, fun c' hchar' => ?_⟩
    cases a with
    | nil =>
        cases hspellsa
        cases hchar.symm.trans hchar'
        exact hc
    | cons b a =>
        cases hspellsa.1.symm.trans hchar'
        exact continues_of_blank (List.forall_mem_cons.mp ha).1
  · refine accepts_simpleSpaces_iff.mpr ⟨a, ha, hspellsa, fun c' hchar' => ?_⟩
    cases hchar.symm.trans hchar'
    exact hblank

/-- A call is no assignment. -/
theorem fails_assign_of_call (hname : Accepts chars (.call .name) i k)
    (hblanks : Accepts chars (.call .simpleSpaces) k j) (hopen : chars[j]? = some '(') :
    Fails chars (.call .assign) i := by
  have hvariable : Accepts chars (.call .variable) i k :=
    accepts_call_iff.mpr (accepts_seq_iff.mpr ⟨k, hname, accepts_act_iff.mpr rfl⟩)
  refine fails_call_iff.mpr (hvariable.fails_seq (hblanks.fails_seq ?_))
  refine fails_seq_iff.mpr (.inl (fails_char_iff.mpr fun hchar => ?_))
  cases hopen.symm.trans hchar

/-- Every written form of a phrase is read back as the phrase. -/
theorem Written.readBack {phrase : Phrase} (h : Written phrase w) : phrase.ReadBack chars w := by
  induction h with
  | literal hname => exact fun i j hspells hends => parses_operand_literal hname hspells hends
  | «variable» hname => exact fun i j hspells hends => parses_operand_variable hname hspells hends
  | callOperand hcall ih =>
      intro i j hspells _
      have hparses := ih i j hspells
      cases hcall with
      | call hname =>
          obtain ⟨c, r, hc, hstarts⟩ := exists_head_of_isValid hname
          rw [hc] at hspells
          have hnoliteral := fails_literal_of_starts hspells.1 hstarts
          -- A call begins like a variable, but calls are tried first.
          exact fun s => .call rfl (.altSecond hnoliteral (.altFirst (hparses s)))
  | parentheses hopen hinner hclose ih =>
      intro i j hspells _
      simp only [spells_append_iff, spells_cons_iff, spells_nil_iff] at hspells
      obtain ⟨hchar, m, hspellsa, n, hspellsw, k, hspellsb, hchar', rfl⟩ := hspells
      have hbehind := accepts_spaces_to hclose hspellsb hchar' rfl
      refine parses_operand_parentheses hchar
        (accepts_spaces_before hopen hspellsa hinner hspellsw) (ih m n hspellsw ?_) hbehind hchar'
      exact expressionEnds_before hclose hspellsb hchar' rfl
  | operand _ ih =>
      exact fun i j hspells hends =>
        parses_expression_of_operand (ih i j hspells hends.1) hends
  | unop hgap hoperand ih =>
      intro i j hspells hends
      obtain ⟨hop, hspells⟩ := hspells
      obtain ⟨k, hspellsa, hspellsw⟩ := spells_append_iff.mp hspells
      have hspaces := accepts_spaces_before hgap hspellsa hoperand hspellsw
      exact parses_expression_of_operand
        (parses_operand_unop hop hspaces (ih k j hspellsw hends)) hends
  | binop _ hbefore hbehind hright ihleft ihright =>
      intro i j hspells hends
      simp only [spells_append_iff, spells_cons_iff] at hspells
      obtain ⟨k, hspellsl, l, hspellsa, hop, m, hspellsb, hspellsr⟩ := hspells
      -- The left operand ends before the sign, whatever layout stands between them.
      have hleft : OperandEnds chars k := by
        refine operandEnds_of_layout hbefore hspellsa fun c hc => ?_
        cases hop.symm.trans hc
        decide
      have hbinop := parses_binop (ihleft i k hspellsl hleft)
        (accepts_spaces_to hbefore hspellsa hop rfl) hop
        (accepts_spaces_before hbehind hspellsb hright hspellsr) (ihright m j hspellsr hends)
      exact fun s => .call rfl (.altFirst (hbinop s))
  | @call name ts a b w c hname hblanks hopen harguments hclose ih =>
      intro i j hspells
      simp only [spells_append_iff, spells_cons_iff, spells_nil_iff] at hspells
      obtain ⟨k, hspellsn, l, hspellsa, hchar, m, hspellsb, n, hspellsw, o, hspellsc, hchar',
        rfl⟩ := hspells
      obtain ⟨p, q, hbefore, hparses, hbehind⟩ := ih (l + 1) b c o hopen hclose
        (hspellsb.append (hspellsw.append hspellsc)) hchar'
      obtain ⟨hname', hblanks'⟩ :=
        accepts_name_blanks hname hspellsn hblanks hspellsa hchar rfl rfl
      exact parses_funcCall hname' hspellsn hblanks' hchar hbefore
        (fun root name done stack => .call rfl (hparses root name done stack)) hbehind hchar'
  | noArguments =>
      intro i a c j ha hc hspells hclose
      exact ⟨j, j, accepts_spaces_to (ha.append hc) hspells hclose rfl, parsesArguments_nil hclose,
        accepts_spaces_to .nil rfl hclose rfl⟩
  | lastArgument hlast ih =>
      intro i a c j ha hc hspells hclose
      obtain ⟨k, hspellsa, hspells⟩ := spells_append_iff.mp hspells
      obtain ⟨l, hspellsw, hspellsc⟩ := spells_append_iff.mp hspells
      have hgap := accepts_spaces_to hc hspellsc hclose rfl
      have hends := expressionEnds_before hc hspellsc hclose rfl
      exact ⟨k, l, accepts_spaces_before ha hspellsa hlast hspellsw,
        parsesArguments_last (ih k l hspellsw hends) hgap hclose, hgap⟩
  | moreArguments hfirst hbefore hbehind _ ihfirst ihrest =>
      intro i a c j ha hc hspells hclose
      simp only [spells_append_iff, spells_cons_iff] at hspells
      obtain ⟨k, hspellsa, m, ⟨l, hspellsw, n, hspellsb, hcomma, o, hspellsb', hspellsr⟩,
        hspellsc⟩ := hspells
      obtain ⟨p, q, hspaces, hparses, hlast⟩ := ihrest (n + 1) _ c j hbehind hc
        (hspellsb'.append (hspellsr.append hspellsc)) hclose
      have hends := expressionEnds_before hbefore hspellsb hcomma rfl
      -- The comma and the layout behind it belong to the round of the argument.
      have hround := parsesArguments_argumentRound (ihfirst k l hspellsw hends)
        (accepts_spaces_to hbefore hspellsb hcomma rfl) hcomma hspaces
      have hlt := (hround .emptyRoot "" [] []).accepts.lt rfl
      exact ⟨k, q, accepts_spaces_before ha hspellsa hfirst hspellsw, hround.more hlt hparses,
        hlast⟩
  | assign hname hblanks hgap hvalue ih =>
      intro i j hspells hends
      simp only [spells_append_iff, spells_cons_iff] at hspells
      obtain ⟨k, hspellsn, l, hspellsa, hsign, m, hspellsb, hspellsw⟩ := hspells
      obtain ⟨hname', hblanks'⟩ :=
        accepts_name_blanks hname hspellsn hblanks hspellsa hsign rfl rfl
      have hassign := parses_assign hname' hspellsn hblanks' hsign
        (accepts_spaces_before hgap hspellsb hvalue hspellsw) (ih m j hspellsw hends)
      exact parsesStatements_statement fun s => .altFirst (hassign s)
  | callStatement hcall ih =>
      intro i j hspells _
      have hparses := ih i j hspells
      cases hcall with
      | call hname hblanks =>
          obtain ⟨k, hspellsn, hspells⟩ := spells_append_iff.mp hspells
          obtain ⟨l, hspellsa, hopen, -⟩ := spells_append_iff.mp hspells
          obtain ⟨hname', hblanks'⟩ :=
            accepts_name_blanks hname hspellsn hblanks hspellsa hopen rfl rfl
          have hnoassign := fails_assign_of_call hname' hblanks' hopen
          exact parsesStatements_statement fun s => .altSecond hnoassign (hparses s)

end Phrases

section Program

variable {ts : List Node}

theorem WrittenStatements.exists_head (h : WrittenStatements ts w) :
    ∃ c r, w = c :: r ∧ Identifier.starts c = true := by
  cases h with
  | last hlast => exact hlast.exists_head_of_statement
  | more hfirst =>
      obtain ⟨c, r, rfl, hstarts⟩ := hfirst.exists_head_of_statement
      exact ⟨c, _, rfl, hstarts⟩

theorem not_separator_of_starts {c : Char} (h : Identifier.starts c = true) :
    startsSeparator c = false ∧ c ≠ '+' := by
  refine ⟨Bool.or_eq_false_iff.mpr ⟨startsLayout_of_continues (continues_of_starts h), ?_⟩, ?_⟩
  · refine beq_eq_false_iff_ne.mpr ?_
    rintro rfl
    cases h
  · rintro rfl
    cases h

theorem fails_statement_of_end (hend : chars[i]? = none) : Fails chars (.call .statement) i := by
  have hstarts : ∀ c, chars[i]? = some c → Identifier.starts c = false := by
    intro c hchar
    rw [hend] at hchar
    cases hchar
  refine fails_call_iff.mpr (fails_seq_iff.mpr (.inl (fails_alt_iff.mpr ⟨?_, ?_⟩)))
  · exact fails_call_iff.mpr (fails_seq_iff.mpr (.inl (fails_variable hstarts)))
  · exact fails_funcCall_of_start hstarts

/-- Behind the last statement no other one is found, whatever the end of the program holds. -/
theorem fails_statementRound_of_end (hw : ProgramEnd w) (hspells : Spells chars i w j)
    (hend : chars[j]? = none) : Fails chars .statementRound i := by
  rcases accepts_programEnd hw hspells hend with ⟨hfails, -⟩ | hseparator
  · exact fails_seq_iff.mpr (.inl hfails)
  · exact hseparator.fails_seq (fails_statement_of_end hend)

theorem Builds.statementRound_star {s s' : Progress}
    (hseparator : Accepts chars (.call .statementSep) i k)
    (h : Builds chars (.seq (.call .statement) (.star .statementRound)) k j s s') :
    Builds chars (.star .statementRound) i j s s' := by
  obtain ⟨log, hsucceeds, hleads⟩ := h
  obtain ⟨gap, hgap, hsilent⟩ : Builds chars (.call .statementSep) i k s s := hseparator.builds rfl
  obtain ⟨m, first, rest, hfirst, hrest, rfl⟩ := succeeds_seq_iff.mp hsucceeds
  have hround : Succeeds chars .statementRound i m (gap ++ first) :=
    succeeds_seq_iff.mpr ⟨k, gap, first, hgap, hfirst, rfl⟩
  refine ⟨gap ++ (first ++ rest), ?_, hsilent.append hleads⟩
  exact succeeds_star_iff.mpr (.inr ⟨m, _, rest, hround, hround.lt rfl, hrest,
    (List.append_assoc _ _ _).symm⟩)

theorem WrittenStatements.readBack (h : WrittenStatements ts w) {b : List Char}
    (hspells : Spells chars i w j) (hb : ProgramEnd b) (hspellsb : Spells chars j b k)
    (hend : chars[k]? = none) :
    ParsesStatements chars (.seq (.call .statement) (.star .statementRound)) i j ts := by
  induction h generalizing i with
  | last hlast =>
      have hends : ExpressionEnds chars j := by
        refine expressionEnds_of_separation (.behind hb) hspellsb (fun _ => hend) fun c hchar => ?_
        rw [hend] at hchar
        cases hchar
      -- A separator may still be read here, but no statement stands behind it.
      have hdone := fails_statementRound_of_end hb hspellsb hend
      exact fun root => .seq (hlast.readBack i j hspells hends root) (.starDone hdone)
  | @more t ts w a w' hfirst hseparator hrest ih =>
      obtain ⟨l, hspellsw, hspells⟩ := spells_append_iff.mp hspells
      obtain ⟨m, hspellsa, hspellsr⟩ := spells_append_iff.mp hspells
      have hnext : ∀ c, chars[m]? = some c → startsSeparator c = false ∧ c ≠ '+' := by
        obtain ⟨c, r, rfl, hstarts⟩ := hrest.exists_head
        intro c' hchar
        cases hspellsr.1.symm.trans hchar
        exact not_separator_of_starts hstarts
      have hends : ExpressionEnds chars l :=
        expressionEnds_of_separation (.between hseparator) hspellsa (fun h => nomatch h)
          fun c hchar => ⟨(Bool.or_eq_false_iff.mp (hnext c hchar).1).1, (hnext c hchar).2⟩
      have hgap := accepts_statementSep hseparator hspellsa fun c hchar => (hnext c hchar).1
      intro root
      have hothers := ih hspellsr { root with children := root.children ++ [t] }
      rw [List.append_assoc] at hothers
      exact .seq (hfirst.readBack i l hspellsw hends root) (.statementRound_star hgap hothers)

/-- A rendering of a tree matches the grammar, and the log of the match builds the tree. -/
theorem Rendering.builds {t : Node} (h : Rendering t w) :
    Builds w.toArray (.call .program) 0 w.length (none, .empty) (none, ⟨t, []⟩) := by
  have hspells := spells_toList w
  have hend : w.toArray[w.toArray.size]? = none := Array.getElem?_eq_none (Nat.le_refl _)
  have hstop : ∀ {c}, w.toArray[w.toArray.size]? = some c → startsLayout c = false := by
    intro c hchar
    rw [hend] at hchar
    cases hchar
  change Builds w.toArray (.call .program) 0 w.toArray.size _ _
  -- From here on only the spelling of the text and its end matter.
  generalize w.toArray = chars at hspells hend hstop ⊢
  cases h with
  | program hlead hstatements hb =>
      obtain ⟨k, hspellsa, hspells⟩ := spells_append_iff.mp hspells
      obtain ⟨l, hspellsw, hspellsb⟩ := spells_append_iff.mp hspells
      have hbefore : Accepts chars (.call .spaces) 0 k := by
        obtain ⟨c, r, rfl, hstarts⟩ := hstatements.exists_head
        exact accepts_spaces_to hlead hspellsa hspellsw.1
          (startsLayout_of_continues (continues_of_starts hstarts))
      have hbody := hstatements.readBack hspellsw hb hspellsb hend .emptyRoot
      have hendOfInput : Accepts chars (.call .endOfInput) chars.size chars.size :=
        accepts_call_iff.mpr (accepts_stop_iff.mpr ⟨Nat.le_refl _, rfl⟩)
      refine .call rfl (.seq (hbefore.builds rfl) (.seq (.call rfl hbody) ?_))
      rcases accepts_programEnd hb hspellsb hend with ⟨hfails, hspaces⟩ | hseparator
      · exact .seq (.optNone hfails) (.seq (hspaces.builds rfl) (hendOfInput.builds rfl))
      · have hspaces : Accepts chars (.call .spaces) chars.size chars.size :=
          accepts_spaces (.nil : Layout true []) rfl (fun _ => hend) fun _ => hstop
        exact .seq (.optSome (hseparator.builds rfl))
          (.seq (hspaces.builds rfl) (hendOfInput.builds rfl))

end Program

theorem Rendering.parse_eq {t : Node} {maxDepth : Nat} (h : Rendering t w)
    (hdepth : w.length ≤ maxDepth) : parse maxDepth w.toArray = .ok t :=
  parse_of_builds h.builds hdepth

/-- Parsing undoes rendering. Every program tree has a rendering, and every rendering of it,
whatever its layout, separators, parentheses and trailing commas, is parsed as the tree under
every nesting limit that is not smaller than the text. -/
theorem parse_rendering (t : Node) (ht : t.IsProgram) :
    (∃ w, Rendering t w) ∧ ∀ w maxDepth, Rendering t w → w.length ≤ maxDepth →
      parse maxDepth w.toArray = .ok t :=
  ⟨Rendering.exists_text ht, fun _ _ hrendering hdepth => hrendering.parse_eq hdepth⟩

/-- The tree of `x=(+1)+y # n` and, on the next line, `f(x,)`. -/
def sumAndCall : Node :=
  ⟨.root, "", [⟨.assign, "", [.leaf .variable "x", ⟨.binop, "+",
    [⟨.unop, "+", [.leaf .literal "1"]⟩, .leaf .variable "y"]⟩]⟩,
    ⟨.call, "f", [.leaf .variable "x"]⟩]⟩

theorem parse_rendering_sumAndCall : sumAndCall.IsProgram ∧
    Rendering sumAndCall "x=(+1)+y # n\nf(x,)#".toList ∧
    "x=(+1)+y # n\nf(x,)#".toList.length ≤ 64 ∧
    parse 64 "x=(+1)+y # n\nf(x,)#".toList.toArray = .ok sumAndCall := by
  have hx : Written (.operand (.leaf .variable "x")) "x".toList := .variable rfl
  have hy : Written (.operand (.leaf .variable "y")) "y".toList := .variable rfl
  have hone : Written (.operand (.leaf .literal "1")) "1".toList := .literal rfl
  have hleft := Written.parentheses .nil (.unop .nil (.operand hone)) .nil
  have hsum := Written.binop hleft .nil .nil (.operand hy)
  have hassign : Written (.statement (sumAndCall.children[0]!)) "x=(+1)+y".toList :=
    .assign rfl .nil .nil hsum
  have hargument : Written (.arguments [.leaf .variable "x"]) "x,".toList :=
    .moreArguments (.operand hx) .nil .nil .noArguments
  have hcall : Written (.statement (sumAndCall.children[1]!)) "f(x,)".toList :=
    .callStatement (.call rfl .nil .nil hargument .nil)
  have hblank : Blanks " ".toList := by decide
  have hnote : CommentBody " n".toList := by decide
  have hgap : Separator " # n\n".toList := .last hblank (.comment hnote .feed) .nil
  have hempty : CommentBody [] := by decide
  have hrendering : Rendering sumAndCall "x=(+1)+y # n\nf(x,)#".toList :=
    .program .nil (.more hassign hgap (.last hcall)) (.layout (.lastComment rfl hempty))
  have hprogram := hrendering.isProgram
  exact ⟨hprogram, hrendering, by decide,
    (parse_rendering sumAndCall hprogram).2 _ 64 hrendering (by decide)⟩

end Sumscript

import Sumscript.Proofs.Adequacy
import Sumscript.Proofs.Building
import Sumscript.Tree.Builder

/-! # What was parsed is a rendering of its tree

Whatever the rules for phrases have read is a written form of the tree that they build. Behind
an expression there is nothing that could go on with it as a binary operation, so an operation
never stops early and its left operand is never a bare unary operation.
-/

namespace Sumscript

/-- What makes a binary operation out of an operand. -/
def Pattern.binopTail : Pattern :=
  .inOrder (.call .spaces) [.call .op, .act .addBinopName, .call .spaces, .call .expression,
    .act .endBinop]

variable {chars : Array Char} {i j k : Nat}

theorem accepts_op_iff : Accepts chars (.call .op) i j ↔ chars[i]? = some '+' ∧ j = i + 1 := by
  rw [accepts_call_iff]
  exact accepts_char_iff

theorem accepts_binopTail_iff : Accepts chars .binopTail i j ↔
    ∃ k m, Accepts chars (.call .spaces) i k ∧ chars[k]? = some '+' ∧
      Accepts chars (.call .spaces) (k + 1) m ∧ Accepts chars (.call .expression) m j := by
  simp only [Pattern.binopTail, Pattern.inOrder, accepts_seq_iff, accepts_op_iff, accepts_act_iff]
  constructor
  · rintro ⟨k, hbefore, _, ⟨hop, rfl⟩, _, rfl, m, hbehind, _, hright, rfl⟩
    exact ⟨k, m, hbefore, hop, hbehind, hright⟩
  · rintro ⟨k, m, hbefore, hop, hbehind, hright⟩
    exact ⟨k, hbefore, _, ⟨hop, rfl⟩, _, rfl, m, hbehind, _, hright, rfl⟩

theorem accepts_binop_iff : Accepts chars (.call .binop) i j ↔
    ∃ k, Accepts chars (.call .noBinopExpression) i k ∧ Accepts chars .binopTail k j := by
  rw [accepts_call_iff]
  exact accepts_seq_iff

theorem fails_binop_iff : Fails chars (.call .binop) i ↔
    Fails chars (.call .noBinopExpression) i ∨
      ∃ k, Accepts chars (.call .noBinopExpression) i k ∧ Fails chars .binopTail k := by
  rw [fails_call_iff]
  change Fails chars (.seq (.call .noBinopExpression) .binopTail) i ↔ _
  rw [fails_seq_iff]
  simp only [Accepts, exists_and_right]

/-- An expression was read as a tree of which the text is a written form, and nothing behind it
goes on with it. -/
def ExpressionFound (chars : Array Char) (i j : Nat) : Prop :=
  ∃ t w, Parses chars (.call .expression) i j t ∧ Spells chars i w j ∧
    Written (.expression t) w ∧ Fails chars .binopTail j

/-- An operand was read, or an expression behind which nothing goes on with it. -/
def OperandFound (chars : Array Char) (i j : Nat) : Prop :=
  ∃ t w, Parses chars (.call .noBinopExpression) i j t ∧ Spells chars i w j ∧
    (Written (.operand t) w ∨ Written (.expression t) w ∧ Fails chars .binopTail j)

theorem lt_size_of_char {c : Char} (hchar : chars[i]? = some c) : i < chars.size :=
  (Array.getElem?_eq_some_iff.mp hchar).1

/-- Layout before the end of the text has only closed comments. -/
theorem layout_before (h : Accepts chars (.call .spaces) i j) (hj : j < chars.size) :
    ∃ w, Layout false w ∧ Spells chars i w j := by
  obtain ⟨w, hw, hspells⟩ := layout_of_accepts h
  rw [Array.getElem?_eq_getElem hj] at hw
  exact ⟨w, hw, hspells⟩

theorem Accepts.lt_size {p : Pattern} (h : Accepts chars p i j) (hp : p.nullable = false)
    (hstart : i ≤ chars.size) : i < chars.size :=
  Nat.lt_of_lt_of_le (h.lt hp) (h.le_size hstart)

theorem blanks_of_accepts (h : Accepts chars (.call .simpleSpaces) i j) :
    ∃ w, Blanks w ∧ Spells chars i w j := by
  obtain ⟨w, hw, hspells, -⟩ := accepts_simpleSpaces_iff.mp h
  exact ⟨w, hw, hspells⟩

theorem expressionFound_of
    (hoperand : ∀ {k}, k ≤ j → Accepts chars (.call .noBinopExpression) i k →
      OperandFound chars i k)
    (hsmaller : ∀ {i'}, i < i' → Accepts chars (.call .expression) i' j →
      ExpressionFound chars i' j)
    (h : Accepts chars (.call .expression) i j) : ExpressionFound chars i j := by
  rcases accepts_alt_iff.mp (accepts_call_iff.mp h) with hbinop | ⟨hfails, hsingle⟩
  · obtain ⟨k, hleft, htail⟩ := accepts_binop_iff.mp hbinop
    obtain ⟨l, m, hbefore, hop, hbehind, hright⟩ := accepts_binopTail_iff.mp htail
    have hl := lt_size_of_char hop
    have hm := hright.lt_size rfl (hbehind.le_size hl)
    obtain ⟨left, w, hparses, hspells, hwritten⟩ := hoperand htail.le hleft
    obtain ⟨a, ha, hspellsa⟩ := layout_before hbefore hl
    obtain ⟨b, hb, hspellsb⟩ := layout_before hbehind hm
    have hlt : i < m := by
      have := hleft.lt rfl
      have := hbefore.le
      have := hbehind.le
      omega
    obtain ⟨right, w', hparses', hspells', hwritten', hstop⟩ := hsmaller hlt hright
    -- A unary operand has taken every operator behind it, so it is no left operand.
    rcases hwritten with hwritten | ⟨-, hfails⟩
    · refine ⟨_, _, fun s => ?_, ?_, .binop hwritten ha hb hwritten', hstop⟩
      · exact .call rfl (.altFirst (parses_binop hparses hbefore hop hbehind hparses' s))
      · exact hspells.append (hspellsa.append (.cons hop (hspellsb.append hspells')))
    · exact absurd hfails htail.not_fails
  · obtain ⟨t, w, hparses, hspells, hwritten⟩ := hoperand (Nat.le_refl j) hsingle
    -- The operand is where a binary operation would begin, so no operator stands behind it.
    have hstop : Fails chars .binopTail j := by
      rcases fails_binop_iff.mp hfails with hfails | ⟨k, hsingle', hfails⟩
      · exact absurd hfails hsingle.not_fails
      · rw [hsingle.unique hsingle']
        exact hfails
    refine ⟨t, w, fun s => .call rfl (.altSecond hfails (hparses s)), hspells, ?_, hstop⟩
    rcases hwritten with hwritten | ⟨hwritten, -⟩
    · exact .operand hwritten
    · exact hwritten

/-- An argument with the comma behind it. -/
def Pattern.argumentRound : Pattern :=
  .inOrder (.call .funcArg) [.call .spaces, .char ',', .call .spaces]

theorem accepts_funcArg_iff :
    Accepts chars (.call .funcArg) i j ↔ Accepts chars (.call .expression) i j := by
  rw [accepts_call_iff]
  change Accepts chars (.seq (.call .expression) (.act .addFuncCallArg)) i j ↔ _
  simp [accepts_seq_iff, accepts_act_iff]

theorem accepts_argumentRound_iff : Accepts chars .argumentRound i j ↔
    ∃ k l, Accepts chars (.call .expression) i k ∧ Accepts chars (.call .spaces) k l ∧
      chars[l]? = some ',' ∧ Accepts chars (.call .spaces) (l + 1) j := by
  simp only [Pattern.argumentRound, Pattern.inOrder, accepts_seq_iff, accepts_funcArg_iff,
    accepts_char_iff]
  constructor
  · rintro ⟨k, hfirst, l, hbefore, _, ⟨hcomma, rfl⟩, hbehind⟩
    exact ⟨k, l, hfirst, hbefore, hcomma, hbehind⟩
  · rintro ⟨k, l, hfirst, hbefore, hcomma, hbehind⟩
    exact ⟨k, hfirst, l, hbefore, _, ⟨hcomma, rfl⟩, hbehind⟩

theorem parsesArguments_argumentRound {t : Node} {l : Nat}
    (hfirst : Parses chars (.call .expression) i k t) (hbefore : Accepts chars (.call .spaces) k l)
    (hcomma : chars[l]? = some ',') (hbehind : Accepts chars (.call .spaces) (l + 1) j) :
    ParsesArguments chars .argumentRound i j [t] :=
  fun root name done stack => .seq (parsesArguments_funcArg hfirst root name done stack)
    (.seq (hbefore.builds rfl) (.seq (.char hcomma) (hbehind.builds rfl)))

theorem ParsesArguments.more {p : Pattern} {t : Node} {ts : List Node}
    (h : ParsesArguments chars .argumentRound i k [t]) (hlt : i < k)
    (h' : ParsesArguments chars (.seq (.star .argumentRound) p) k j ts) :
    ParsesArguments chars (.seq (.star .argumentRound) p) i j (t :: ts) := by
  intro root name done stack
  have hrest := h' root name (done ++ [t]) stack
  rw [List.append_assoc, List.singleton_append] at hrest
  exact .starMore_seq (h root name done stack) hlt hrest

/-- Arguments were read as trees of which the text is a written form. -/
def ArgumentsFound (chars : Array Char) (p : Pattern) (i j : Nat) : Prop :=
  ∃ ts w, ParsesArguments chars p i j ts ∧ Spells chars i w j ∧ Written (.arguments ts) w

theorem argumentsFound_of
    (hsmaller : ∀ {i' j'}, i ≤ i' → j' ≤ j → Accepts chars (.call .expression) i' j' →
      ExpressionFound chars i' j')
    (h : Accepts chars (.call .funcArgs) i j) (hj : j < chars.size) :
    ArgumentsFound chars (.call .funcArgs) i j := by
  obtain ⟨k, hstar, hlast⟩ := accepts_seq_iff.mp (accepts_call_iff.mp h)
  change Accepts chars (.star .argumentRound) i k at hstar
  have hkj := hlast.le
  have hfound : i ≤ i → ArgumentsFound chars
      (.seq (.star .argumentRound) (.opt (.call .funcArg))) i j := by
    refine hstar.star_induction (motive := fun i' => i ≤ i' → ArgumentsFound chars
      (.seq (.star .argumentRound) (.opt (.call .funcArg))) i' j) ?_ ?_
    · intro hdone hle
      rcases accepts_opt_iff.mp hlast with hlast | ⟨hfails, rfl⟩
      · obtain ⟨t, w, hparses, hspells, hwritten, -⟩ :=
          hsmaller hle (Nat.le_refl j) (accepts_funcArg_iff.mp hlast)
        refine ⟨[t], w, fun root name done stack => ?_, hspells, .lastArgument hwritten⟩
        exact .seq (.starDone hdone)
          (.optSome (parsesArguments_funcArg hparses root name done stack))
      · refine ⟨[], [], fun root name done stack => ?_, rfl, .noArguments⟩
        rw [List.append_nil]
        exact .seq (.starDone hdone) (.optNone hfails)
    · intro i' k' hround hlt hstar' ih hle
      obtain ⟨m, l, hfirst, hbefore, hcomma, hbehind⟩ := accepts_argumentRound_iff.mp hround
      have hk' := hstar'.le
      have hm : m ≤ j := by
        have := hbefore.le
        have := hbehind.le
        omega
      obtain ⟨t, w, hparses, hspells, hwritten, -⟩ := hsmaller hle hm hfirst
      obtain ⟨a, ha, hspellsa⟩ := layout_before hbefore (lt_size_of_char hcomma)
      obtain ⟨b, hb, hspellsb⟩ := layout_before hbehind (by omega)
      obtain ⟨ts, w', hparses', hspells', hwritten'⟩ := ih (by omega)
      refine ⟨t :: ts, _, ?_, ?_, .moreArguments hwritten ha hb hwritten'⟩
      · exact (parsesArguments_argumentRound hparses hbefore hcomma hbehind).more hlt hparses'
      · exact hspells.append (hspellsa.append (.cons hcomma (hspellsb.append hspells')))
  obtain ⟨ts, w, hparses, hspells, hwritten⟩ := hfound (Nat.le_refl i)
  exact ⟨ts, w, fun root name done stack => .call rfl (hparses root name done stack), hspells,
    hwritten⟩

theorem accepts_funcCall_iff : Accepts chars (.call .funcCall) i j ↔
    ∃ k l m n o, Accepts chars (.call .name) i k ∧ Accepts chars (.call .simpleSpaces) k l ∧
      chars[l]? = some '(' ∧ Accepts chars (.call .spaces) (l + 1) m ∧
      Accepts chars (.call .funcArgs) m n ∧ Accepts chars (.call .spaces) n o ∧
      chars[o]? = some ')' ∧ j = o + 1 := by
  rw [accepts_call_iff]
  simp only [Rule.production, Pattern.inOrder, accepts_seq_iff, accepts_act_iff, accepts_char_iff]
  constructor
  · rintro ⟨_, hname, k, rfl, l, hblanks, _, ⟨hopen, rfl⟩, m, hbefore, n, harguments, o, hbehind,
      hclose, rfl⟩
    exact ⟨k, l, m, n, o, hname, hblanks, hopen, hbefore, harguments, hbehind, hclose, rfl⟩
  · rintro ⟨k, l, m, n, o, hname, hblanks, hopen, hbefore, harguments, hbehind, hclose, rfl⟩
    exact ⟨k, hname, _, rfl, l, hblanks, _, ⟨hopen, rfl⟩, m, hbefore, n, harguments, o, hbehind,
      hclose, rfl⟩

theorem callFound_of
    (hsmaller : ∀ {i' j'}, i < i' → j' ≤ j → Accepts chars (.call .expression) i' j' →
      ExpressionFound chars i' j')
    (h : Accepts chars (.call .funcCall) i j) :
    ∃ t w, Parses chars (.call .funcCall) i j t ∧ Spells chars i w j ∧ Written (.call t) w := by
  obtain ⟨k, l, m, n, o, hname, hblanks, hopen, hbefore, harguments, hbehind, hclose, rfl⟩ :=
    accepts_funcCall_iff.mp h
  have ho := lt_size_of_char hclose
  have hn := Nat.lt_of_le_of_lt hbehind.le ho
  have hlt : i < m := by
    have := hname.lt rfl
    have := hblanks.le
    have := hbefore.le
    omega
  have hno := hbehind.le
  obtain ⟨ts, w, hparses, hspells, hwritten⟩ := argumentsFound_of
    (fun hle hle' => hsmaller (by omega) (by omega)) harguments hn
  obtain ⟨name, hvalid, hspellsname, -⟩ := accepts_name_iff.mp hname
  obtain ⟨a, ha, hspellsa⟩ := blanks_of_accepts hblanks
  obtain ⟨b, hb, hspellsb⟩ := layout_before hbefore (Nat.lt_of_le_of_lt harguments.le hn)
  obtain ⟨c, hc, hspellsc⟩ := layout_before hbehind ho
  refine ⟨_, _, parses_funcCall hname hspellsname hblanks hopen hbefore hparses hbehind hclose, ?_,
    .call hvalid ha hb hwritten hc⟩
  have hspells' := hspells.append (hspellsc.append (.char hclose))
  exact hspellsname.append (hspellsa.append (.cons hopen (hspellsb.append hspells')))

theorem operandFound_of
    (hsmaller : ∀ {i' j'}, i < i' → j' ≤ j → Accepts chars (.call .expression) i' j' →
      ExpressionFound chars i' j')
    (h : Accepts chars (.call .noBinopExpression) i j) : OperandFound chars i j := by
  have halternatives := accepts_call_iff.mp h
  simp only [Rule.production, Pattern.oneOf, Pattern.inOrder, accepts_alt_iff, accepts_group_iff,
    accepts_seq_iff, accepts_char_iff] at halternatives
  rcases halternatives with hliteral | ⟨hnoliteral, hcall | ⟨hnocall, hvariable |
    ⟨hnovariable, hunop | ⟨hnounop, _, ⟨hopen, rfl⟩, m, hbefore, n, hinner, o, hbehind, hclose,
      rfl⟩⟩⟩⟩
  · obtain ⟨_, hnumber, hend⟩ := accepts_seq_iff.mp (accepts_call_iff.mp hliteral)
    cases accepts_act_iff.mp hend
    obtain ⟨name, hvalid, hspells, -⟩ := accepts_number_iff.mp hnumber
    refine ⟨_, _, fun s => ?_, hspells, .inl (.literal hvalid)⟩
    exact .call rfl (.altFirst (parses_literal hnumber hspells s))
  · obtain ⟨t, w, hparses, hspells, hwritten⟩ := callFound_of hsmaller hcall
    refine ⟨t, w, fun s => ?_, hspells, .inl (.callOperand hwritten)⟩
    exact .call rfl (.altSecond hnoliteral (.altFirst (hparses s)))
  · obtain ⟨_, hname, hend⟩ := accepts_seq_iff.mp (accepts_call_iff.mp hvariable)
    cases accepts_act_iff.mp hend
    obtain ⟨name, hvalid, hspells, -⟩ := accepts_name_iff.mp hname
    refine ⟨_, _, fun s => ?_, hspells, .inl (.variable hvalid)⟩
    exact .call rfl (.altSecond hnoliteral (.altSecond hnocall
      (.altFirst (parses_variable hname hspells s))))
  · have hparts := accepts_call_iff.mp hunop
    simp only [Rule.production, Pattern.inOrder, accepts_seq_iff, accepts_op_iff,
      accepts_act_iff] at hparts
    obtain ⟨_, ⟨hop, rfl⟩, _, rfl, k, hgap, _, hoperand, rfl⟩ := hparts
    have hi := lt_size_of_char hop
    have hk := hoperand.lt_size rfl (hgap.le_size hi)
    obtain ⟨a, ha, hspellsa⟩ := layout_before hgap hk
    -- The operand of a sign goes as far as it can, and that nothing follows it is kept.
    obtain ⟨t, w, hparses, hspells, hwritten, hstop⟩ :=
      hsmaller hgap.le (Nat.le_refl _) hoperand
    refine ⟨_, _, fun s => ?_, .cons hop (hspellsa.append hspells), .inr ⟨.unop ha hwritten, hstop⟩⟩
    exact .call rfl (.altSecond hnoliteral (.altSecond hnocall (.altSecond hnovariable
      (.altFirst (parses_unop hop hgap hparses s)))))
  · have ho := lt_size_of_char hclose
    have hn := Nat.lt_of_le_of_lt hbehind.le ho
    obtain ⟨a, ha, hspellsa⟩ := layout_before hbefore (Nat.lt_of_le_of_lt hinner.le hn)
    obtain ⟨b, hb, hspellsb⟩ := layout_before hbehind ho
    have hno := hbehind.le
    obtain ⟨t, w, hparses, hspells, hwritten, -⟩ := hsmaller hbefore.le (by omega) hinner
    have hspells' := hspells.append (hspellsb.append (.char hclose))
    refine ⟨t, _, fun s => ?_, .cons hopen (hspellsa.append hspells'),
      .inl (.parentheses ha hwritten hb)⟩
    exact .call rfl (.altSecond hnoliteral (.altSecond hnocall (.altSecond hnovariable
      (.altSecond hnounop (.group (.seq (.char hopen) (.seq (hbefore.builds rfl) (.seq (hparses s)
        (.seq (hbehind.builds rfl) (.char hclose))))))))))

theorem expressionFound (h : Accepts chars (.call .expression) i j) :
    ExpressionFound chars i j := by
  induction hspan : j - i using Nat.strongRecOn generalizing i j with
  | ind span ih =>
      -- Inner expressions begin behind a character of the outer one, so their span is shorter.
      have hinner : ∀ {i' j'}, i < i' → j' ≤ j → Accepts chars (.call .expression) i' j' →
          ExpressionFound chars i' j' := by
        intro i' j' hlt hle h'
        have := h'.le
        exact ih (j' - i') (by omega) h' rfl
      refine expressionFound_of (fun hk hoperand => ?_) (fun hlt => hinner hlt (Nat.le_refl j)) h
      exact operandFound_of (fun hlt hle => hinner hlt (by omega)) hoperand

/-- Statements were read as trees, and whatever statement stands before the text, with it the
text is a written form of all of them. -/
def StatementsFound (chars : Array Char) (p : Pattern) (i j : Nat) : Prop :=
  ∃ ts w, ParsesStatements chars p i j ts ∧ Spells chars i w j ∧
    ∀ {t w'}, Written (.statement t) w' → WrittenStatements (t :: ts) (w' ++ w)

theorem statementFound (h : Accepts chars (.call .statement) i j) :
    ∃ t w, ParsesStatements chars (.call .statement) i j [t] ∧ Spells chars i w j ∧
      Written (.statement t) w := by
  obtain ⟨_, hbody, hend⟩ := accepts_seq_iff.mp (accepts_call_iff.mp h)
  cases accepts_act_iff.mp hend
  rcases accepts_alt_iff.mp hbody with hassign | ⟨hnoassign, hcall⟩
  · have hparts := accepts_call_iff.mp hassign
    simp only [Rule.production, Pattern.inOrder, accepts_seq_iff, accepts_char_iff,
      accepts_act_iff] at hparts
    obtain ⟨k, hvariable, l, hblanks, _, ⟨hsign, rfl⟩, m, hgap, _, hvalue, rfl⟩ := hparts
    obtain ⟨_, hname, hend⟩ := accepts_seq_iff.mp (accepts_call_iff.mp hvariable)
    cases accepts_act_iff.mp hend
    have hm := hvalue.lt_size rfl (hgap.le_size (lt_size_of_char hsign))
    obtain ⟨name, hvalid, hspellsname, -⟩ := accepts_name_iff.mp hname
    obtain ⟨a, ha, hspellsa⟩ := blanks_of_accepts hblanks
    obtain ⟨b, hb, hspellsb⟩ := layout_before hgap hm
    obtain ⟨t, w, hparses, hspells, hwritten, -⟩ := expressionFound hvalue
    refine ⟨_, _, parsesStatements_statement fun s => ?_, ?_, .assign hvalid ha hb hwritten⟩
    · exact .altFirst (parses_assign hname hspellsname hblanks hsign hgap hparses s)
    · exact hspellsname.append (hspellsa.append (.cons hsign (hspellsb.append hspells)))
  · obtain ⟨t, w, hparses, hspells, hwritten⟩ := callFound_of (fun _ _ => expressionFound) hcall
    refine ⟨t, w, parsesStatements_statement fun s => ?_, hspells, .callStatement hwritten⟩
    exact .altSecond hnoassign (hparses s)

/-- A separator with the statement behind it. -/
def Pattern.statementRound : Pattern :=
  .seq (.call .statementSep) (.call .statement)

theorem moreStatementsFound (hi : i ≤ chars.size)
    (h : Accepts chars (.star .statementRound) i j) :
    StatementsFound chars (.star .statementRound) i j := by
  have hfound : i ≤ chars.size → StatementsFound chars (.star .statementRound) i j := by
    refine h.star_induction (motive := fun i => i ≤ chars.size →
      StatementsFound chars (.star .statementRound) i j) ?_ ?_
    · intro hdone _
      refine ⟨[], [], fun root => ?_, rfl, fun hwritten => ?_⟩
      · cases root
        rw [List.append_nil]
        exact .starDone hdone
      · rw [List.append_nil]
        exact .last hwritten
    · intro i k hround hlt _ ih hi
      obtain ⟨m, hseparator, hstatement⟩ := accepts_seq_iff.mp hround
      have hm := hstatement.lt_size rfl (hseparator.le_size hi)
      obtain ⟨a, ha, hspellsa⟩ := separation_of_accepts hseparator
      rw [Array.getElem?_eq_getElem hm] at ha
      obtain ⟨t, w, hparses, hspells, hwritten⟩ := statementFound hstatement
      obtain ⟨ts, w', hparses', hspells', hwritten'⟩ := ih (hround.le_size hi)
      refine ⟨t :: ts, _, fun root => ?_, hspellsa.append (hspells.append hspells'),
        fun hfirst => ?_⟩
      · have hrest := hparses' { root with children := root.children ++ [t] }
        rw [List.append_assoc] at hrest
        exact .starMore (.seq (hseparator.builds rfl) (hparses root)) hlt hrest
      · cases ha with
        | between hbetween => exact .more hfirst hbetween (hwritten' hwritten)
  exact hfound hi

theorem programEndFound (hseparator : Accepts chars (.opt (.call .statementSep)) i k)
    (hspaces : Accepts chars (.call .spaces) k j) (hend : chars.size ≤ j) :
    ∃ w, ProgramEnd w ∧ Spells chars i w j := by
  have hnone : chars[j]? = none := Array.getElem?_eq_none hend
  obtain ⟨b, hb, hspellsb⟩ := layout_of_accepts hspaces
  rw [hnone] at hb
  rcases accepts_opt_iff.mp hseparator with hseparator | ⟨-, rfl⟩
  · obtain ⟨a, ha, hspellsa⟩ := separation_of_accepts hseparator
    refine ⟨a ++ b, ?_, hspellsa.append hspellsb⟩
    cases hk : chars[k]? with
    | none =>
        -- The marks go up to the end of the text, where the last comment may be open.
        obtain ⟨rfl, -⟩ := hspellsb.nil_of_end hk
        rw [hk] at ha
        rw [List.append_nil]
        cases ha with
        | behind hbehind => exact hbehind
    | some c =>
        rw [hk] at ha
        cases ha with
        | between hbetween => exact .separator hbetween hb
  · exact ⟨b, .layout hb, hspellsb⟩

/-- What was read as a program is a rendering of the tree that is built. -/
theorem programFound (h : Accepts chars (.call .program) 0 j) :
    ∃ t, Builds chars (.call .program) 0 j (none, .empty) (none, ⟨t, []⟩) ∧
      Rendering t chars.toList := by
  have hparts := accepts_call_iff.mp h
  simp only [Rule.production, Pattern.inOrder, accepts_seq_iff] at hparts
  obtain ⟨k, hlead, l, hstatements, m, hseparator, n, hspaces, hend⟩ := hparts
  obtain ⟨f, hfirst, hmore⟩ := accepts_seq_iff.mp (accepts_call_iff.mp hstatements)
  obtain ⟨hsize, rfl⟩ := accepts_stop_iff.mp (accepts_call_iff.mp hend)
  have hk := hfirst.lt_size rfl (hlead.le_size (Nat.zero_le _))
  have hf := hfirst.le_size (Nat.le_of_lt hk)
  obtain ⟨a, ha, hspellsa⟩ := layout_before hlead hk
  obtain ⟨t, w, hparses, hspells, hwritten⟩ := statementFound hfirst
  obtain ⟨ts, w', hparses', hspells', hwritten'⟩ := moreStatementsFound hf hmore
  obtain ⟨b, hb, hspellsb⟩ := programEndFound hseparator hspaces hsize
  have hstatements : Builds chars (.call .statements) k l (none, .empty)
      (none, ⟨⟨.root, "", t :: ts⟩, []⟩) :=
    .call rfl (.seq (hparses .emptyRoot) (hparses' ⟨.root, "", [t]⟩))
  refine ⟨⟨.root, "", t :: ts⟩, ?_, ?_⟩
  · exact .call rfl (.seq (hlead.builds rfl) (.seq hstatements (.seq (hseparator.builds rfl)
      (.seq (hspaces.builds rfl) (hend.builds rfl)))))
  · have hn := hspaces.le_size (hseparator.le_size (hmore.le_size hf))
    have htext := hspellsa.append ((hspells.append hspells').append hspellsb)
    rw [Nat.le_antisymm hn hsize] at htext
    rw [← htext.eq_toList]
    exact .program ha (hwritten' hwritten) hb

theorem Builds.build_eq {t : Node} {log : TokenLog}
    (h : Builds chars (.call .program) 0 j (none, .empty) (none, ⟨t, []⟩))
    (hlog : Succeeds chars (.call .program) 0 k log) : Builder.build chars log = .ok t := by
  obtain ⟨log', hsucceeds, hleads⟩ := h
  obtain ⟨-, rfl⟩ := hlog.unique hsucceeds
  have hreplay := hleads []
  rw [List.append_nil] at hreplay
  unfold Builder.build
  rw [hreplay]
  rfl

/-- The text of a parsed tree matches the grammar, and it is a rendering of the tree. -/
theorem parse_sound {maxDepth : Nat} {t : Node} (h : parse maxDepth chars = .ok t) :
    (∃ stop, Builds chars (.call .program) 0 stop (none, .empty) (none, ⟨t, []⟩)) ∧
      Rendering t chars.toList := by
  unfold parse at h
  split at h
  next => cases h
  next log htokenize =>
    obtain ⟨stop, hsucceeds⟩ := succeeds_of_tokenize htokenize
    obtain ⟨t', hbuilds, hrendering⟩ := programFound hsucceeds.accepts
    rw [hbuilds.build_eq hsucceeds] at h
    cases h
    exact ⟨⟨stop, hbuilds⟩, hrendering⟩

theorem parse_of_builds {maxDepth : Nat} {t : Node}
    (h : Builds chars (.call .program) 0 j (none, .empty) (none, ⟨t, []⟩))
    (hdepth : chars.size ≤ maxDepth) : parse maxDepth chars = .ok t := by
  have hbuilds := h
  obtain ⟨log, hsucceeds, -⟩ := h
  unfold parse tokenize
  rw [tokenize_of_succeeds hsucceeds hdepth]
  dsimp only
  rw [hbuilds.build_eq hsucceeds]

end Sumscript

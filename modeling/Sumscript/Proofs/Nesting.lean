import Sumscript.Proofs.RememberedOutcomes
import Sumscript.Proofs.RenderedText

/-! # How deep the attempts of a text nest

The nesting of a course is the greatest number of counted attempts that are open at once. A
limit is kept by a course exactly if it is not smaller than the nesting, so a text that is
parsed without a limit is parsed under a limit exactly if its attempts nest no deeper. What a
written form of a phrase is attempted with depends on the phrase alone, not on the text around
it.
-/

namespace Sumscript

namespace Course

/-- How many counted attempts are open inside each other at most. -/
def nesting : Course → Nat
  | .nothing => 0
  | .next first second => max first.nesting second.nesting
  | .ahead inner => inner.nesting
  | .attempt rule _ _ inner => if rule.isCounted then inner.nesting + 1 else inner.nesting

variable {rule : Rule} {start : Nat} {failure : Option Nat} {c : Course}

theorem nesting_uncounted (hrule : rule.isCounted = false) :
    (attempt rule start failure c).nesting = c.nesting := by
  simp [nesting, hrule]

theorem nesting_counted (hrule : rule.isCounted = true) :
    (attempt rule start failure c).nesting = c.nesting + 1 := by
  simp [nesting, hrule]

/-- A limit is kept if it has room for the nesting on top of what is open around the course. -/
theorem pastLimit_eq_none_iff (c : Course) (limit others : Nat) :
    c.pastLimit limit others = none ↔ c.nesting = 0 ∨ others + c.nesting ≤ limit := by
  induction c generalizing others with
  | nothing => simp [nesting]
  | next c c' ih ih' =>
      rw [pastLimit_next, Option.or_eq_none_iff, ih, ih', nesting]
      omega
  | ahead c ih => exact ih others
  | attempt rule start failure c ih =>
      by_cases hrule : rule.isCounted = true
      · rw [pastLimit_counted hrule, nesting_counted hrule]
        by_cases hpast : limit ≤ others
        · have hfull : ¬ (c.nesting + 1 = 0 ∨ others + (c.nesting + 1) ≤ limit) := by omega
          simpa [hpast] using hfull
        · rw [if_neg hpast, ih]
          omega
      · have hfalse := Bool.eq_false_iff.mpr hrule
        rw [pastLimit_uncounted hfalse, nesting_uncounted hfalse]
        exact ih others

theorem nesting_eq_zero_of_openings (h : ∀ others, c.openings others = []) : c.nesting = 0 := by
  have hpast : c.pastLimit 0 1 = none := by
    unfold pastLimit
    rw [h 1]
    rfl
  have hnesting := (c.pastLimit_eq_none_iff 0 1).mp hpast
  omega

end Course

section Limit

variable {chars : Array Char} {result : Option Nat} {r : Nat} {c : Course}

/-- What a text gives under a limit, from its attempts. -/
theorem tokenize_eq_of_tries (h : Tries chars (.call .program) 0 result r c) (limit : Nat) :
    tokenize limit chars =
      (c.pastLimit limit 0).elim (tokenize chars.size chars) fun first =>
        .error (.ofToken (.nestingLimit limit)
          ⟨.rule .expression, first.offset, first.offset⟩ chars) := by
  have hdepth := Nat.le_refl chars.size
  have hcourse : Matcher.course ⟨chars, chars.size, true⟩ = c.abridge true [] :=
    Matcher.course_eq_abridge (Matcher.tooDeep_run hdepth) h
  have hpath := (program_attempt h [] (List.forall_mem_nil _)).pastLimit limit 0
  rw [← hpath, ← hcourse]
  exact tokenizeWith_eq_of_pastLimit hdepth limit

/-- What a text without a match gives, from its attempts. -/
theorem tokenize_of_fails (h : Tries chars (.call .program) 0 none r c) :
    tokenize chars.size chars =
      .error (.ofToken .noMatch (c.furthest.getD .noAttempt) chars) := by
  have hfurthest := (program_attempt h [] (List.forall_mem_nil _)).furthest
  rw [← hfurthest]
  exact tokenizeWith_of_open (Matcher.tooDeep_run (Nat.le_refl _)) h

theorem parse_congr_tokenize {limit limit' : Nat}
    (h : tokenize limit chars = tokenize limit' chars) : parse limit chars = parse limit' chars := by
  unfold parse
  rw [h]

theorem parse_of_error {limit : Nat} {e : SyntaxError} (h : tokenize limit chars = .error e) :
    parse limit chars = .error (.syntaxError e) := by
  unfold parse
  rw [h]

end Limit

/-- A pattern is attempted at an offset with a result, and so many counted attempts are open
inside each other meanwhile. -/
def Nests (chars : Array Char) (p : Pattern) (i : Nat) (result : Option Nat) (n : Nat) : Prop :=
  ∃ r c, Tries chars p i result r c ∧ c.nesting = n

namespace Nests

variable {chars : Array Char} {p q : Pattern} {rule : Rule} {i j k n n' : Nat}
  {result : Option Nat}

theorem accepts (h : Nests chars p i (some j) n) : Accepts chars p i j := by
  obtain ⟨r, c, htries, -⟩ := h
  exact htries.accepts

/-- What leads to no expression has no nesting. -/
theorem plain (hp : p.callsOnly Rule.isPlain = true) (h : Accepts chars p i j) :
    Nests chars p i (some j) 0 := by
  obtain ⟨r, c, htries⟩ := h.exists_tries
  exact ⟨r, c, htries, Course.nesting_eq_zero_of_openings (htries.plain hp).openings⟩

theorem plainFail (hp : p.callsOnly Rule.isPlain = true) (h : Fails chars p i) :
    Nests chars p i none 0 := by
  obtain ⟨r, c, htries⟩ := h.exists_tries
  exact ⟨r, c, htries, Course.nesting_eq_zero_of_openings (htries.plain hp).openings⟩

theorem call (hrule : rule.isCounted = false) (h : Nests chars rule.production i result n) :
    Nests chars (.call rule) i result n := by
  obtain ⟨r, c, htries, rfl⟩ := h
  cases result with
  | some j => exact ⟨_, _, .call htries, Course.nesting_uncounted hrule⟩
  | none => exact ⟨_, _, .callFail htries, Course.nesting_uncounted hrule⟩

/-- Every attempt of an expression is one level deeper than what is attempted inside it. -/
theorem expression (h : Nests chars Rule.expression.production i result n) :
    Nests chars (.call .expression) i result (n + 1) := by
  obtain ⟨r, c, htries, rfl⟩ := h
  cases result with
  | some j => exact ⟨_, _, .call htries, Course.nesting_counted rfl⟩
  | none => exact ⟨_, _, .callFail htries, Course.nesting_counted rfl⟩

theorem seq (h : Nests chars p i (some k) n) (h' : Nests chars q k result n') :
    Nests chars (.seq p q) i result (max n n') := by
  obtain ⟨r, c, htries, rfl⟩ := h
  obtain ⟨r', c', htries', rfl⟩ := h'
  exact ⟨_, _, .seq htries htries', rfl⟩

theorem seqFail (h : Nests chars p i none n) : Nests chars (.seq p q) i none n := by
  obtain ⟨r, c, htries, rfl⟩ := h
  exact ⟨_, _, .seqFail htries, rfl⟩

theorem group (h : Nests chars p i result n) : Nests chars (.group p) i result n := by
  obtain ⟨r, c, htries, rfl⟩ := h
  exact ⟨_, _, .group htries, rfl⟩

theorem altFirst (h : Nests chars p i (some j) n) : Nests chars (.alt p q) i (some j) n := by
  obtain ⟨r, c, htries, rfl⟩ := h
  exact ⟨_, _, .altFirst htries, rfl⟩

theorem altSecond (h : Nests chars p i none n) (h' : Nests chars q i result n') :
    Nests chars (.alt p q) i result (max n n') := by
  obtain ⟨r, c, htries, rfl⟩ := h
  obtain ⟨r', c', htries', rfl⟩ := h'
  exact ⟨_, _, .altSecond htries htries', rfl⟩

theorem starDone (h : Nests chars p i none n) : Nests chars (.star p) i (some i) n := by
  obtain ⟨r, c, htries, rfl⟩ := h
  exact ⟨_, _, .starDone htries, rfl⟩

theorem starMore (h : Nests chars p i (some k) n) (hlt : i < k)
    (h' : Nests chars (.star p) k (some j) n') :
    Nests chars (.star p) i (some j) (max n n') := by
  obtain ⟨r, c, htries, rfl⟩ := h
  obtain ⟨r', c', htries', rfl⟩ := h'
  exact ⟨_, _, .starMore htries hlt htries', rfl⟩

theorem optSome (h : Nests chars p i (some j) n) : Nests chars (.opt p) i (some j) n := by
  obtain ⟨r, c, htries, rfl⟩ := h
  exact ⟨_, _, .optSome htries, rfl⟩

theorem optNone (h : Nests chars p i none n) : Nests chars (.opt p) i (some i) n := by
  obtain ⟨r, c, htries, rfl⟩ := h
  exact ⟨_, _, .optNone htries, rfl⟩

theorem seq_cases (h : Nests chars (.seq p q) i (some j) n) :
    ∃ k n₁ n₂, n = max n₁ n₂ ∧ Nests chars p i (some k) n₁ ∧ Nests chars q k (some j) n₂ := by
  obtain ⟨r, c, htries, rfl⟩ := h
  obtain ⟨k, r₁, r₂, c₁, c₂, rfl, rfl, hfirst, hsecond⟩ := htries.seq_some
  exact ⟨k, _, _, rfl, ⟨_, _, hfirst, rfl⟩, ⟨_, _, hsecond, rfl⟩⟩

/-! Parts without nesting leave that of the others. -/

theorem behind (h : Nests chars p i (some k) 0) (h' : Nests chars q k result n) :
    Nests chars (.seq p q) i result n := by
  simpa using h.seq h'

theorem before (h : Nests chars p i (some k) n) (h' : Nests chars q k (some j) 0) :
    Nests chars (.seq p q) i (some j) n := by
  simpa using h.seq h'

theorem otherwise (h : Nests chars p i none 0) (h' : Nests chars q i result n) :
    Nests chars (.alt p q) i result n := by
  simpa using h.altSecond h'

theorem act {action : Action} : Nests chars (.act action) i (some i) 0 :=
  plain rfl (accepts_act_iff.mpr rfl)

theorem char {a : Char} (hchar : chars[i]? = some a) :
    Nests chars (.char a) i (some (i + 1)) 0 :=
  plain rfl (accepts_char_iff.mpr ⟨hchar, rfl⟩)

theorem charFail {a : Char} (hchar : chars[i]? ≠ some a) : Nests chars (.char a) i none 0 :=
  plainFail rfl (fails_char_iff.mpr hchar)

theorem spaces (h : Accepts chars (.call .spaces) i j) :
    Nests chars (.call .spaces) i (some j) 0 :=
  plain rfl h

end Nests

section Operands

variable {chars : Array Char} {i j k l m n n' o : Nat} {w : List Char}

theorem nests_funcCall_of_start (h : ∀ c, chars[i]? = some c → Identifier.starts c = false) :
    Nests chars (.call .funcCall) i none 0 := by
  have hname : Nests chars (.call .name) i none 0 := .plainFail rfl (fails_name_iff.mpr h)
  exact .call rfl hname.seqFail

/-- A name without an opening parenthesis behind it is tried as a call in vain. -/
theorem nests_funcCall_of_name {name : String} (hvalid : Identifier.isValid name = true)
    (hspells : Spells chars i name.toList j) (hends : OperandEnds chars j) :
    Nests chars (.call .funcCall) i none 0 := by
  have hname := accepts_name_iff.mpr ⟨name, hvalid, hspells, hends.name_ends⟩
  obtain ⟨k, w, hw, hspellsw, hnext⟩ := hends
  have hblanks := accepts_simpleSpaces_iff.mpr
    ⟨w, hw, hspellsw, fun c hchar => (hnext c hchar).2.1⟩
  have hopen : Nests chars (.char '(') k none 0 := .charFail fun hchar => (hnext _ hchar).2.2 rfl
  apply Nests.call rfl
  apply (Nests.plain rfl hname).behind
  apply Nests.act.behind
  apply (Nests.plain rfl hblanks).behind
  exact hopen.seqFail

theorem nests_unop_of_char (h : chars[i]? ≠ some '+') : Nests chars (.call .unop) i none 0 := by
  have hop : Nests chars (.call .op) i none 0 := .call rfl (.charFail h)
  exact .call rfl hop.seqFail

/-- Where no word begins, words are tried in vain. -/
theorem nests_word {result : Option Nat} {c : Char} {p : Pattern} (hchar : chars[i]? = some c)
    (hc : Identifier.continues c = false) (h : Nests chars p i result n) :
    Nests chars (.alt (.call .literal) (.alt (.call .funcCall) (.alt (.call .variable) p))) i
      result n := by
  obtain ⟨hnoliteral, -, hnovariable⟩ := fails_word hchar hc
  have hnocall : Nests chars (.call .funcCall) i none 0 := by
    apply nests_funcCall_of_start
    intro c' hchar'
    cases hchar.symm.trans hchar'
    exact (Bool.or_eq_false_iff.mp hc).1
  apply (Nests.plainFail rfl hnoliteral).otherwise
  apply hnocall.otherwise
  exact (Nests.plainFail rfl hnovariable).otherwise h

theorem accepts_literal {name : String} (hname : isNumber name = true)
    (hspells : Spells chars i name.toList j) (hends : OperandEnds chars j) :
    Accepts chars (.call .literal) i j := by
  have hnumber := accepts_number_iff.mpr ⟨name, hname, hspells, fun c hchar =>
    (Bool.or_eq_false_iff.mp (hends.name_ends c hchar)).2⟩
  exact accepts_call_iff.mpr (accepts_seq_iff.mpr ⟨j, hnumber, accepts_act_iff.mpr rfl⟩)

theorem nests_literal {name : String} (hname : isNumber name = true)
    (hspells : Spells chars i name.toList j) (hends : OperandEnds chars j) :
    Nests chars (.call .noBinopExpression) i (some j) 0 :=
  .call rfl (Nests.plain rfl (accepts_literal hname hspells hends)).altFirst

theorem nests_variable {name : String} (hname : Identifier.isValid name = true)
    (hspells : Spells chars i name.toList j) (hends : OperandEnds chars j) :
    Nests chars (.call .noBinopExpression) i (some j) 0 := by
  obtain ⟨c, r, hc, hstarts⟩ := exists_head_of_isValid hname
  have haccepts := accepts_name_iff.mpr ⟨name, hname, hspells, hends.name_ends⟩
  have hvariable : Accepts chars (.call .variable) i j := accepts_variable_iff.mpr haccepts
  have hnocall := nests_funcCall_of_name hname hspells hends
  rw [hc] at hspells
  have hnoliteral := fails_literal_of_starts hspells.1 hstarts
  apply Nests.call rfl
  apply (Nests.plainFail rfl hnoliteral).otherwise
  apply hnocall.otherwise
  exact (Nests.plain rfl hvariable).altFirst

theorem nests_operand_call {c : Char} (hchar : chars[i]? = some c)
    (hc : Identifier.starts c = true) (h : Nests chars (.call .funcCall) i (some j) n) :
    Nests chars (.call .noBinopExpression) i (some j) n := by
  apply Nests.call rfl
  apply (Nests.plainFail rfl (fails_literal_of_starts hchar hc)).otherwise
  exact h.altFirst

theorem nests_parentheses (hopen : chars[i]? = some '(')
    (hbefore : Accepts chars (.call .spaces) (i + 1) m)
    (hinner : Nests chars (.call .expression) m (some o) n)
    (hbehind : Accepts chars (.call .spaces) o k) (hclose : chars[k]? = some ')') :
    Nests chars (.call .noBinopExpression) i (some (k + 1)) n := by
  have hsign : chars[i]? ≠ some '+' := by
    rw [hopen]
    decide
  have hclosing := (Nests.spaces hbehind).behind (.char hclose)
  apply Nests.call rfl
  apply nests_word hopen rfl
  apply (nests_unop_of_char hsign).otherwise
  apply Nests.group
  apply (Nests.char hopen).behind
  apply (Nests.spaces hbefore).behind
  exact hinner.before hclosing

theorem nests_unop (hop : chars[i]? = some '+') (hgap : Accepts chars (.call .spaces) (i + 1) k)
    (hoperand : Nests chars (.call .expression) k (some j) n) :
    Nests chars (.call .noBinopExpression) i (some j) n := by
  have hsign : Nests chars (.call .op) i (some (i + 1)) 0 := .call rfl (.char hop)
  have hunop : Nests chars (.call .unop) i (some j) n := by
    apply Nests.call rfl
    apply hsign.behind
    apply Nests.act.behind
    apply (Nests.spaces hgap).behind
    exact hoperand.before .act
  apply Nests.call rfl
  apply nests_word hop rfl
  exact hunop.altFirst

/-- An operand that nothing goes on with is attempted twice, first as the left side of an
operation. -/
theorem nests_expression_of_operand (h : Nests chars (.call .noBinopExpression) i (some j) n)
    (hends : ExpressionEnds chars j) : Nests chars (.call .expression) i (some j) (n + 1) := by
  obtain ⟨-, k, hspaces, hnext⟩ := hends
  have hop : Nests chars (.call .op) k none 0 := .call rfl (.charFail hnext)
  have htail : Nests chars .binopTail j none 0 := (Nests.spaces hspaces).behind hop.seqFail
  have hbinop : Nests chars (.call .binop) i none (max n 0) := .call rfl (h.seq htail)
  have hboth := hbinop.altSecond h
  rw [Nat.max_zero, Nat.max_self] at hboth
  exact hboth.expression

theorem nests_operation (hleft : Nests chars (.call .noBinopExpression) i (some k) n)
    (hbefore : Accepts chars (.call .spaces) k l) (hop : chars[l]? = some '+')
    (hbehind : Accepts chars (.call .spaces) (l + 1) m)
    (hright : Nests chars (.call .expression) m (some j) n') :
    Nests chars (.call .expression) i (some j) (max n n' + 1) := by
  have hsign : Nests chars (.call .op) l (some (l + 1)) 0 := .call rfl (.char hop)
  have hbinop : Nests chars (.call .binop) i (some j) (max n n') := by
    apply Nests.call rfl
    apply hleft.seq
    apply (Nests.spaces hbefore).behind
    apply hsign.behind
    apply Nests.act.behind
    apply (Nests.spaces hbehind).behind
    exact hright.before .act
  exact hbinop.altFirst.expression

end Operands

section Arguments

variable {chars : Array Char} {i j k l m n n' o : Nat}

/-- Where no expression stands, the attempt to find one has no others inside. -/
theorem nests_expression_of_close (hclose : chars[i]? = some ')') :
    Nests chars (.call .expression) i none 1 := by
  have hsign : chars[i]? ≠ some '+' := by
    rw [hclose]
    decide
  have hopen : chars[i]? ≠ some '(' := by
    rw [hclose]
    decide
  have hoperand : Nests chars (.call .noBinopExpression) i none 0 := by
    apply Nests.call rfl
    apply nests_word hclose rfl
    apply (nests_unop_of_char hsign).otherwise
    exact (Nests.charFail hopen).seqFail.group
  have hbinop : Nests chars (.call .binop) i none 0 := .call rfl hoperand.seqFail
  exact (hbinop.otherwise hoperand).expression

/-- The end of a list of arguments is found by looking for one more argument, twice. -/
theorem nests_noArguments (hclose : chars[i]? = some ')') :
    Nests chars (.seq (.star .argumentRound) (.opt (.call .funcArg))) i (some i) 1 := by
  have hargument : Nests chars (.call .funcArg) i none 1 :=
    .call rfl (nests_expression_of_close hclose).seqFail
  exact hargument.seqFail.starDone.seq hargument.optNone

theorem nests_lastArgument (h : Nests chars (.call .expression) i (some k) n)
    (hgap : Accepts chars (.call .spaces) k j) (hclose : chars[j]? = some ')') :
    Nests chars (.seq (.star .argumentRound) (.opt (.call .funcArg))) i (some k) n := by
  have hargument : Nests chars (.call .funcArg) i (some k) n := .call rfl (h.before .act)
  have hcomma : Nests chars (.char ',') j none 0 := .charFail (by rw [hclose]; decide)
  have hround : Nests chars .argumentRound i none (max n 0) :=
    hargument.seq ((Nests.spaces hgap).behind hcomma.seqFail)
  have hboth := hround.starDone.seq hargument.optSome
  rwa [Nat.max_zero, Nat.max_self] at hboth

theorem nests_moreArguments (h : Nests chars (.call .expression) i (some k) n)
    (hbefore : Accepts chars (.call .spaces) k l) (hcomma : chars[l]? = some ',')
    (hbehind : Accepts chars (.call .spaces) (l + 1) m)
    (hrest : Nests chars (.seq (.star .argumentRound) (.opt (.call .funcArg))) m (some j) n') :
    Nests chars (.seq (.star .argumentRound) (.opt (.call .funcArg))) i (some j) (max n n') := by
  have hargument : Nests chars (.call .funcArg) i (some k) n := .call rfl (h.before .act)
  have hround : Nests chars .argumentRound i (some m) n := by
    apply hargument.before
    apply (Nests.spaces hbefore).behind
    apply (Nests.char hcomma).behind
    exact Nests.spaces hbehind
  obtain ⟨o, n₁, n₂, rfl, hstar, hlast⟩ := hrest.seq_cases
  have hlt := hround.accepts.lt rfl
  rw [← Nat.max_assoc]
  exact (hround.starMore hlt hstar).seq hlast

theorem nests_funcCall (hname : Accepts chars (.call .name) i k)
    (hblanks : Accepts chars (.call .simpleSpaces) k l) (hopen : chars[l]? = some '(')
    (hbefore : Accepts chars (.call .spaces) (l + 1) m)
    (harguments : Nests chars (.seq (.star .argumentRound) (.opt (.call .funcArg))) m (some o) n)
    (hbehind : Accepts chars (.call .spaces) o j) (hclose : chars[j]? = some ')') :
    Nests chars (.call .funcCall) i (some (j + 1)) n := by
  have harguments' : Nests chars (.call .funcArgs) m (some o) n := .call rfl harguments
  have hclosing := (Nests.spaces hbehind).behind (.char hclose)
  apply Nests.call rfl
  apply (Nests.plain rfl hname).behind
  apply Nests.act.behind
  apply (Nests.plain rfl hblanks).behind
  apply (Nests.char hopen).behind
  apply (Nests.spaces hbefore).behind
  exact harguments'.before hclosing

end Arguments

section Statements

variable {chars : Array Char} {i j k l m n : Nat}

theorem nests_assign (hname : Accepts chars (.call .name) i k)
    (hblanks : Accepts chars (.call .simpleSpaces) k l) (hsign : chars[l]? = some '=')
    (hgap : Accepts chars (.call .spaces) (l + 1) m)
    (hvalue : Nests chars (.call .expression) m (some j) n) :
    Nests chars (.call .statement) i (some j) n := by
  have hassign : Nests chars (.call .assign) i (some j) n := by
    apply Nests.call rfl
    apply (Nests.plain rfl (accepts_variable_iff.mpr hname)).behind
    apply (Nests.plain rfl hblanks).behind
    apply (Nests.char hsign).behind
    apply (Nests.spaces hgap).behind
    exact hvalue.before .act
  exact .call rfl (hassign.altFirst.before .act)

/-- A call is tried as an assignment first, up to where the sign would stand. -/
theorem nests_callStatement (hname : Accepts chars (.call .name) i k)
    (hblanks : Accepts chars (.call .simpleSpaces) k l) (hopen : chars[l]? = some '(')
    (hcall : Nests chars (.call .funcCall) i (some j) n) :
    Nests chars (.call .statement) i (some j) n := by
  have hsign : Nests chars (.char '=') l none 0 := .charFail (by rw [hopen]; decide)
  have hnoassign : Nests chars (.call .assign) i none 0 := by
    apply Nests.call rfl
    apply (Nests.plain rfl (accepts_variable_iff.mpr hname)).behind
    apply (Nests.plain rfl hblanks).behind
    exact hsign.seqFail
  exact .call rfl ((hnoassign.otherwise hcall).before .act)

end Statements

/-- The pattern that reads a phrase. -/
def Phrase.pattern : Phrase → Pattern
  | .operand _ => .call .noBinopExpression
  | .expression _ => .call .expression
  | .arguments _ => .seq (.star .argumentRound) (.opt (.call .funcArg))
  | .call _ => .call .funcCall
  | .statement _ => .call .statement

/-- Where a phrase and its parts stand in a text, and how many expressions are attempted inside
each other there. In an empty list of arguments an expression is looked for in vain. -/
inductive Placed (chars : Array Char) : Phrase → Nat → Nat → Nat → Prop where
  | literal {name : String} {i j} (hname : isNumber name = true)
      (hspells : Spells chars i name.toList j) (hends : OperandEnds chars j) :
      Placed chars (.operand (.leaf .literal name)) i j 0
  | variable {name : String} {i j} (hname : Identifier.isValid name = true)
      (hspells : Spells chars i name.toList j) (hends : OperandEnds chars j) :
      Placed chars (.operand (.leaf .variable name)) i j 0
  | callOperand {t i j n c} (hchar : chars[i]? = some c) (hc : Identifier.starts c = true)
      (hcall : Placed chars (.call t) i j n) : Placed chars (.operand t) i j n
  | parentheses {t i k m n o} (hopen : chars[i]? = some '(')
      (hbefore : Accepts chars (.call .spaces) (i + 1) m)
      (hinner : Placed chars (.expression t) m o n)
      (hbehind : Accepts chars (.call .spaces) o k) (hclose : chars[k]? = some ')') :
      Placed chars (.operand t) i (k + 1) n
  | operand {t i j n} (hoperand : Placed chars (.operand t) i j n)
      (hends : ExpressionEnds chars j) : Placed chars (.expression t) i j (n + 1)
  | unop {t i j k n} (hop : chars[i]? = some '+')
      (hgap : Accepts chars (.call .spaces) (i + 1) k)
      (hoperand : Placed chars (.expression t) k j n) (hends : ExpressionEnds chars j) :
      Placed chars (.expression ⟨.unop, "+", [t]⟩) i j (n + 1)
  | binop {t t' i j k l m n n'} (hleft : Placed chars (.operand t) i k n)
      (hbefore : Accepts chars (.call .spaces) k l) (hop : chars[l]? = some '+')
      (hbehind : Accepts chars (.call .spaces) (l + 1) m)
      (hright : Placed chars (.expression t') m j n') :
      Placed chars (.expression ⟨.binop, "+", [t, t']⟩) i j (max n n' + 1)
  | call {name ts i j k l m n o} (hname : Accepts chars (.call .name) i k)
      (hblanks : Accepts chars (.call .simpleSpaces) k l) (hopen : chars[l]? = some '(')
      (hbefore : Accepts chars (.call .spaces) (l + 1) m)
      (harguments : Placed chars (.arguments ts) m o n)
      (hbehind : Accepts chars (.call .spaces) o j) (hclose : chars[j]? = some ')') :
      Placed chars (.call ⟨.call, name, ts⟩) i (j + 1) n
  | noArguments {i} (hclose : chars[i]? = some ')') : Placed chars (.arguments []) i i 1
  | lastArgument {t i j k n} (hlast : Placed chars (.expression t) i k n)
      (hgap : Accepts chars (.call .spaces) k j) (hclose : chars[j]? = some ')') :
      Placed chars (.arguments [t]) i k n
  | moreArguments {t ts i j k l m n n'} (hfirst : Placed chars (.expression t) i k n)
      (hbefore : Accepts chars (.call .spaces) k l) (hcomma : chars[l]? = some ',')
      (hbehind : Accepts chars (.call .spaces) (l + 1) m)
      (hrest : Placed chars (.arguments ts) m j n') :
      Placed chars (.arguments (t :: ts)) i j (max n n')
  | assign {name t i j k l m n} (hname : Accepts chars (.call .name) i k)
      (hblanks : Accepts chars (.call .simpleSpaces) k l) (hsign : chars[l]? = some '=')
      (hgap : Accepts chars (.call .spaces) (l + 1) m)
      (hvalue : Placed chars (.expression t) m j n) :
      Placed chars (.statement ⟨.assign, "", [.leaf .variable name, t]⟩) i j n
  | callStatement {t i j k l n} (hname : Accepts chars (.call .name) i k)
      (hblanks : Accepts chars (.call .simpleSpaces) k l) (hopen : chars[l]? = some '(')
      (hcall : Placed chars (.call t) i j n) : Placed chars (.statement t) i j n

theorem Placed.nests {chars : Array Char} {phrase : Phrase} {i j n : Nat}
    (h : Placed chars phrase i j n) : Nests chars phrase.pattern i (some j) n := by
  induction h with
  | literal hname hspells hends => exact nests_literal hname hspells hends
  | «variable» hname hspells hends => exact nests_variable hname hspells hends
  | callOperand hchar hc _ ih => exact nests_operand_call hchar hc ih
  | parentheses hopen hbefore _ hbehind hclose ih =>
      exact nests_parentheses hopen hbefore ih hbehind hclose
  | operand _ hends ih => exact nests_expression_of_operand ih hends
  | unop hop hgap _ hends ih => exact nests_expression_of_operand (nests_unop hop hgap ih) hends
  | binop _ hbefore hop hbehind _ ihleft ihright =>
      exact nests_operation ihleft hbefore hop hbehind ihright
  | call hname hblanks hopen hbefore _ hbehind hclose ih =>
      exact nests_funcCall hname hblanks hopen hbefore ih hbehind hclose
  | noArguments hclose => exact nests_noArguments hclose
  | lastArgument _ hgap hclose ih => exact nests_lastArgument ih hgap hclose
  | moreArguments _ hbefore hcomma hbehind _ ihfirst ihrest =>
      exact nests_moreArguments ihfirst hbefore hcomma hbehind ihrest
  | assign hname hblanks hsign hgap _ ih => exact nests_assign hname hblanks hsign hgap ih
  | callStatement hname hblanks hopen _ ih => exact nests_callStatement hname hblanks hopen ih

/-- Wherever a written form of a phrase stands, its parts have their places and the nesting is
the same. -/
def Phrase.Placing (n : Nat) : Phrase → List Char → Prop
  | .operand t, w => ∀ chars i j, Spells chars i w j → OperandEnds chars j →
      Placed chars (.operand t) i j n
  | .expression t, w => ∀ chars i j, Spells chars i w j → ExpressionEnds chars j →
      Placed chars (.expression t) i j n
  | .arguments ts, w => ∀ chars i a c j, Layout false a → Layout false c →
      Spells chars i (a ++ (w ++ c)) j → chars[j]? = some ')' →
        ∃ k l, Accepts chars (.call .spaces) i k ∧ Placed chars (.arguments ts) k l n ∧
          Accepts chars (.call .spaces) l j
  | .call t, w => ∀ chars i j, Spells chars i w j → Placed chars (.call t) i j n
  | .statement t, w => ∀ chars i j, Spells chars i w j → ExpressionEnds chars j →
      Placed chars (.statement t) i j n

/-- The nesting of a written form depends on nothing that stands around it. -/
theorem Written.exists_placing {phrase : Phrase} {w : List Char} (h : Written phrase w) :
    ∃ n, phrase.Placing n w := by
  induction h with
  | literal hname => exact ⟨0, fun chars i j => .literal hname⟩
  | «variable» hname => exact ⟨0, fun chars i j => .variable hname⟩
  | callOperand hcall ih =>
      obtain ⟨n, ih⟩ := ih
      refine ⟨n, fun chars i j hspells _ => ?_⟩
      have hplaced := ih chars i j hspells
      cases hcall with
      | call hname =>
          obtain ⟨c, r, hc, hstarts⟩ := exists_head_of_isValid hname
          rw [hc] at hspells
          exact .callOperand hspells.1 hstarts hplaced
  | parentheses hopen hinner hclose ih =>
      obtain ⟨n, ih⟩ := ih
      refine ⟨n, fun chars i j hspells _ => ?_⟩
      simp only [spells_append_iff, spells_cons_iff, spells_nil_iff] at hspells
      obtain ⟨hchar, m, hspellsa, o, hspellsw, k, hspellsb, hchar', rfl⟩ := hspells
      have hends := expressionEnds_before hclose hspellsb hchar' rfl
      exact .parentheses hchar (accepts_spaces_before hopen hspellsa hinner hspellsw)
        (ih chars m o hspellsw hends) (accepts_spaces_to hclose hspellsb hchar' rfl) hchar'
  | operand _ ih =>
      obtain ⟨n, ih⟩ := ih
      exact ⟨n + 1, fun chars i j hspells hends =>
        .operand (ih chars i j hspells hends.1) hends⟩
  | unop hgap hoperand ih =>
      obtain ⟨n, ih⟩ := ih
      refine ⟨n + 1, fun chars i j hspells hends => ?_⟩
      obtain ⟨hop, hspells⟩ := hspells
      obtain ⟨k, hspellsa, hspellsw⟩ := spells_append_iff.mp hspells
      have hspaces := accepts_spaces_before hgap hspellsa hoperand hspellsw
      exact .unop hop hspaces (ih chars k j hspellsw hends) hends
  | binop _ hbefore hbehind hright ihleft ihright =>
      obtain ⟨n, ihleft⟩ := ihleft
      obtain ⟨n', ihright⟩ := ihright
      refine ⟨max n n' + 1, fun chars i j hspells hends => ?_⟩
      simp only [spells_append_iff, spells_cons_iff] at hspells
      obtain ⟨k, hspellsl, l, hspellsa, hop, m, hspellsb, hspellsr⟩ := hspells
      have hleft : OperandEnds chars k := by
        refine operandEnds_of_layout hbefore hspellsa fun c hc => ?_
        cases hop.symm.trans hc
        decide
      exact .binop (ihleft chars i k hspellsl hleft)
        (accepts_spaces_to hbefore hspellsa hop rfl) hop
        (accepts_spaces_before hbehind hspellsb hright hspellsr) (ihright chars m j hspellsr hends)
  | @call name ts a b w c hname hblanks hopen harguments hclose ih =>
      obtain ⟨n, ih⟩ := ih
      refine ⟨n, fun chars i j hspells => ?_⟩
      simp only [spells_append_iff, spells_cons_iff, spells_nil_iff] at hspells
      obtain ⟨k, hspellsn, l, hspellsa, hchar, m, hspellsb, o, hspellsw, p, hspellsc, hchar',
        rfl⟩ := hspells
      obtain ⟨_, _, hbefore, hplaced, hbehind⟩ := ih chars (l + 1) b c p hopen hclose
        (hspellsb.append (hspellsw.append hspellsc)) hchar'
      obtain ⟨hname', hblanks'⟩ :=
        accepts_name_blanks hname hspellsn hblanks hspellsa hchar rfl rfl
      exact .call hname' hblanks' hchar hbefore hplaced hbehind hchar'
  | noArguments =>
      refine ⟨1, fun chars i a c j ha hc hspells hclose => ?_⟩
      exact ⟨j, j, accepts_spaces_to (ha.append hc) hspells hclose rfl, .noArguments hclose,
        accepts_spaces_to .nil rfl hclose rfl⟩
  | lastArgument hlast ih =>
      obtain ⟨n, ih⟩ := ih
      refine ⟨n, fun chars i a c j ha hc hspells hclose => ?_⟩
      obtain ⟨k, hspellsa, hspells⟩ := spells_append_iff.mp hspells
      obtain ⟨l, hspellsw, hspellsc⟩ := spells_append_iff.mp hspells
      have hgap := accepts_spaces_to hc hspellsc hclose rfl
      have hends := expressionEnds_before hc hspellsc hclose rfl
      exact ⟨k, l, accepts_spaces_before ha hspellsa hlast hspellsw,
        .lastArgument (ih chars k l hspellsw hends) hgap hclose, hgap⟩
  | moreArguments hfirst hbefore hbehind _ ihfirst ihrest =>
      obtain ⟨n, ihfirst⟩ := ihfirst
      obtain ⟨n', ihrest⟩ := ihrest
      refine ⟨max n n', fun chars i a c j ha hc hspells hclose => ?_⟩
      simp only [spells_append_iff, spells_cons_iff] at hspells
      obtain ⟨k, hspellsa, m, ⟨l, hspellsw, p, hspellsb, hcomma, o, hspellsb', hspellsr⟩,
        hspellsc⟩ := hspells
      obtain ⟨_, q, hspaces, hplaced, hlast⟩ := ihrest chars (p + 1) _ c j hbehind hc
        (hspellsb'.append (hspellsr.append hspellsc)) hclose
      have hends := expressionEnds_before hbefore hspellsb hcomma rfl
      exact ⟨k, q, accepts_spaces_before ha hspellsa hfirst hspellsw,
        .moreArguments (ihfirst chars k l hspellsw hends)
          (accepts_spaces_to hbefore hspellsb hcomma rfl) hcomma hspaces hplaced, hlast⟩
  | assign hname hblanks hgap hvalue ih =>
      obtain ⟨n, ih⟩ := ih
      refine ⟨n, fun chars i j hspells hends => ?_⟩
      simp only [spells_append_iff, spells_cons_iff] at hspells
      obtain ⟨k, hspellsn, l, hspellsa, hsign, m, hspellsb, hspellsw⟩ := hspells
      obtain ⟨hname', hblanks'⟩ :=
        accepts_name_blanks hname hspellsn hblanks hspellsa hsign rfl rfl
      exact .assign hname' hblanks' hsign
        (accepts_spaces_before hgap hspellsb hvalue hspellsw) (ih chars m j hspellsw hends)
  | callStatement hcall ih =>
      obtain ⟨n, ih⟩ := ih
      refine ⟨n, fun chars i j hspells _ => ?_⟩
      have hplaced := ih chars i j hspells
      cases hcall with
      | call hname hblanks =>
          obtain ⟨k, hspellsn, hspells⟩ := spells_append_iff.mp hspells
          obtain ⟨l, hspellsa, hopen, -⟩ := spells_append_iff.mp hspells
          obtain ⟨hname', hblanks'⟩ :=
            accepts_name_blanks hname hspellsn hblanks hspellsa hopen rfl rfl
          exact .callStatement hname' hblanks' hopen hplaced

end Sumscript

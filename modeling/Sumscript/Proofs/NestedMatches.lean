import Mathlib.Data.List.Chain
import Sumscript.Proofs.JoinedPrograms

/-! # What the nesting limit counts

The log of an accepted text shows which limits accept the text. Every expression in it was open
while those inside it were matched, and nothing that was tried in vain was open any longer than
the expressions of the log, but for one kind of attempt: in a list of arguments without any, an
expression is looked for where none is, inside of all that stand around the list. So a limit
accepts the text if no expressions nest deeper in the log, and no such list stands inside as many
expressions as the limit allows.
-/

namespace Sumscript

namespace Token

/-- Whether a token covers nothing that another one does not cover. -/
def Inside (t u : Token) : Prop :=
  u.start ≤ t.start ∧ t.stop ≤ u.stop

instance : Trans Inside Inside Inside where
  trans h h' := ⟨Nat.le_trans h'.1 h.1, Nat.le_trans h.2 h'.2⟩

/-- Whether a token is the match of an expression. -/
def isExpression (t : Token) : Bool :=
  t.label == .rule .expression

/-- Whether a token is the match of a list of arguments without any. -/
def isNoArguments (t : Token) : Bool :=
  t.label == .rule .funcArgs && t.isEmpty

/-- Whether an expression was looked for under a token, found or not. -/
def seeksExpression (t : Token) : Bool :=
  t.isExpression || t.isNoArguments

end Token

/-- Tokens of a log among those that are wanted, each of them inside the match of the next. -/
structure TokenLog.Nested (wanted : Token → Bool) (log : TokenLog) (chain : List Token) : Prop where
  sublist : chain.Sublist (log.filter wanted)
  inside : chain.IsChain Token.Inside

/-! ## Chains of tokens -/

/-- Whether no more than so many of several tokens stand inside each other. -/
def ChainsWithin (marks : List Token) (d : Nat) : Prop :=
  ∀ chain : List Token, chain.Sublist marks → chain.Pairwise Token.Inside → chain.length ≤ d

theorem chainsWithin_filter_iff {wanted : Token → Bool} {log : TokenLog} {d : Nat} :
    ChainsWithin (log.filter wanted) d ↔ ∀ chain, log.Nested wanted chain → chain.length ≤ d := by
  constructor
  · exact fun h chain hchain => h chain hchain.sublist (List.isChain_iff_pairwise.mp hchain.inside)
  · exact fun h chain hsublist hinside => h chain ⟨hsublist, List.isChain_iff_pairwise.mpr hinside⟩

section Chains

variable {marks marks' : List Token} {u : Token} {d : Nat}

/-- A chain cannot go from tokens to others that nothing of them stands inside. -/
theorem chainsWithin_append_iff (h : ∀ t ∈ marks, ∀ u ∈ marks', ¬ t.Inside u) :
    ChainsWithin (marks ++ marks') d ↔ ChainsWithin marks d ∧ ChainsWithin marks' d := by
  constructor
  · intro hall
    exact ⟨fun chain hchain => hall chain (hchain.trans (List.sublist_append_left _ _)),
      fun chain hchain => hall chain (hchain.trans (List.sublist_append_right _ _))⟩
  · rintro ⟨hfirst, hsecond⟩ chain hchain hinside
    obtain ⟨c, c', rfl, hc, hc'⟩ := List.sublist_append_iff.mp hchain
    obtain ⟨hinsidec, hinsidec', hcross⟩ := List.pairwise_append.mp hinside
    rcases c with _ | ⟨t, c⟩
    · exact hsecond _ hc' hinsidec'
    · rcases c' with _ | ⟨u, c'⟩
      · rw [List.append_nil]
        exact hfirst _ hc hinsidec
      · have ht := hc.subset List.mem_cons_self
        have hu := hc'.subset List.mem_cons_self
        exact absurd (hcross t List.mem_cons_self u List.mem_cons_self) (h t ht u hu)

/-- A token around others makes their chains longer by one. -/
theorem chainsWithin_concat_iff (h : ∀ t ∈ marks, t.Inside u) :
    ChainsWithin (marks ++ [u]) d ↔ ∃ e, d = e + 1 ∧ ChainsWithin marks e := by
  constructor
  · intro hall
    have hlonger : ∀ chain : List Token, chain.Sublist marks → chain.Pairwise Token.Inside →
        chain.length + 1 ≤ d := by
      intro chain hchain hinside
      have hpairs : (chain ++ [u]).Pairwise Token.Inside := by
        refine List.pairwise_append.mpr ⟨hinside, List.pairwise_singleton _ _, fun t ht v hv => ?_⟩
        rw [List.mem_singleton.mp hv]
        exact h t (hchain.subset ht)
      have hnext := hall _ (hchain.append (List.Sublist.refl [u])) hpairs
      rwa [List.length_append] at hnext
    have hd := hlonger [] (List.nil_sublist _) List.Pairwise.nil
    refine ⟨d - 1, (Nat.sub_add_cancel hd).symm, fun chain hchain hinside => ?_⟩
    exact Nat.le_sub_one_of_lt (hlonger chain hchain hinside)
  · rintro ⟨e, rfl, hall⟩ chain hchain hinside
    obtain ⟨c, c', rfl, hc, hc'⟩ := List.sublist_append_iff.mp hchain
    have hlength := hall c hc (List.pairwise_append.mp hinside).1
    have hlength' := hc'.length_le
    rw [List.length_append]
    exact Nat.add_le_add hlength hlength'

end Chains

/-- Tokens between two offsets, of which so many stand inside each other at most. All of them
begin before the end. -/
structure Measures (marks : List Token) (i j n : Nat) : Prop where
  bounds : ∀ t ∈ marks, i ≤ t.start ∧ t.start < j ∧ t.stop ≤ j
  depth : ∀ d, ChainsWithin marks d ↔ n ≤ d

namespace Measures

variable {marks marks' : List Token} {i i' j j' k n n' : Nat}

theorem nil : Measures [] i j 0 where
  bounds := List.forall_mem_nil _
  depth d := by
    refine iff_of_true (fun chain hchain _ => ?_) (Nat.zero_le d)
    rw [List.sublist_nil.mp hchain]
    exact Nat.zero_le d

theorem widen (h : Measures marks i j n) (hi : i' ≤ i) (hj : j ≤ j') : Measures marks i' j' n where
  bounds t ht := by
    have := h.bounds t ht
    omega
  depth := h.depth

theorem append (h : Measures marks i k n) (h' : Measures marks' k j n') (hi : i ≤ k)
    (hj : k ≤ j) : Measures (marks ++ marks') i j (max n n') where
  bounds := List.forall_mem_append.mpr
    ⟨(h.widen (Nat.le_refl i) hj).bounds, (h'.widen hi (Nat.le_refl j)).bounds⟩
  depth d := by
    rw [chainsWithin_append_iff, h.depth, h'.depth, Nat.max_le]
    -- The first tokens begin before the offset at which the others begin.
    rintro t ht u hu ⟨hle, -⟩
    have := (h.bounds t ht).2.1
    have := (h'.bounds u hu).1
    omega

theorem concat (h : Measures marks i j n) (hlt : i < j) (label : Label) :
    Measures (marks ++ [⟨label, i, j⟩]) i j (n + 1) where
  bounds := List.forall_mem_append.mpr
    ⟨h.bounds, List.forall_mem_singleton.mpr ⟨Nat.le_refl i, hlt, Nat.le_refl j⟩⟩
  depth d := by
    rw [chainsWithin_concat_iff fun t ht => ⟨(h.bounds t ht).1, (h.bounds t ht).2.2⟩]
    simp only [h.depth]
    constructor
    · rintro ⟨e, rfl, he⟩
      exact Nat.succ_le_succ he
    · intro hd
      exact ⟨d - 1, by omega, by omega⟩

theorem single (label : Label) (hi : i ≤ k) (hj : k < j) : Measures [⟨label, k, k⟩] i j 1 where
  bounds := List.forall_mem_singleton.mpr ⟨hi, hj, Nat.le_of_lt hj⟩
  depth d := by
    rw [← List.nil_append [_], chainsWithin_concat_iff (List.forall_mem_nil _)]
    simp only [(Measures.nil (i := i) (j := j)).depth]
    constructor
    · rintro ⟨e, rfl, -⟩
      exact Nat.le_add_left 1 e
    · intro hd
      exact ⟨d - 1, by omega, Nat.zero_le _⟩

end Measures

/-! ## The tokens of a match -/

theorem Matches.labels {chars : Array Char} {p : Pattern} {i : Nat} {v : Verdict}
    {allowed : Rule → Bool}
    (hproduction : ∀ rule, allowed rule = true → rule.production.callsOnly allowed = true)
    (h : Matches chars p i v) (hp : p.callsOnly allowed = true) :
    match v with
    | .matched _ _ log => ∀ t ∈ log, ∀ rule, t.label = .rule rule → allowed rule = true
    | .failed _ => True := by
  induction h with
  | act => simp
  | @call i j reach rule log _ ih =>
      intro t ht rule' hlabel
      rcases List.mem_append.mp ht with ht | ht
      · exact ih (hproduction rule hp) t ht rule' hlabel
      · cases List.mem_singleton.mp ht
        cases hlabel
        exact hp
  | seq _ _ ih ih' =>
      obtain ⟨hp, hq⟩ := (Bool.and_eq_true _ _).mp hp
      exact List.forall_mem_append.mpr ⟨ih hp, ih' hq⟩
  | @group _ _ v _ ih =>
      cases v with
      | matched => exact ih hp
      | failed => trivial
  | altFirst _ ih => exact ih ((Bool.and_eq_true _ _).mp hp).1
  | altSecond _ _ _ ih => exact ih ((Bool.and_eq_true _ _).mp hp).2
  | starMore _ _ _ ih ih' => exact List.forall_mem_append.mpr ⟨ih hp, ih' hp⟩
  | optSome _ ih => exact ih hp
  | char | range | any | stop | starDone | optNone | notAhead => exact List.forall_mem_nil _
  | _ => trivial

/-- A pattern matches from one offset to another, and these are the places in its match where an
expression was looked for. -/
def Marks (chars : Array Char) (p : Pattern) (i j : Nat) (marks : List Token) : Prop :=
  ∃ log, Succeeds chars p i j log ∧ log.filter Token.seeksExpression = marks

namespace Marks

variable {chars : Array Char} {p q : Pattern} {rule : Rule} {i j k : Nat}
  {marks marks' : List Token}

theorem accepts (h : Marks chars p i j marks) : Accepts chars p i j := by
  obtain ⟨log, hsucceeds, -⟩ := h
  exact hsucceeds.accepts

theorem eq_of_succeeds {log : TokenLog} {j' : Nat} (h : Marks chars p i j marks)
    (hlog : Succeeds chars p i j' log) : j' = j ∧ log.filter Token.seeksExpression = marks := by
  obtain ⟨log', hsucceeds, rfl⟩ := h
  obtain ⟨rfl, rfl⟩ := hlog.unique hsucceeds
  exact ⟨rfl, rfl⟩

/-- What leads to no expression looks for none. -/
theorem plain (hp : p.callsOnly Rule.isPlain = true) (h : Accepts chars p i j) :
    Marks chars p i j [] := by
  obtain ⟨log, hsucceeds⟩ := h
  refine ⟨log, hsucceeds, ?_⟩
  obtain ⟨reach, hmatches⟩ := hsucceeds
  have hlabels := hmatches.labels (by intro rule; cases rule <;> decide) hp
  simp only at hlabels
  refine List.filter_eq_nil_iff.mpr fun t ht hseeks => ?_
  simp only [Token.seeksExpression, Token.isExpression, Token.isNoArguments, Bool.or_eq_true,
    Bool.and_eq_true, beq_iff_eq] at hseeks
  rcases hseeks with hlabel | ⟨hlabel, -⟩
  · exact absurd (hlabels t ht _ hlabel) (by decide)
  · exact absurd (hlabels t ht _ hlabel) (by decide)

theorem token (h : Marks chars rule.production i j marks) :
    Marks chars (.call rule) i j
      (marks ++ [(⟨.rule rule, i, j⟩ : Token)].filter Token.seeksExpression) := by
  obtain ⟨log, hsucceeds, rfl⟩ := h
  exact ⟨_, succeeds_call_iff.mpr ⟨log, hsucceeds, rfl⟩, List.filter_append _ _⟩

theorem call (hrule : (⟨.rule rule, i, j⟩ : Token).seeksExpression = false)
    (h : Marks chars rule.production i j marks) : Marks chars (.call rule) i j marks := by
  have htoken := h.token
  rwa [List.filter_singleton, hrule, cond_false, List.append_nil] at htoken

theorem seek (hrule : (⟨.rule rule, i, j⟩ : Token).seeksExpression = true)
    (h : Marks chars rule.production i j marks) :
    Marks chars (.call rule) i j (marks ++ [⟨.rule rule, i, j⟩]) := by
  have htoken := h.token
  rwa [List.filter_singleton, hrule, cond_true] at htoken

theorem seq (h : Marks chars p i k marks) (h' : Marks chars q k j marks') :
    Marks chars (.seq p q) i j (marks ++ marks') := by
  obtain ⟨log, hsucceeds, rfl⟩ := h
  obtain ⟨log', hsucceeds', rfl⟩ := h'
  exact ⟨_, succeeds_seq_iff.mpr ⟨k, log, log', hsucceeds, hsucceeds', rfl⟩,
    List.filter_append _ _⟩

theorem seq_cases (h : Marks chars (.seq p q) i j marks) :
    ∃ k first second, marks = first ++ second ∧ Marks chars p i k first ∧
      Marks chars q k j second := by
  obtain ⟨log, hsucceeds, rfl⟩ := h
  obtain ⟨k, first, second, hfirst, hsecond, rfl⟩ := succeeds_seq_iff.mp hsucceeds
  exact ⟨k, _, _, List.filter_append _ _, ⟨first, hfirst, rfl⟩, ⟨second, hsecond, rfl⟩⟩

theorem group (h : Marks chars p i j marks) : Marks chars (.group p) i j marks := by
  obtain ⟨log, hsucceeds, rfl⟩ := h
  exact ⟨log, succeeds_group_iff.mpr hsucceeds, rfl⟩

theorem altFirst (h : Marks chars p i j marks) : Marks chars (.alt p q) i j marks := by
  obtain ⟨log, hsucceeds, rfl⟩ := h
  exact ⟨log, succeeds_alt_iff.mpr (.inl hsucceeds), rfl⟩

theorem altSecond (hfails : Fails chars p i) (h : Marks chars q i j marks) :
    Marks chars (.alt p q) i j marks := by
  obtain ⟨log, hsucceeds, rfl⟩ := h
  exact ⟨log, succeeds_alt_iff.mpr (.inr ⟨hfails, hsucceeds⟩), rfl⟩

theorem starDone (hfails : Fails chars p i) : Marks chars (.star p) i i [] :=
  ⟨[], succeeds_star_iff.mpr (.inl ⟨hfails, rfl, rfl⟩), rfl⟩

theorem starMore (h : Marks chars p i k marks) (hlt : i < k)
    (h' : Marks chars (.star p) k j marks') : Marks chars (.star p) i j (marks ++ marks') := by
  obtain ⟨log, hsucceeds, rfl⟩ := h
  obtain ⟨log', hsucceeds', rfl⟩ := h'
  exact ⟨_, succeeds_star_iff.mpr (.inr ⟨k, log, log', hsucceeds, hlt, hsucceeds', rfl⟩),
    List.filter_append _ _⟩

theorem optSome (h : Marks chars p i j marks) : Marks chars (.opt p) i j marks := by
  obtain ⟨log, hsucceeds, rfl⟩ := h
  exact ⟨log, succeeds_opt_iff.mpr (.inl hsucceeds), rfl⟩

theorem optNone (hfails : Fails chars p i) : Marks chars (.opt p) i i [] :=
  ⟨[], succeeds_opt_iff.mpr (.inr ⟨hfails, rfl, rfl⟩), rfl⟩

/-! Parts that look for no expression add nothing. -/

theorem behind (h : Marks chars p i k []) (h' : Marks chars q k j marks) :
    Marks chars (.seq p q) i j marks :=
  h.seq h'

theorem before (h : Marks chars p i k marks) (h' : Marks chars q k j []) :
    Marks chars (.seq p q) i j marks := by
  simpa using h.seq h'

theorem char {a : Char} (hchar : chars[i]? = some a) : Marks chars (.char a) i (i + 1) [] :=
  plain rfl (accepts_char_iff.mpr ⟨hchar, rfl⟩)

theorem act {action : Action} : Marks chars (.act action) i i [] :=
  plain rfl (accepts_act_iff.mpr rfl)

theorem spaces (h : Accepts chars (.call .spaces) i j) : Marks chars (.call .spaces) i j [] :=
  plain rfl h

theorem op (hop : chars[i]? = some '+') : Marks chars (.call .op) i (i + 1) [] :=
  plain rfl (accepts_op_iff.mpr ⟨hop, rfl⟩)

theorem expression (h : Marks chars Rule.expression.production i j marks) :
    Marks chars (.call .expression) i j (marks ++ [⟨.rule .expression, i, j⟩]) :=
  seek rfl h

end Marks

section Phrases

variable {chars : Array Char} {i j k l m n o : Nat} {marks marks' : List Token}

theorem marks_word {p : Pattern} {c : Char} (hchar : chars[i]? = some c)
    (hc : Identifier.continues c = false) (h : Marks chars p i j marks) :
    Marks chars (.alt (.call .literal) (.alt (.call .funcCall) (.alt (.call .variable) p))) i j
      marks := by
  obtain ⟨hnoliteral, hnocall, hnovariable⟩ := fails_word hchar hc
  exact .altSecond hnoliteral (.altSecond hnocall (.altSecond hnovariable h))

theorem marks_literal {name : String} (hname : isNumber name = true)
    (hspells : Spells chars i name.toList j) (hends : OperandEnds chars j) :
    Marks chars (.call .noBinopExpression) i j [] :=
  .call rfl (Marks.plain rfl (accepts_literal hname hspells hends)).altFirst

theorem marks_variable {name : String} (hname : Identifier.isValid name = true)
    (hspells : Spells chars i name.toList j) (hends : OperandEnds chars j) :
    Marks chars (.call .noBinopExpression) i j [] := by
  obtain ⟨c, r, hc, hstarts⟩ := exists_head_of_isValid hname
  have haccepts := accepts_name_iff.mpr ⟨name, hname, hspells, hends.name_ends⟩
  have hvariable : Accepts chars (.call .variable) i j := accepts_variable_iff.mpr haccepts
  have hnocall := fails_funcCall_of_name hname hspells hends
  rw [hc] at hspells
  have hnoliteral := fails_literal_of_starts hspells.1 hstarts
  apply Marks.call rfl
  apply Marks.altSecond hnoliteral
  apply Marks.altSecond hnocall
  exact (Marks.plain rfl hvariable).altFirst

theorem marks_operand_call {c : Char} (hchar : chars[i]? = some c)
    (hc : Identifier.starts c = true) (h : Marks chars (.call .funcCall) i j marks) :
    Marks chars (.call .noBinopExpression) i j marks := by
  apply Marks.call rfl
  apply Marks.altSecond (fails_literal_of_starts hchar hc)
  exact h.altFirst

theorem marks_parentheses (hopen : chars[i]? = some '(')
    (hbefore : Accepts chars (.call .spaces) (i + 1) m)
    (hinner : Marks chars (.call .expression) m o marks)
    (hbehind : Accepts chars (.call .spaces) o k) (hclose : chars[k]? = some ')') :
    Marks chars (.call .noBinopExpression) i (k + 1) marks := by
  have hnounop : Fails chars (.call .unop) i := fails_unop (by rw [hopen]; decide)
  have hclosing := (Marks.spaces hbehind).behind (.char hclose)
  apply Marks.call rfl
  apply marks_word hopen rfl
  apply Marks.altSecond hnounop
  apply Marks.group
  apply (Marks.char hopen).behind
  apply (Marks.spaces hbefore).behind
  exact hinner.before hclosing

theorem marks_unop (hop : chars[i]? = some '+') (hgap : Accepts chars (.call .spaces) (i + 1) k)
    (hoperand : Marks chars (.call .expression) k j marks) :
    Marks chars (.call .noBinopExpression) i j marks := by
  have hunop : Marks chars (.call .unop) i j marks := by
    apply Marks.call rfl
    apply (Marks.op hop).behind
    apply Marks.act.behind
    apply (Marks.spaces hgap).behind
    exact hoperand.before .act
  apply Marks.call rfl
  apply marks_word hop rfl
  exact hunop.altFirst

theorem marks_expression_of_operand (h : Marks chars (.call .noBinopExpression) i j marks)
    (hends : ExpressionEnds chars j) :
    Marks chars (.call .expression) i j (marks ++ [⟨.rule .expression, i, j⟩]) :=
  .expression (.altSecond (fails_binop_of_ends h.accepts hends) h)

theorem marks_operation (hleft : Marks chars (.call .noBinopExpression) i k marks)
    (hbefore : Accepts chars (.call .spaces) k l) (hop : chars[l]? = some '+')
    (hbehind : Accepts chars (.call .spaces) (l + 1) m)
    (hright : Marks chars (.call .expression) m j marks') :
    Marks chars (.call .expression) i j (marks ++ marks' ++ [⟨.rule .expression, i, j⟩]) := by
  have hbinop : Marks chars (.call .binop) i j (marks ++ marks') := by
    apply Marks.call rfl
    apply hleft.seq
    apply (Marks.spaces hbefore).behind
    apply (Marks.op hop).behind
    apply Marks.act.behind
    apply (Marks.spaces hbehind).behind
    exact hright.before .act
  exact .expression hbinop.altFirst

theorem marks_noArguments (hclose : chars[i]? = some ')') :
    Marks chars (.seq (.star .argumentRound) (.opt (.call .funcArg))) i i [] := by
  obtain ⟨hround, hargument⟩ := fails_arguments_of_close hclose
  exact (Marks.starDone hround).behind (.optNone hargument)

theorem marks_funcArg (h : Marks chars (.call .expression) i k marks) :
    Marks chars (.call .funcArg) i k marks :=
  .call rfl (h.before .act)

theorem marks_lastArgument (h : Marks chars (.call .expression) i k marks)
    (hgap : Accepts chars (.call .spaces) k j) (hclose : chars[j]? = some ')') :
    Marks chars (.seq (.star .argumentRound) (.opt (.call .funcArg))) i k marks := by
  have hround := fails_argumentRound_of_last h.accepts hgap hclose
  exact (Marks.starDone hround).behind (marks_funcArg h).optSome

theorem marks_moreArguments (h : Marks chars (.call .expression) i k marks)
    (hbefore : Accepts chars (.call .spaces) k l) (hcomma : chars[l]? = some ',')
    (hbehind : Accepts chars (.call .spaces) (l + 1) m)
    (hrest : Marks chars (.seq (.star .argumentRound) (.opt (.call .funcArg))) m j marks') :
    Marks chars (.seq (.star .argumentRound) (.opt (.call .funcArg))) i j (marks ++ marks') := by
  have hround : Marks chars .argumentRound i m marks := by
    apply (marks_funcArg h).before
    apply (Marks.spaces hbefore).behind
    apply (Marks.char hcomma).behind
    exact Marks.spaces hbehind
  obtain ⟨o, first, second, rfl, hstar, hlast⟩ := hrest.seq_cases
  rw [← List.append_assoc]
  exact (hround.starMore (hround.accepts.lt rfl) hstar).seq hlast

theorem marks_funcCall (hname : Accepts chars (.call .name) i k)
    (hblanks : Accepts chars (.call .simpleSpaces) k l) (hopen : chars[l]? = some '(')
    (hbefore : Accepts chars (.call .spaces) (l + 1) m)
    (harguments : Marks chars (.call .funcArgs) m o marks)
    (hbehind : Accepts chars (.call .spaces) o j) (hclose : chars[j]? = some ')') :
    Marks chars (.call .funcCall) i (j + 1) marks := by
  have hclosing := (Marks.spaces hbehind).behind (.char hclose)
  apply Marks.call rfl
  apply (Marks.plain rfl hname).behind
  apply Marks.act.behind
  apply (Marks.plain rfl hblanks).behind
  apply (Marks.char hopen).behind
  apply (Marks.spaces hbefore).behind
  exact harguments.before hclosing

theorem marks_assign (hname : Accepts chars (.call .name) i k)
    (hblanks : Accepts chars (.call .simpleSpaces) k l) (hsign : chars[l]? = some '=')
    (hgap : Accepts chars (.call .spaces) (l + 1) m)
    (hvalue : Marks chars (.call .expression) m j marks) :
    Marks chars (.call .statement) i j marks := by
  have hassign : Marks chars (.call .assign) i j marks := by
    apply Marks.call rfl
    apply (Marks.plain rfl (accepts_variable_iff.mpr hname)).behind
    apply (Marks.plain rfl hblanks).behind
    apply (Marks.char hsign).behind
    apply (Marks.spaces hgap).behind
    exact hvalue.before .act
  exact .call rfl (hassign.altFirst.before .act)

theorem marks_callStatement (hname : Accepts chars (.call .name) i k)
    (hblanks : Accepts chars (.call .simpleSpaces) k l) (hopen : chars[l]? = some '(')
    (hcall : Marks chars (.call .funcCall) i j marks) :
    Marks chars (.call .statement) i j marks := by
  have hnoassign := fails_assign_of_call hname hblanks hopen
  exact .call rfl ((Marks.altSecond hnoassign hcall).before .act)

end Phrases

theorem Placed.accepts {chars : Array Char} {phrase : Phrase} {i j n : Nat}
    (h : Placed chars phrase i j n) : Accepts chars phrase.pattern i j :=
  h.nests.accepts

/-- An expression is open inside itself. -/
theorem Placed.pos_of_expression {chars : Array Char} {t : Node} {i j n : Nat}
    (h : Placed chars (.expression t) i j n) : 1 ≤ n := by
  cases h with
  | operand | unop | binop => exact Nat.le_add_left 1 _

theorem Placed.lt_of_arguments {chars : Array Char} {t : Node} {ts : List Node} {i j n : Nat}
    (h : Placed chars (.arguments (t :: ts)) i j n) : i < j := by
  cases h with
  | lastArgument hlast => exact hlast.accepts.lt rfl
  | moreArguments hfirst hbefore _ hbehind hrest =>
      have := hfirst.accepts.lt rfl
      have := hbefore.le
      have := hbehind.le
      have := hrest.accepts.le
      omega

/-- In a phrase as many expressions are found or looked for in vain inside each other as are open
at once. A list without arguments is marked by its own match, not by what it holds. -/
def Phrase.Marked (chars : Array Char) (i j n : Nat) : Phrase → Prop
  | .arguments [] => i = j ∧ n = 1 ∧ Marks chars (Phrase.arguments []).pattern i j []
  | phrase => ∃ marks, Marks chars phrase.pattern i j marks ∧ Measures marks i j n

theorem Phrase.Marked.funcArgs {chars : Array Char} {ts : List Node} {i j n : Nat}
    (h : (Phrase.arguments ts).Marked chars i j n) (hplaced : Placed chars (.arguments ts) i j n) :
    ∃ marks, Marks chars (.call .funcArgs) i j marks ∧ Measures marks i (j + 1) n := by
  cases ts with
  | nil =>
      obtain ⟨rfl, rfl, hmarks⟩ := h
      have hempty : (⟨.rule .funcArgs, i, i⟩ : Token).seeksExpression = true := by
        simp [Token.seeksExpression, Token.isNoArguments, Token.isEmpty]
      exact ⟨_, .seek hempty hmarks, .single _ (Nat.le_refl i) (Nat.lt_succ_self i)⟩
  | cons t ts =>
      obtain ⟨marks, hmarks, hmeasures⟩ := h
      have hlt := hplaced.lt_of_arguments
      have hfilled : (⟨.rule .funcArgs, i, j⟩ : Token).seeksExpression = false := by
        simp [Token.seeksExpression, Token.isExpression, Token.isNoArguments, Token.isEmpty,
          Nat.ne_of_lt hlt]
      exact ⟨marks, .call hfilled hmarks, hmeasures.widen (Nat.le_refl i) (Nat.le_succ j)⟩

theorem Placed.marked {chars : Array Char} {phrase : Phrase} {i j n : Nat}
    (h : Placed chars phrase i j n) : phrase.Marked chars i j n := by
  induction h with
  | literal hname hspells hends => exact ⟨_, marks_literal hname hspells hends, .nil⟩
  | «variable» hname hspells hends => exact ⟨_, marks_variable hname hspells hends, .nil⟩
  | callOperand hchar hc _ ih =>
      obtain ⟨marks, hmarks, hmeasures⟩ := ih
      exact ⟨marks, marks_operand_call hchar hc hmarks, hmeasures⟩
  | parentheses hopen hbefore _ hbehind hclose ih =>
      obtain ⟨marks, hmarks, hmeasures⟩ := ih
      have := hbefore.le
      have := hbehind.le
      exact ⟨marks, marks_parentheses hopen hbefore hmarks hbehind hclose,
        hmeasures.widen (by omega) (by omega)⟩
  | operand hoperand hends ih =>
      obtain ⟨marks, hmarks, hmeasures⟩ := ih
      exact ⟨_, marks_expression_of_operand hmarks hends,
        hmeasures.concat (hoperand.accepts.lt rfl) _⟩
  | unop hop hgap hoperand hends ih =>
      obtain ⟨marks, hmarks, hmeasures⟩ := ih
      have := hgap.le
      have := hoperand.accepts.le
      exact ⟨_, marks_expression_of_operand (marks_unop hop hgap hmarks) hends,
        (hmeasures.widen (by omega) (Nat.le_refl _)).concat (by omega) _⟩
  | binop hleft hbefore hop hbehind hright ihleft ihright =>
      obtain ⟨marks, hmarks, hmeasures⟩ := ihleft
      obtain ⟨marks', hmarks', hmeasures'⟩ := ihright
      have := hleft.accepts.lt rfl
      have := hbefore.le
      have := hbehind.le
      have := hright.accepts.le
      have hboth := hmeasures.append (hmeasures'.widen (by omega) (Nat.le_refl _)) (by omega)
        (by omega)
      exact ⟨_, marks_operation hmarks hbefore hop hbehind hmarks', hboth.concat (by omega) _⟩
  | call hname hblanks hopen hbefore harguments hbehind hclose ih =>
      obtain ⟨marks, hmarks, hmeasures⟩ := ih.funcArgs harguments
      have := hname.le
      have := hblanks.le
      have := hbefore.le
      have := hbehind.le
      exact ⟨marks, marks_funcCall hname hblanks hopen hbefore hmarks hbehind hclose,
        hmeasures.widen (by omega) (by omega)⟩
  | noArguments hclose => exact ⟨rfl, rfl, marks_noArguments hclose⟩
  | lastArgument _ hgap hclose ih =>
      obtain ⟨marks, hmarks, hmeasures⟩ := ih
      exact ⟨marks, marks_lastArgument hmarks hgap hclose, hmeasures⟩
  | @moreArguments t ts i j k l m n n' hfirst hbefore hcomma hbehind hrest ihfirst ihrest =>
      obtain ⟨marks, hmarks, hmeasures⟩ := ihfirst
      have := hbefore.le
      have := hbehind.le
      have := hrest.accepts.le
      cases ts with
      | nil =>
          -- The comma ends the list, and the argument before it counts as much as its end.
          obtain ⟨rfl, rfl, hmarks'⟩ := ihrest
          rw [Nat.max_eq_left hfirst.pos_of_expression]
          have hboth := marks_moreArguments hmarks hbefore hcomma hbehind hmarks'
          rw [List.append_nil] at hboth
          exact ⟨marks, hboth, hmeasures.widen (Nat.le_refl i) (by omega)⟩
      | cons t' ts =>
          obtain ⟨marks', hmarks', hmeasures'⟩ := ihrest
          have := hfirst.accepts.le
          exact ⟨_, marks_moreArguments hmarks hbefore hcomma hbehind hmarks',
            hmeasures.append (hmeasures'.widen (by omega) (Nat.le_refl _)) (by omega) (by omega)⟩
  | assign hname hblanks hsign hgap _ ih =>
      obtain ⟨marks, hmarks, hmeasures⟩ := ih
      have := hname.le
      have := hblanks.le
      have := hgap.le
      exact ⟨marks, marks_assign hname hblanks hsign hgap hmarks,
        hmeasures.widen (by omega) (Nat.le_refl _)⟩
  | callStatement hname hblanks hopen _ ih =>
      obtain ⟨marks, hmarks, hmeasures⟩ := ih
      exact ⟨marks, marks_callStatement hname hblanks hopen hmarks, hmeasures⟩

/-! ## The tokens of a program -/

section Programs

variable {chars : Array Char} {i j k n : Nat} {marks : List Token} {ts : List Node}

theorem Marks.statementRound_star (hseparator : Accepts chars (.call .statementSep) i k)
    (h : Marks chars (.seq (.call .statement) (.star .statementRound)) k j marks) :
    Marks chars (.star .statementRound) i j marks := by
  obtain ⟨m, first, second, rfl, hstatement, hstar⟩ := h.seq_cases
  have hround : Marks chars .statementRound i m first :=
    (Marks.plain rfl hseparator).behind hstatement
  exact hround.starMore (hround.accepts.lt rfl) hstar

theorem PlacedStatements.marked (h : PlacedStatements chars ts i j n)
    (hdone : Fails chars .statementRound j) :
    ∃ marks, Marks chars (.seq (.call .statement) (.star .statementRound)) i j marks ∧
      Measures marks i j n := by
  induction h with
  | last hlast =>
      obtain ⟨marks, hmarks, hmeasures⟩ := hlast.marked
      exact ⟨marks, hmarks.before (.starDone hdone), hmeasures⟩
  | more hfirst hseparator _ ih =>
      obtain ⟨marks, hmarks, hmeasures⟩ := hfirst.marked
      obtain ⟨marks', hmarks', hmeasures'⟩ := ih hdone
      have hle := hfirst.accepts.le
      have hle' := hmarks'.accepts.le
      have hgap := hseparator.le
      exact ⟨_, hmarks.seq (.statementRound_star hseparator hmarks'),
        hmeasures.append (hmeasures'.widen hgap (Nat.le_refl _)) hle (by omega)⟩

/-- Around the statements of a program nothing looks for an expression. -/
theorem Marks.program {log : TokenLog} {stop : Nat}
    (h : Marks chars (.seq (.call .statement) (.star .statementRound)) i j marks)
    (hbefore : Accepts chars (.call .spaces) 0 i)
    (hlog : Succeeds chars (.call .program) 0 stop log) :
    log.filter Token.seeksExpression = marks := by
  obtain ⟨own, hbody, rfl⟩ := succeeds_call_iff.mp hlog
  obtain ⟨k, first, second, hspaces, hmore, rfl⟩ := succeeds_seq_iff.mp hbody
  obtain ⟨l, third, fourth, hstatements, hrest, rfl⟩ := succeeds_seq_iff.mp hmore
  obtain rfl := hspaces.accepts.unique hbefore
  have hfirst := ((Marks.plain rfl hspaces.accepts).eq_of_succeeds hspaces).2
  have hthird := ((Marks.call rfl h).eq_of_succeeds hstatements).2
  have hfourth := ((Marks.plain rfl hrest.accepts).eq_of_succeeds hrest).2
  have hown : [(⟨.rule .program, 0, stop⟩ : Token)].filter Token.seeksExpression = [] := rfl
  simp only [List.filter_append, hfirst, hthird, hfourth, hown, List.nil_append, List.append_nil]

end Programs

/-- A limit accepts a text exactly if no chain of expressions in its log, each inside the next, is
longer than the limit, where a list without arguments counts as one more expression: there one is
looked for in vain. A limit that does not accept the text is what the text is refused for. Where
no list is without arguments, the expressions alone decide. -/
theorem tokenize_counts_nesting (chars : Array Char) (maxDepth : Nat) (log : TokenLog)
    (h : tokenize maxDepth chars = .ok log) (limit : Nat) :
    (tokenize limit chars = .ok log ↔
      ∀ chain, log.Nested Token.seeksExpression chain → chain.length ≤ limit) ∧
    (tokenize limit chars ≠ .ok log → ∃ offset, tokenize limit chars =
      .error (.ofToken (.nestingLimit limit) ⟨.rule .expression, offset, offset⟩ chars)) ∧
    ((∀ t ∈ log, t.isNoArguments = false) → (tokenize limit chars = .ok log ↔
      ∀ chain, log.Nested Token.isExpression chain → chain.length ≤ limit)) := by
  obtain ⟨stop, hsucceeds⟩ := succeeds_of_tokenize h
  obtain ⟨t, -, hrendering⟩ := programFound hsucceeds.accepts
  obtain ⟨i, j, n, hbefore, hplaced, hdone, hnests⟩ := hrendering.exists_placed
  obtain ⟨marks, hmarks, hmeasures⟩ := hplaced.marked hdone
  obtain rfl := hmarks.program hbefore hsucceeds
  have hopen : tokenize chars.size chars = .ok log :=
    tokenize_of_succeeds hsucceeds (Nat.le_refl _)
  obtain ⟨hroom, hpast⟩ := hnests.tokenize_eq limit
  have haccepts : tokenize limit chars = .ok log ↔ n ≤ limit := by
    constructor
    · intro hok
      refine Nat.not_lt.mp fun hlt => ?_
      obtain ⟨offset, herror⟩ := hpast hlt
      rw [herror] at hok
      cases hok
    · exact fun hle => (hroom hle).trans hopen
  refine ⟨?_, fun hrefused => ?_, fun hlists => ?_⟩
  · rw [haccepts, ← hmeasures.depth, chainsWithin_filter_iff]
  · exact hpast (Nat.not_le.mp fun hle => hrefused (haccepts.mpr hle))
  · have hsame : log.filter Token.isExpression = log.filter Token.seeksExpression := by
      refine List.filter_congr fun t ht => ?_
      rw [Token.seeksExpression, hlists t ht, Bool.or_false]
    rw [haccepts, ← hmeasures.depth, ← hsame, chainsWithin_filter_iff]

/-- The value is one expression, and the empty list in it counts as a second one. -/
theorem tokenize_counts_nesting_noArguments : ∃ log,
    tokenize 7 "a = f()".toList.toArray = .ok log ∧
    log.Nested Token.seeksExpression [⟨.rule .funcArgs, 6, 6⟩, ⟨.rule .expression, 4, 7⟩] ∧
    ∃ offset, tokenize 1 "a = f()".toList.toArray = .error (.ofToken (.nestingLimit 1)
      ⟨.rule .expression, offset, offset⟩ "a = f()".toList.toArray) := by
  have hmarks : (tokenize 7 "a = f()".toList.toArray).toOption.map
      (·.filter Token.seeksExpression) =
        some [⟨.rule .funcArgs, 6, 6⟩, ⟨.rule .expression, 4, 7⟩] := by decide +kernel
  cases hlog : tokenize 7 "a = f()".toList.toArray with
  | error e =>
      rw [hlog] at hmarks
      cases hmarks
  | ok log =>
      rw [hlog] at hmarks
      have hfilter : log.filter Token.seeksExpression =
          [⟨.rule .funcArgs, 6, 6⟩, ⟨.rule .expression, 4, 7⟩] := Option.some.inj hmarks
      have hchain : log.Nested Token.seeksExpression
          [⟨.rule .funcArgs, 6, 6⟩, ⟨.rule .expression, 4, 7⟩] := by
        refine ⟨?_, List.isChain_pair.mpr ⟨by decide, by decide⟩⟩
        rw [hfilter]
      obtain ⟨haccepts, hrefused, -⟩ := tokenize_counts_nesting _ 7 log hlog 1
      refine ⟨log, rfl, hchain, hrefused fun hok => ?_⟩
      exact absurd (haccepts.mp hok _ hchain) (by decide)

/-- The expressions of a log alone do not decide which limits accept the text. -/
theorem tokenize_refuses_noArguments : ¬ ∀ (chars : Array Char) (maxDepth : Nat) (log : TokenLog),
    tokenize maxDepth chars = .ok log → ∀ limit, (∃ log', tokenize limit chars = .ok log') ↔
      ∀ chain, log.Nested Token.isExpression chain → chain.length ≤ limit := by
  intro hall
  have hone : (tokenize 7 "a = f()".toList.toArray).toOption.map
      (fun log => (log.filter Token.isExpression).length) = some 1 := by decide +kernel
  have hrefused : (tokenize 1 "a = f()".toList.toArray).toOption = none := by decide +kernel
  cases hlog : tokenize 7 "a = f()".toList.toArray with
  | error e =>
      rw [hlog] at hone
      cases hone
  | ok log =>
      rw [hlog] at hone
      have hchains : ∀ chain, log.Nested Token.isExpression chain → chain.length ≤ 1 := by
        intro chain hchain
        rw [← Option.some.inj hone]
        exact hchain.sublist.length_le
      obtain ⟨log', hok⟩ := (hall _ 7 log hlog 1).mpr hchains
      rw [hok] at hrefused
      cases hrefused

end Sumscript

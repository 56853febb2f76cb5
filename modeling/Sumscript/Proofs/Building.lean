import Sumscript.Proofs.SeparatorRule
import Sumscript.Tree.Builder

/-! # What a match builds

A match and the replay of its log are followed together: while a pattern matches from one offset
to another, the builder goes from one state to another. Rules for layout and characters leave it
as it is, a rule for a phrase adds the tree of the phrase.
-/

namespace Sumscript

namespace Rule

/-- Whether a rule and all rules it calls log neither actions nor texts that actions take. -/
def isSilent : Rule → Bool
  | .statementSep | .alphaChar | .digit | .alphaNumericChar | .comment | .spaces | .space
  | .simpleSpaces | .simpleSpace | .newline | .endOfInput => true
  | _ => false

end Rule

namespace Pattern

/-- Whether a pattern logs neither actions nor texts that actions take. -/
def isSilent : Pattern → Bool
  | .char _ | .range _ _ | .any | .stop => true
  | .act _ => false
  | .call rule => rule.isSilent
  | .seq p q | .alt p q => p.isSilent && q.isSilent
  | .group p | .star p | .opt p | .notAhead p => p.isSilent

theorem isSilent_production (rule : Rule) (h : rule.isSilent = true) :
    rule.production.isSilent = true := by
  cases rule <;> revert h <;> decide

end Pattern

theorem Rule.capturesText_eq_false (rule : Rule) (h : rule.isSilent = true) :
    rule.capturesText = false := by
  cases rule <;> revert h <;> decide

/-- The builder and the text that waits for its next action. -/
abbrev Progress := Option String × Builder

/-- A log takes the builder from one state to another. -/
def Leads (chars : Array Char) (log : TokenLog) (s s' : Progress) : Prop :=
  ∀ rest, Builder.applyLog chars (log ++ rest) s.1 s.2 = Builder.applyLog chars rest s'.1 s'.2

/-- A pattern matches from one offset to another and takes the builder from one state to
another. -/
def Builds (chars : Array Char) (p : Pattern) (i j : Nat) (s s' : Progress) : Prop :=
  ∃ log, Succeeds chars p i j log ∧ Leads chars log s s'

section Leads

variable {chars : Array Char} {log log' : TokenLog} {s s' s'' : Progress} {i j : Nat}

theorem Leads.nil : Leads chars [] s s :=
  fun _ => rfl

theorem Leads.append (h : Leads chars log s s') (h' : Leads chars log' s' s'') :
    Leads chars (log ++ log') s s'' := by
  intro rest
  rw [List.append_assoc, h, h']

theorem leads_rule {rule : Rule} (hrule : rule.capturesText = false) :
    Leads chars [⟨.rule rule, i, j⟩] s s := by
  intro rest
  simp only [List.singleton_append, Builder.applyLog, hrule]
  rfl

theorem leads_capture {rule : Rule} (hrule : rule.capturesText = true) {name : String}
    (hspells : Spells chars i name.toList j) :
    Leads chars [⟨.rule rule, i, j⟩] s (some name, s.2) := by
  intro rest
  simp only [List.singleton_append, Builder.applyLog, hrule, hspells.text_eq, String.ofList_toList]
  rfl

theorem leads_act {action : Action} {b : Builder}
    (happly : s.2.apply action (if action.needsText then s.1 else none) = (b, none)) :
    Leads chars [⟨.action action, i, j⟩] s (if action.needsText then none else s.1, b) := by
  intro rest
  simp only [List.singleton_append, Builder.applyLog, happly]

/-- A silent pattern leaves the builder as it is. -/
theorem leads_of_isSilent {p : Pattern} {v : Verdict} (h : Matches chars p i v)
    (hp : p.isSilent = true) :
    match v with
    | .matched _ _ log => Leads chars log s s
    | .failed _ => True := by
  induction h with
  | call _ ih =>
      have hrule := Rule.capturesText_eq_false _ hp
      exact (ih (Pattern.isSilent_production _ hp)).append (leads_rule hrule)
  | seq _ _ ih ih' =>
      obtain ⟨hp, hq⟩ := (Bool.and_eq_true _ _).mp hp
      exact (ih hp).append (ih' hq)
  | altFirst _ ih => exact ih ((Bool.and_eq_true _ _).mp hp).1
  | altSecond _ _ _ ih' => exact ih' ((Bool.and_eq_true _ _).mp hp).2
  | @group _ _ v _ ih =>
      cases v with
      | matched => exact ih hp
      | failed => trivial
  | starMore _ _ _ ih ih' => exact (ih hp).append (ih' hp)
  | optSome _ ih => exact ih hp
  | act => cases hp
  | char | range | any | stop | starDone | optNone | notAhead => exact .nil
  | _ => trivial

end Leads

section Builds

variable {chars : Array Char} {p q : Pattern} {i j k : Nat} {s s' s'' : Progress}

theorem Builds.accepts (h : Builds chars p i j s s') : Accepts chars p i j := by
  obtain ⟨log, hsucceeds, -⟩ := h
  exact ⟨log, hsucceeds⟩

theorem Accepts.builds (h : Accepts chars p i j) (hp : p.isSilent = true) :
    Builds chars p i j s s := by
  obtain ⟨log, reach, hmatches⟩ := h
  exact ⟨log, ⟨reach, hmatches⟩, leads_of_isSilent hmatches hp⟩

theorem Builds.char {c : Char} (hchar : chars[i]? = some c) :
    Builds chars (.char c) i (i + 1) s s :=
  Accepts.builds (accepts_char_iff.mpr ⟨hchar, rfl⟩) rfl

theorem Builds.act {action : Action} {b : Builder}
    (happly : s.2.apply action (if action.needsText then s.1 else none) = (b, none)) :
    Builds chars (.act action) i i s (if action.needsText then none else s.1, b) :=
  ⟨_, succeeds_act_iff.mpr ⟨rfl, rfl⟩, leads_act happly⟩

theorem Builds.call {rule : Rule} (hrule : rule.capturesText = false)
    (h : Builds chars rule.production i j s s') : Builds chars (.call rule) i j s s' := by
  obtain ⟨log, hsucceeds, hleads⟩ := h
  exact ⟨_, succeeds_call_iff.mpr ⟨log, hsucceeds, rfl⟩, hleads.append (leads_rule hrule)⟩

/-- A rule that captures its text keeps it for the next action. -/
theorem Accepts.captures {rule : Rule} {name : String} (h : Accepts chars (.call rule) i j)
    (hrule : rule.capturesText = true) (hsilent : rule.production.isSilent = true)
    (hspells : Spells chars i name.toList j) :
    Builds chars (.call rule) i j s (some name, s.2) := by
  have hbody : Builds chars rule.production i j s s := (accepts_call_iff.mp h).builds hsilent
  obtain ⟨log, hsucceeds, hleads⟩ := hbody
  exact ⟨_, succeeds_call_iff.mpr ⟨log, hsucceeds, rfl⟩,
    hleads.append (leads_capture hrule hspells)⟩

theorem Builds.op (hchar : chars[i]? = some '+') :
    Builds chars (.call .op) i (i + 1) s (some "+", s.2) := by
  have hop : Accepts chars (.call .op) i (i + 1) :=
    accepts_call_iff.mpr (accepts_char_iff.mpr ⟨hchar, rfl⟩)
  have hspells : Spells chars i "+".toList (i + 1) := ⟨hchar, rfl⟩
  exact hop.captures rfl rfl hspells

theorem Builds.seq (h : Builds chars p i k s s') (h' : Builds chars q k j s' s'') :
    Builds chars (.seq p q) i j s s'' := by
  obtain ⟨log, hsucceeds, hleads⟩ := h
  obtain ⟨log', hsucceeds', hleads'⟩ := h'
  exact ⟨_, succeeds_seq_iff.mpr ⟨k, log, log', hsucceeds, hsucceeds', rfl⟩, hleads.append hleads'⟩

theorem Builds.altFirst (h : Builds chars p i j s s') : Builds chars (.alt p q) i j s s' := by
  obtain ⟨log, hsucceeds, hleads⟩ := h
  exact ⟨log, succeeds_alt_iff.mpr (.inl hsucceeds), hleads⟩

theorem Builds.altSecond (hfails : Fails chars p i) (h : Builds chars q i j s s') :
    Builds chars (.alt p q) i j s s' := by
  obtain ⟨log, hsucceeds, hleads⟩ := h
  exact ⟨log, succeeds_alt_iff.mpr (.inr ⟨hfails, hsucceeds⟩), hleads⟩

theorem Builds.group (h : Builds chars p i j s s') : Builds chars (.group p) i j s s' := by
  obtain ⟨log, hsucceeds, hleads⟩ := h
  exact ⟨log, succeeds_group_iff.mpr hsucceeds, hleads⟩

theorem Builds.optSome (h : Builds chars p i j s s') : Builds chars (.opt p) i j s s' := by
  obtain ⟨log, hsucceeds, hleads⟩ := h
  exact ⟨log, succeeds_opt_iff.mpr (.inl hsucceeds), hleads⟩

theorem Builds.optNone (hfails : Fails chars p i) : Builds chars (.opt p) i i s s :=
  ⟨[], succeeds_opt_iff.mpr (.inr ⟨hfails, rfl, rfl⟩), .nil⟩

theorem Builds.starDone (hfails : Fails chars p i) : Builds chars (.star p) i i s s :=
  ⟨[], succeeds_star_iff.mpr (.inl ⟨hfails, rfl, rfl⟩), .nil⟩

theorem Builds.starMore (h : Builds chars p i k s s') (hlt : i < k)
    (h' : Builds chars (.star p) k j s' s'') : Builds chars (.star p) i j s s'' := by
  obtain ⟨log, hsucceeds, hleads⟩ := h
  obtain ⟨log', hsucceeds', hleads'⟩ := h'
  exact ⟨_, succeeds_star_iff.mpr (.inr ⟨k, log, log', hsucceeds, hlt, hsucceeds', rfl⟩),
    hleads.append hleads'⟩

theorem Builds.starMore_seq (h : Builds chars p i k s s') (hlt : i < k)
    (h' : Builds chars (.seq (.star p) q) k j s' s'') :
    Builds chars (.seq (.star p) q) i j s s'' := by
  obtain ⟨log, hsucceeds, hleads⟩ := h
  obtain ⟨log', hsucceeds', hleads'⟩ := h'
  obtain ⟨m, first, second, hfirst, hsecond, rfl⟩ := succeeds_seq_iff.mp hsucceeds'
  have hstar : Succeeds chars (.star p) i m (log ++ first) :=
    succeeds_star_iff.mpr (.inr ⟨k, log, first, hsucceeds, hlt, hfirst, rfl⟩)
  refine ⟨log ++ (first ++ second), ?_, hleads.append hleads'⟩
  exact succeeds_seq_iff.mpr ⟨m, _, second, hstar, hsecond, (List.append_assoc _ _ _).symm⟩

end Builds

/-- A pattern reads an expression or an assignment and puts its tree on the stack. -/
def Parses (chars : Array Char) (p : Pattern) (i j : Nat) (t : Node) : Prop :=
  ∀ s, Builds chars p i j s (none, s.2.push t)

/-- A pattern reads arguments and adds their trees to the call on top of the stack. -/
def ParsesArguments (chars : Array Char) (p : Pattern) (i j : Nat) (ts : List Node) : Prop :=
  ∀ root name done stack, Builds chars p i j (none, ⟨root, ⟨.call, name, done⟩ :: stack⟩)
    (none, ⟨root, ⟨.call, name, done ++ ts⟩ :: stack⟩)

/-- A pattern reads statements and adds their trees to the root. -/
def ParsesStatements (chars : Array Char) (p : Pattern) (i j : Nat) (ts : List Node) : Prop :=
  ∀ root, Builds chars p i j (none, ⟨root, []⟩)
    (none, ⟨{ root with children := root.children ++ ts }, []⟩)

section Phrases

variable {chars : Array Char} {p : Pattern} {i j k l m n : Nat} {t : Node} {ts : List Node}
variable {name : String}

theorem Parses.accepts (h : Parses chars p i j t) : Accepts chars p i j :=
  (h (none, .empty)).accepts

theorem parses_literal (hnumber : Accepts chars (.call .number) i j)
    (hspells : Spells chars i name.toList j) :
    Parses chars (.call .literal) i j (.leaf .literal name) :=
  fun _ => .call rfl (.seq (hnumber.captures rfl rfl hspells) (.act rfl))

theorem parses_variable (hname : Accepts chars (.call .name) i j)
    (hspells : Spells chars i name.toList j) :
    Parses chars (.call .variable) i j (.leaf .variable name) :=
  fun _ => .call rfl (.seq (hname.captures rfl rfl hspells) (.act rfl))

theorem parses_funcCall (hname : Accepts chars (.call .name) i k)
    (hspells : Spells chars i name.toList k) (hblanks : Accepts chars (.call .simpleSpaces) k l)
    (hopen : chars[l]? = some '(') (hbefore : Accepts chars (.call .spaces) (l + 1) m)
    (harguments : ParsesArguments chars (.call .funcArgs) m n ts)
    (hbehind : Accepts chars (.call .spaces) n j) (hclose : chars[j]? = some ')') :
    Parses chars (.call .funcCall) i (j + 1) ⟨.call, name, ts⟩ :=
  fun s => .call rfl (.seq (hname.captures rfl rfl hspells) (.seq (.act rfl)
    (.seq (hblanks.builds rfl) (.seq (.char hopen) (.seq (hbefore.builds rfl)
      (.seq (harguments s.2.root name [] s.2.stack)
        (.seq (hbehind.builds rfl) (.char hclose))))))))

theorem parsesArguments_funcArg (h : Parses chars (.call .expression) i j t) :
    ParsesArguments chars (.call .funcArg) i j [t] :=
  fun _ _ _ _ => .call rfl (.seq (h _) (.act rfl))

theorem parses_unop (hop : chars[i]? = some '+') (hgap : Accepts chars (.call .spaces) (i + 1) k)
    (h : Parses chars (.call .expression) k j t) :
    Parses chars (.call .unop) i j ⟨.unop, "+", [t]⟩ :=
  fun _ => .call rfl (.seq (.op hop) (.seq (.act rfl)
    (.seq (hgap.builds rfl) (.seq (h _) (.act rfl)))))

theorem parses_binop {left right : Node}
    (hleft : Parses chars (.call .noBinopExpression) i k left)
    (hbefore : Accepts chars (.call .spaces) k l) (hop : chars[l]? = some '+')
    (hbehind : Accepts chars (.call .spaces) (l + 1) m)
    (hright : Parses chars (.call .expression) m j right) :
    Parses chars (.call .binop) i j ⟨.binop, "+", [left, right]⟩ :=
  fun _ => .call rfl (.seq (hleft _) (.seq (hbefore.builds rfl)
    (.seq (.op hop) (.seq (.act rfl)
      (.seq (hbehind.builds rfl) (.seq (hright _) (.act rfl)))))))

theorem parses_assign (hname : Accepts chars (.call .name) i k)
    (hspells : Spells chars i name.toList k) (hblanks : Accepts chars (.call .simpleSpaces) k l)
    (hsign : chars[l]? = some '=') (hgap : Accepts chars (.call .spaces) (l + 1) m)
    (hvalue : Parses chars (.call .expression) m j t) :
    Parses chars (.call .assign) i j ⟨.assign, "", [.leaf .variable name, t]⟩ :=
  fun _ => .call rfl (.seq (parses_variable hname hspells _) (.seq (hblanks.builds rfl)
    (.seq (.char hsign) (.seq (hgap.builds rfl) (.seq (hvalue _) (.act rfl))))))

theorem parsesStatements_statement
    (h : Parses chars (.alt (.call .assign) (.call .funcCall)) i j t) :
    ParsesStatements chars (.call .statement) i j [t] :=
  fun _ => .call rfl (.seq (h _) (.act rfl))

end Phrases

end Sumscript

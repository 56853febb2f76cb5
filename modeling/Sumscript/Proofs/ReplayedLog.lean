import Sumscript.Proofs.BuilderMoves
import Sumscript.Proofs.ParsedText

/-! # The log of a match always builds a tree

A builder goes through a log one token at a time. In the log of a whole match each action finds
the nodes that it needs: a statement is attached when it is the only node in progress, and an
action that takes a text stands right behind the token of the name, number or sign that it is
about.
-/

namespace Sumscript

/-- The rule whose text an action takes. -/
def Action.lexeme? : Action → Option Rule
  | .addVariable | .addFuncCall => some .name
  | .addLiteral => some .number
  | .startUnop | .addBinopName => some .op
  | _ => none

namespace Builder

/-- What one token of a log does. A captured text waits for the next action that takes one. -/
def replayToken (chars : Array Char) (s : Progress) (token : Token) :
    Except BuildError Progress :=
  match token.label with
  | .action action =>
    match s.2.apply action (if action.needsText then s.1 else none) with
    | (_, some error) => .error error
    | (b, none) => .ok (if action.needsText then none else s.1, b)
  | .rule rule => .ok (if rule.capturesText then some (token.text chars) else s.1, s.2)

/-- The builder and the text that waits behind a log. -/
def replay (chars : Array Char) (log : TokenLog) (s : Progress) : Except BuildError Progress :=
  log.foldlM (replayToken chars) s

section Replay

variable {chars : Array Char} {log log' : TokenLog} {token : Token} {s s' : Progress}

theorem replay_cons : replay chars (token :: log) s =
    (replayToken chars s token).bind (replay chars log) :=
  List.foldlM_cons

theorem replay_append : replay chars (log ++ log') s =
    (replay chars log s).bind (replay chars log') :=
  List.foldlM_append

/-- Going through a log token by token gives what carrying out the log gives. -/
theorem applyLog_eq_replay :
    applyLog chars log s.1 s.2 = (replay chars log s).map Prod.snd := by
  induction log generalizing s with
  | nil => rfl
  | cons token rest ih =>
      rw [replay_cons]
      unfold applyLog replayToken
      cases token.label with
      | rule rule => exact ih (s := (if rule.capturesText then some (token.text chars) else s.1, s.2))
      | action action =>
          dsimp only
          cases hstep : s.2.apply action (if action.needsText then s.1 else none) with
          | mk b failure =>
              cases failure with
              | some error => rfl
              | none => exact ih (s := (if action.needsText then none else s.1, b))

/-- The state in the middle of a log that can be gone through. -/
theorem exists_replay_of_append (h : replay chars (log ++ token :: log') s = .ok s') :
    ∃ t t', replay chars log s = .ok t ∧ replayToken chars t token = .ok t' ∧
      replay chars log' t' = .ok s' := by
  rw [replay_append] at h
  cases hlog : replay chars log s with
  | error error => rw [hlog] at h; cases h
  | ok t =>
      rw [hlog] at h
      change replay chars (token :: log') t = .ok s' at h
      rw [replay_cons] at h
      cases htoken : replayToken chars t token with
      | error error => rw [htoken] at h; cases h
      | ok t' =>
          rw [htoken] at h
          exact ⟨t, t', rfl, htoken, h⟩

theorem moves_of_replayToken {action : Action} (hlabel : token.label = .action action)
    (h : replayToken chars s token = .ok s') :
    Moves action (if action.needsText then s.1 else none) s.2 s'.2 := by
  unfold replayToken at h
  rw [hlabel] at h
  dsimp only at h
  split at h
  · cases h
  next b happly =>
    cases h
    exact apply_eq_iff.mp happly

/-- A statement that was attached was the only node in progress. -/
theorem replayToken_addStatement (hlabel : token.label = .action .addStatement)
    (h : replayToken chars s token = .ok s') :
    ∃ statement, s.2.stack = [statement] ∧ s'.2.root = s.2.root.addChild statement := by
  have hmoves := moves_of_replayToken hlabel h
  generalize s.2 = before at hmoves ⊢
  generalize s'.2 = after at hmoves ⊢
  cases hmoves with
  | attach hattaches => cases hattaches
  | statement => exact ⟨_, rfl, rfl⟩

/-- Statements that were attached stay attached. -/
theorem Moves.children_subset {action : Action} {text : Option String} {b b' : Builder}
    (h : Moves action text b b') : b.root.children ⊆ b'.root.children := by
  cases h with
  | statement => exact List.subset_append_left _ _
  | start | binop | assign | attach => exact List.Subset.refl _

theorem children_subset_of_replayToken (h : replayToken chars s token = .ok s') :
    s.2.root.children ⊆ s'.2.root.children := by
  cases hlabel : token.label with
  | rule rule =>
      unfold replayToken at h
      rw [hlabel] at h
      cases h
      exact List.Subset.refl _
  | action action => exact (moves_of_replayToken hlabel h).children_subset

theorem children_subset_of_replay (h : replay chars log s = .ok s') :
    s.2.root.children ⊆ s'.2.root.children := by
  induction log generalizing s with
  | nil =>
      cases h
      exact List.Subset.refl _
  | cons token rest ih =>
      obtain ⟨t, t', hnil, htoken, hrest⟩ :=
        exists_replay_of_append (show replay chars ([] ++ token :: rest) s = .ok s' from h)
      cases hnil
      exact List.Subset.trans (children_subset_of_replayToken htoken) (ih hrest)

end Replay

end Builder

section Supply

variable {chars : Array Char}

/-- A token holds the text for an action behind it: its rule is the one whose text the action
takes, and it ends where the action falls due. -/
def Supplies (chars : Array Char) (lexeme : Token) (action : Action) (offset : Nat) : Prop :=
  ∃ rule, action.lexeme? = some rule ∧ lexeme.label = .rule rule ∧ lexeme.stop = offset ∧
    Accepts chars (.call rule) lexeme.start lexeme.stop

/-- Every action of a log that takes a text stands right behind a token that holds it; `last` is
the token before the log. -/
def Supplied (chars : Array Char) : Option Token → TokenLog → Prop
  | _, [] => True
  | last, token :: rest =>
    (∀ action, token.label = .action action → action.needsText = true →
      ∃ lexeme, last = some lexeme ∧ Supplies chars lexeme action token.start) ∧
    Supplied chars (some token) rest

theorem supplied_append_iff {last : Option Token} {log log' : TokenLog} :
    Supplied chars last (log ++ log') ↔
      Supplied chars last log ∧ Supplied chars (log.getLast?.or last) log' := by
  induction log generalizing last with
  | nil => simp [Supplied]
  | cons token rest ih =>
      simp only [List.cons_append, Supplied, ih, and_assoc, List.getLast?_cons]
      cases rest.getLast? <;> rfl

theorem Supplied.rule {last : Option Token} {rule : Rule} {i j : Nat} :
    Supplied chars last [⟨.rule rule, i, j⟩] :=
  ⟨fun _ hlabel => (nomatch hlabel), trivial⟩

namespace Pattern

/-- The rule whose token a pattern has just logged when it matched. -/
def lastRule : Pattern → Option Rule
  | .call rule => some rule
  | _ => none

/-- Whether every action of a pattern that takes a text stands right behind the rule whose text
it takes; `last` is the rule before the pattern. -/
def supplies (last : Option Rule) : Pattern → Bool
  | .char _ | .range _ _ | .any | .stop | .call _ | .notAhead _ => true
  | .act action => !action.needsText || (last.isSome && last == action.lexeme?)
  | .seq p q => p.supplies last && q.supplies p.lastRule
  | .alt p q => p.supplies last && q.supplies last
  | .star p => p.supplies none
  | .group p | .opt p => p.supplies last

theorem supplies_production (rule : Rule) : rule.production.supplies none = true := by
  cases rule <;> decide

end Pattern

/-- The token before an offset is the one of a rule that has just matched. -/
def JustMatched (chars : Array Char) (last : Option Token) (rule? : Option Rule) (offset : Nat) :
    Prop :=
  ∀ rule, rule? = some rule → ∃ lexeme, last = some lexeme ∧ lexeme.label = .rule rule ∧
    lexeme.stop = offset ∧ Accepts chars (.call rule) lexeme.start lexeme.stop

theorem JustMatched.none {last : Option Token} {offset : Nat} :
    JustMatched chars last none offset :=
  fun _ hrule => nomatch hrule

/-- The log of a rule ends with the token of the rule. -/
theorem Matches.justMatched {p : Pattern} {i j reach : Nat} {log : TokenLog}
    (h : Matches chars p i (.matched j reach log)) (last : Option Token) :
    JustMatched chars (log.getLast?.or last) p.lastRule j := by
  intro rule hrule
  cases p with
  | call rule' =>
      cases hrule
      have haccepts : Accepts chars (.call rule) i j := ⟨log, reach, h⟩
      cases h with
      | call hbody =>
          refine ⟨⟨.rule rule, i, j⟩, ?_, rfl, rfl, haccepts⟩
          rw [List.getLast?_concat]
          rfl
  | _ => cases hrule

/-- Whatever a match logs, its actions find the texts that they take. -/
theorem Matches.supplied {p : Pattern} {i : Nat} {v : Verdict} (h : Matches chars p i v) :
    match v with
    | .matched _ _ log => ∀ last rule?, p.supplies rule? = true →
        JustMatched chars last rule? i → Supplied chars last log
    | .failed _ => True := by
  induction h with
  | char | range | any | stop | starDone | optNone | notAhead => exact fun _ _ _ _ => trivial
  | @act i action =>
      intro last rule? hsupplies hlast
      refine ⟨fun action' hlabel hneeds => ?_, trivial⟩
      cases hlabel
      simp only [Pattern.supplies, hneeds, Bool.not_true, Bool.false_or, Bool.and_eq_true,
        Option.isSome_iff_exists, beq_iff_eq] at hsupplies
      obtain ⟨⟨rule, rfl⟩, hrule⟩ := hsupplies
      obtain ⟨lexeme, hlast, hlabel, hstop, haccepts⟩ := hlast rule rfl
      exact ⟨lexeme, hlast, rule, hrule.symm, hlabel, hstop, haccepts⟩
  | @call i j reach rule log hbody ih =>
      intro last rule? _ _
      have hinner := ih last none (Pattern.supplies_production rule) .none
      exact supplied_append_iff.mpr ⟨hinner, .rule⟩
  | seq hfirst _ ih ih' =>
      intro last rule? hsupplies hlast
      obtain ⟨hp, hq⟩ := (Bool.and_eq_true _ _).mp hsupplies
      exact supplied_append_iff.mpr ⟨ih last rule? hp hlast, ih' _ _ hq (hfirst.justMatched last)⟩
  | altFirst _ ih =>
      intro last rule? hsupplies
      exact ih last rule? ((Bool.and_eq_true _ _).mp hsupplies).1
  | altSecond _ _ _ ih' =>
      intro last rule? hsupplies
      exact ih' last rule? ((Bool.and_eq_true _ _).mp hsupplies).2
  | @group _ _ v _ ih =>
      cases v with
      | matched => exact ih
      | failed => trivial
  | starMore _ _ _ ih ih' =>
      intro last rule? hsupplies _
      exact supplied_append_iff.mpr ⟨ih last none hsupplies .none, ih' _ none hsupplies .none⟩
  | optSome _ ih => exact fun last rule? hsupplies => ih last rule? hsupplies
  | _ => trivial

end Supply

section Tokenize

variable {chars : Array Char} {log : TokenLog} {token : Token}

/-- An action that takes a text takes the one that its token holds. -/
theorem Supplied.exists_lexeme {before after : TokenLog} {action : Action}
    (h : Supplied chars none (before ++ token :: after)) (hlabel : token.label = .action action)
    (hneeds : action.needsText = true) :
    ∃ earlier lexeme, before = earlier ++ [lexeme] ∧
      Supplies chars lexeme action token.start := by
  obtain ⟨lexeme, hlast, hsupplies⟩ := (supplied_append_iff.mp h).2.1 action hlabel hneeds
  rw [Option.or_none] at hlast
  obtain ⟨earlier, rfl⟩ := List.getLast?_eq_some_iff.mp hlast
  exact ⟨earlier, lexeme, rfl, hsupplies⟩

/-- The token that holds a text for an action leaves it waiting. -/
theorem Supplies.waits {earlier : TokenLog} {lexeme : Token} {action : Action} {offset : Nat}
    {s : Progress} (h : Supplies chars lexeme action offset)
    (hreplay : Builder.replay chars (earlier ++ [lexeme]) (none, .empty) = .ok s) :
    s.1 = some (lexeme.text chars) := by
  obtain ⟨rule, hrule, hlabel, -, -⟩ := h
  have hcaptures : rule.capturesText = true := by
    cases action <;> cases hrule <;> rfl
  obtain ⟨t, t', -, htoken, hend⟩ := Builder.exists_replay_of_append hreplay
  cases hend
  unfold Builder.replayToken at htoken
  rw [hlabel] at htoken
  cases htoken
  exact if_pos hcaptures

/-- The log of a match of a whole text can be gone through to its end, and gives a program. -/
theorem exists_replay_of_succeeds {stop : Nat}
    (h : Succeeds chars (.call .program) 0 stop log) :
    ∃ t waiting, Builder.build chars log = .ok t ∧ t.IsProgram ∧
      Builder.replay chars log (none, .empty) = .ok (waiting, ⟨t, []⟩) := by
  obtain ⟨t, ⟨log', hsucceeds, hleads⟩, hrendering⟩ := programFound h.accepts
  obtain ⟨-, rfl⟩ := h.unique hsucceeds
  have happly := hleads []
  rw [List.append_nil] at happly
  change Builder.applyLog chars log none .empty = .ok ⟨t, []⟩ at happly
  have hreplay : Builder.applyLog chars log none .empty =
      (Builder.replay chars log (none, .empty)).map Prod.snd :=
    Builder.applyLog_eq_replay (s := (none, .empty))
  rw [happly] at hreplay
  cases hrun : Builder.replay chars log (none, .empty) with
  | error error => rw [hrun] at hreplay; cases hreplay
  | ok s =>
      rw [hrun] at hreplay
      obtain ⟨waiting, b⟩ := s
      cases hreplay
      refine ⟨t, waiting, ?_, hrendering.isProgram, rfl⟩
      unfold Builder.build
      rw [happly]
      rfl

/-- Every log of a text builds a tree. At each token of it the actions before it have been
carried out without a failure. Where a statement is attached, a finished statement is the only
node in progress. Where an action takes a text, the token right before it is the one of the name,
number or sign that its rule has just matched, and the text of that token is the one that
waits. -/
theorem replay_of_tokenize (chars : Array Char) (maxDepth : Nat) (log : TokenLog)
    (h : tokenize maxDepth chars = .ok log) :
    (∃ t, Builder.build chars log = .ok t) ∧
    ∀ before token after, log = before ++ token :: after →
      ∃ s, Builder.replay chars before (none, .empty) = .ok s ∧
        Builder.applyLog chars before none .empty = .ok s.2 ∧
        (token.label = .action .addStatement →
          ∃ statement, s.2.stack = [statement] ∧ statement.IsStatement) ∧
        ∀ action, token.label = .action action → action.needsText = true →
          ∃ earlier lexeme, before = earlier ++ [lexeme] ∧
            Supplies chars lexeme action token.start ∧ s.1 = some (lexeme.text chars) := by
  obtain ⟨stop, hsucceeds⟩ := succeeds_of_tokenize h
  obtain ⟨t, waiting, hbuild, hprogram, hreplay⟩ := exists_replay_of_succeeds hsucceeds
  refine ⟨⟨t, hbuild⟩, ?_⟩
  rintro before token after rfl
  obtain ⟨s, s', hbefore, htoken, hafter⟩ := Builder.exists_replay_of_append hreplay
  refine ⟨s, hbefore, ?_, fun hlabel => ?_, fun action hlabel hneeds => ?_⟩
  · exact Builder.applyLog_eq_replay.trans (congrArg (Except.map Prod.snd) hbefore)
  · obtain ⟨statement, hstack, hroot⟩ := Builder.replayToken_addStatement hlabel htoken
    -- What was attached is still there at the end, where only statements are.
    have hmem : statement ∈ s'.2.root.children := by
      rw [hroot]
      exact List.mem_append_right _ List.mem_cons_self
    exact ⟨statement, hstack,
      hprogram.statements statement (Builder.children_subset_of_replay hafter hmem)⟩
  · obtain ⟨reach, hmatches⟩ := hsucceeds
    have hsupplied := hmatches.supplied none none rfl .none
    obtain ⟨earlier, lexeme, rfl, hsupplies⟩ := hsupplied.exists_lexeme hlabel hneeds
    exact ⟨earlier, lexeme, rfl, hsupplies, hsupplies.waits hbefore⟩

theorem replay_of_tokenize_call : ∃ log, tokenize 8 "f(+a)".toList.toArray = .ok log ∧
    (∃ s, Builder.replay "f(+a)".toList.toArray (log.take 11) (none, .empty) = .ok s ∧
      ∃ earlier lexeme, log.take 11 = earlier ++ [lexeme] ∧
        Supplies "f(+a)".toList.toArray lexeme .addVariable 4 ∧
        s.1 = some (lexeme.text "f(+a)".toList.toArray)) ∧
    ∃ s, Builder.replay "f(+a)".toList.toArray (log.take 24) (none, .empty) = .ok s ∧
      ∃ statement, s.2.stack = [statement] ∧ statement.IsStatement := by
  have hentries : (tokenize 8 "f(+a)".toList.toArray).toOption.map
      (fun log => (log[11]?, log[24]?)) =
        some (some ⟨.action .addVariable, 4, 4⟩, some ⟨.action .addStatement, 5, 5⟩) := by
    decide +kernel
  cases htokenize : tokenize 8 "f(+a)".toList.toArray with
  | error error =>
      rw [htokenize] at hentries
      cases hentries
  | ok log =>
      rw [htokenize] at hentries
      obtain ⟨hname, hend⟩ := Prod.mk.inj (Option.some.inj hentries)
      have hsplit : ∀ {n token}, log[n]? = some token →
          log = log.take n ++ token :: log.drop (n + 1) := by
        intro n token hget
        obtain ⟨hlt, rfl⟩ := List.getElem?_eq_some_iff.mp hget
        rw [← List.drop_eq_getElem_cons hlt, List.take_append_drop]
      obtain ⟨-, hall⟩ := replay_of_tokenize _ 8 log htokenize
      obtain ⟨s, hs, -, -, htext⟩ := hall _ _ _ (hsplit hname)
      obtain ⟨s', hs', -, hstatement, -⟩ := hall _ _ _ (hsplit hend)
      exact ⟨log, rfl, ⟨s, hs, htext .addVariable rfl rfl⟩, s', hs', hstatement rfl⟩

end Tokenize

end Sumscript

import Sumscript.Proofs.NestedMatches
import Sumscript.Proofs.ReplayedLog

/-! # The order of a match log

A log lists the tokens of an accepted text in the order in which their matches ended, a match
behind the matches inside it. So of two tokens the later one stands behind the earlier one in the
text or around it, and the token of the program stands last. The tokens whose texts are kept
cover whole names, numbers and signs.
-/

namespace Sumscript

/-- How an earlier token of a log stands to a later one, which ends no earlier and stands behind
it or around it. -/
structure Token.Precedes (t u : Token) : Prop where
  ends : t.stop ≤ u.stop
  apart : t.stop ≤ u.start ∨ t.Inside u

namespace Rule

/-- Whether a text is of the lexical class of a rule whose text is kept. -/
def spells : Rule → String → Bool
  | .name, text => Identifier.isValid text
  | .number, text => isNumber text
  | .op, text => text == "+"
  | _, _ => false

/-- Whether a character goes on with a text of the lexical class of a rule. -/
def goesOn : Rule → Char → Bool
  | .name, c => Identifier.continues c
  | .number, c => c.isDigit
  | _, _ => false

end Rule

/-- A log is that of a derivation of a whole text, with the token of a phrase behind those of its
parts. -/
structure TokenLog.IsDerivation (chars : Array Char) (log : TokenLog) : Prop where
  spans : ∀ t ∈ log, t.start ≤ t.stop ∧ t.stop ≤ chars.size
  order : log.Pairwise Token.Precedes
  actions : ∀ t ∈ log, t.label.isAction = true → t.isEmpty = true
  program : ∃ inner, log = inner ++ [⟨.rule .program, 0, chars.size⟩] ∧
    ∀ t ∈ inner, t.label ≠ .rule .program
  lexemes : ∀ t ∈ log, ∀ rule, t.label = .rule rule → rule.capturesText = true →
    rule.spells (t.text chars) = true ∧
      ∀ c, chars[t.stop]? = some c → rule.goesOn c = false

/-- Tokens between two offsets, in the order in which a match logs them. -/
structure TokenLog.Between (log : TokenLog) (i j : Nat) : Prop where
  spans : ∀ t ∈ log, i ≤ t.start ∧ t.start ≤ t.stop ∧ t.stop ≤ j
  order : log.Pairwise Token.Precedes

namespace TokenLog.Between

variable {log log' : TokenLog} {i j k : Nat}

theorem nil : Between [] i j where
  spans := List.forall_mem_nil _
  order := .nil

/-- Tokens behind an offset stand behind all tokens before it. -/
theorem append (h : Between log i k) (h' : Between log' k j) (hi : i ≤ k) (hj : k ≤ j) :
    Between (log ++ log') i j where
  spans := by
    refine List.forall_mem_append.mpr ⟨fun t ht => ?_, fun t ht => ?_⟩
    · have := h.spans t ht
      omega
    · have := h'.spans t ht
      omega
  order := by
    refine List.pairwise_append.mpr ⟨h.order, h'.order, fun t ht u hu => ?_⟩
    have ht := h.spans t ht
    have hu := h'.spans u hu
    exact ⟨by omega, .inl (by omega)⟩

/-- The token of a match stands around those inside it. -/
theorem around (h : Between log i j) (hle : i ≤ j) (label : Label) :
    Between (log ++ [⟨label, i, j⟩]) i j where
  spans := List.forall_mem_append.mpr
    ⟨h.spans, List.forall_mem_singleton.mpr ⟨Nat.le_refl i, hle, Nat.le_refl j⟩⟩
  order := by
    refine List.pairwise_append.mpr ⟨h.order, List.pairwise_singleton _ _, fun t ht u hu => ?_⟩
    obtain ⟨hstart, -, hstop⟩ := h.spans t ht
    rw [List.mem_singleton.mp hu]
    exact ⟨hstop, .inr ⟨hstart, hstop⟩⟩

end TokenLog.Between

section Matches

variable {chars : Array Char} {p : Pattern} {i : Nat} {v : Verdict}

theorem Matches.between (h : Matches chars p i v) :
    match v with
    | .matched j _ log => log.Between i j
    | .failed _ => True := by
  induction h with
  | act => exact TokenLog.Between.nil.around (Nat.le_refl _) _
  | call hbody ih => exact ih.around hbody.bounds.1 _
  | seq hfirst hsecond ih ih' => exact ih.append ih' hfirst.bounds.1 hsecond.bounds.1
  | starMore hbody _ hrest ih ih' => exact ih.append ih' hbody.bounds.1 hrest.bounds.1
  | @group _ _ v _ ih =>
      cases v with
      | matched => exact ih
      | failed => trivial
  | altFirst _ ih => exact ih
  | altSecond _ _ _ ih => exact ih
  | optSome _ ih => exact ih
  | char | range | any | stop | starDone | optNone | notAhead => exact .nil
  | _ => trivial

/-- A token says what has been matched: an action nothing, and a rule what it covers. -/
theorem Matches.tokens (h : Matches chars p i v) :
    match v with
    | .matched _ _ log => ∀ t ∈ log, match t.label with
        | .action _ => t.start = t.stop
        | .rule rule => Accepts chars (.call rule) t.start t.stop
    | .failed _ => True := by
  induction h with
  | act => exact List.forall_mem_singleton.mpr rfl
  | @call i j reach rule log hbody ih =>
      have haccepts : Accepts chars (.call rule) i j :=
        accepts_call_iff.mpr ⟨log, reach, hbody⟩
      exact List.forall_mem_append.mpr ⟨ih, List.forall_mem_singleton.mpr haccepts⟩
  | seq _ _ ih ih' | starMore _ _ _ ih ih' => exact List.forall_mem_append.mpr ⟨ih, ih'⟩
  | @group _ _ v _ ih =>
      cases v with
      | matched => exact ih
      | failed => trivial
  | altFirst _ ih => exact ih
  | altSecond _ _ _ ih => exact ih
  | optSome _ ih => exact ih
  | char | range | any | stop | starDone | optNone | notAhead => exact List.forall_mem_nil _
  | _ => trivial

/-- A name, a number or a sign is matched as far as it goes. -/
theorem Accepts.lexeme {rule : Rule} {j : Nat} (h : Accepts chars (.call rule) i j)
    (hrule : rule.capturesText = true) (label : Label) :
    rule.spells (Token.text ⟨label, i, j⟩ chars) = true ∧
      ∀ c, chars[j]? = some c → rule.goesOn c = false := by
  cases rule with
  | name =>
      obtain ⟨name, hvalid, hspells, hnext⟩ := accepts_name_iff.mp h
      rw [hspells.text_eq, String.ofList_toList]
      exact ⟨hvalid, hnext⟩
  | number =>
      obtain ⟨name, hvalid, hspells, hnext⟩ := accepts_number_iff.mp h
      rw [hspells.text_eq, String.ofList_toList]
      exact ⟨hvalid, hnext⟩
  | op =>
      obtain ⟨hchar, rfl⟩ := accepts_op_iff.mp h
      rw [(Spells.char hchar).text_eq]
      exact ⟨rfl, fun _ _ => rfl⟩
  | _ => cases hrule

/-- A program goes up to the end of the text. -/
theorem Accepts.program_end {stop : Nat} (h : Accepts chars (.call .program) 0 stop) :
    stop = chars.size := by
  have hle := h.le_size (Nat.zero_le _)
  have hparts := accepts_call_iff.mp h
  simp only [Rule.production, Pattern.inOrder, accepts_seq_iff] at hparts
  obtain ⟨_, -, _, -, _, -, _, -, hend⟩ := hparts
  obtain ⟨hsize, rfl⟩ := accepts_stop_iff.mp (accepts_call_iff.mp hend)
  exact Nat.le_antisymm hle hsize

/-- No rule calls the one for the program. -/
theorem Succeeds.no_program {stop : Nat} {log : TokenLog}
    (h : Succeeds chars Rule.program.production i stop log) :
    ∀ t ∈ log, t.label ≠ .rule .program := by
  obtain ⟨reach, hmatches⟩ := h
  have hcalls : ∀ rule : Rule, (rule != .program) = true →
      rule.production.callsOnly (· != .program) = true := by
    intro rule
    cases rule <;> decide
  have hlabels := hmatches.labels hcalls (by decide)
  intro t ht hlabel
  exact absurd (hlabels t ht .program hlabel) (by decide)

end Matches

/-- The log of an accepted text is that of a derivation. -/
theorem isDerivation_of_tokenize (chars : Array Char) (maxDepth : Nat) (log : TokenLog)
    (h : tokenize maxDepth chars = .ok log) : log.IsDerivation chars := by
  obtain ⟨stop, hsucceeds⟩ := succeeds_of_tokenize h
  obtain rfl := hsucceeds.accepts.program_end
  obtain ⟨inner, hinner, hlog⟩ := succeeds_call_iff.mp hsucceeds
  obtain ⟨reach, hmatches⟩ := hsucceeds
  have hbetween : log.Between 0 chars.size := hmatches.between
  have htokens := hmatches.tokens
  refine ⟨fun t ht => (hbetween.spans t ht).2, hbetween.order, fun t ht haction => ?_,
    ⟨inner, hlog, hinner.no_program⟩, fun t ht rule hlabel hrule => ?_⟩
  · have htoken := htokens t ht
    cases hlabel : t.label with
    | rule rule =>
        rw [hlabel] at haction
        cases haction
    | action action =>
        rw [hlabel] at htoken
        exact beq_iff_eq.mpr htoken
  · have htoken := htokens t ht
    rw [hlabel] at htoken
    exact Accepts.lexeme htoken hrule t.label

theorem isDerivation_of_tokenize_call : ∃ log, tokenize 8 "f(+a1)".toList.toArray = .ok log ∧
    log.IsDerivation "f(+a1)".toList.toArray := by
  have haccepted : (tokenize 8 "f(+a1)".toList.toArray).toOption.isSome = true := by
    decide +kernel
  cases hlog : tokenize 8 "f(+a1)".toList.toArray with
  | error e =>
      rw [hlog] at haccepted
      cases haccepted
  | ok log => exact ⟨log, rfl, isDerivation_of_tokenize _ 8 log hlog⟩

end Sumscript

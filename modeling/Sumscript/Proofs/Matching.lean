import Sumscript.Grammar.Pattern
import Sumscript.Grammar.Token

/-! # How patterns match

Matching as rules, without a cursor, a log that is cut back, or remembered outcomes. A verdict
says where a match ends, how far it looked, and which tokens it logs in order; a failure says
only how far it looked. A pattern has at most one verdict at every offset.
-/

namespace Sumscript

/-- How an attempt to match a pattern ends. -/
inductive Verdict where
  | matched (stop reach : Nat) (log : TokenLog)
  | failed (reach : Nat)

/-- The verdict on a pattern at an offset of a text. A repetition has none where its body would
match nothing. -/
inductive Matches (chars : Array Char) : Pattern → Nat → Verdict → Prop where
  | char {i c} (hchar : chars[i]? = some c) :
      Matches chars (.char c) i (.matched (i + 1) (i + 1) [])
  | charFail {i c} (hchar : chars[i]? ≠ some c) : Matches chars (.char c) i (.failed i)
  | range {i c low high} (hchar : chars[i]? = some c) (hrange : low ≤ c ∧ c ≤ high) :
      Matches chars (.range low high) i (.matched (i + 1) (i + 1) [])
  | rangeFail {i low high} (hchar : ∀ c, chars[i]? = some c → ¬ (low ≤ c ∧ c ≤ high)) :
      Matches chars (.range low high) i (.failed i)
  | any {i c} (hchar : chars[i]? = some c) : Matches chars .any i (.matched (i + 1) (i + 1) [])
  | anyFail {i} (hchar : chars[i]? = none) : Matches chars .any i (.failed i)
  | stop {i} (hend : chars.size ≤ i) : Matches chars .stop i (.matched i i [])
  | stopFail {i} (hend : i < chars.size) : Matches chars .stop i (.failed i)
  | act {i action} : Matches chars (.act action) i (.matched i i [⟨.action action, i, i⟩])
  | call {i j reach rule log} (hbody : Matches chars rule.production i (.matched j reach log)) :
      Matches chars (.call rule) i (.matched j reach (log ++ [⟨.rule rule, i, j⟩]))
  | callFail {i reach rule} (hbody : Matches chars rule.production i (.failed reach)) :
      Matches chars (.call rule) i (.failed reach)
  | seq {p q i k j reach reach' log log'} (hfirst : Matches chars p i (.matched k reach log))
      (hsecond : Matches chars q k (.matched j reach' log')) :
      Matches chars (.seq p q) i (.matched j (max reach reach') (log ++ log'))
  | seqFailFirst {p q i reach} (hfirst : Matches chars p i (.failed reach)) :
      Matches chars (.seq p q) i (.failed reach)
  | seqFailSecond {p q i k reach reach' log} (hfirst : Matches chars p i (.matched k reach log))
      (hsecond : Matches chars q k (.failed reach')) :
      Matches chars (.seq p q) i (.failed (max reach reach'))
  | altFirst {p q i j reach log} (hfirst : Matches chars p i (.matched j reach log)) :
      Matches chars (.alt p q) i (.matched j reach log)
  | altSecond {p q i j reach reach' log} (hfirst : Matches chars p i (.failed reach))
      (hsecond : Matches chars q i (.matched j reach' log)) :
      Matches chars (.alt p q) i (.matched j (max reach reach') log)
  | altFail {p q i reach reach'} (hfirst : Matches chars p i (.failed reach))
      (hsecond : Matches chars q i (.failed reach')) :
      Matches chars (.alt p q) i (.failed (max reach reach'))
  | group {p i v} (hbody : Matches chars p i v) : Matches chars (.group p) i v
  | starDone {p i reach} (hbody : Matches chars p i (.failed reach)) :
      Matches chars (.star p) i (.matched i reach [])
  | starMore {p i k j reach reach' log log'} (hbody : Matches chars p i (.matched k reach log))
      (hprogress : i < k) (hrest : Matches chars (.star p) k (.matched j reach' log')) :
      Matches chars (.star p) i (.matched j (max reach reach') (log ++ log'))
  | optSome {p i j reach log} (hbody : Matches chars p i (.matched j reach log)) :
      Matches chars (.opt p) i (.matched j reach log)
  | optNone {p i reach} (hbody : Matches chars p i (.failed reach)) :
      Matches chars (.opt p) i (.matched i reach [])
  | notAhead {p i reach} (hbody : Matches chars p i (.failed reach)) :
      Matches chars (.notAhead p) i (.matched i i [])
  | notAheadFail {p i j reach log} (hbody : Matches chars p i (.matched j reach log)) :
      Matches chars (.notAhead p) i (.failed i)

namespace Matches

variable {chars : Array Char}

theorem unique {p : Pattern} {i : Nat} {v v' : Verdict} (h : Matches chars p i v)
    (h' : Matches chars p i v') : v = v' := by
  -- Another verdict on the same pattern disagrees about a part of it, which has one verdict.
  induction h generalizing v' with
  | char hchar => cases h' <;> simp_all
  | charFail hchar => cases h' <;> simp_all
  | range hchar hrange => cases h' <;> grind
  | rangeFail hchar => cases h' <;> grind
  | any hchar => cases h' <;> simp_all
  | anyFail hchar => cases h' <;> simp_all
  | stop hend => cases h' <;> grind
  | stopFail hend => cases h' <;> grind
  | act => cases h'; rfl
  | call _ ih =>
      cases h' with
      | call hbody' => cases ih hbody'; rfl
      | callFail hbody' => cases ih hbody'
  | callFail _ ih =>
      cases h' with
      | call hbody' => cases ih hbody'
      | callFail hbody' => cases ih hbody'; rfl
  | seq _ _ ih ih' => cases h' <;> grind
  | seqFailFirst _ ih => cases h' <;> grind
  | seqFailSecond _ _ ih ih' => cases h' <;> grind
  | altFirst _ ih => cases h' <;> grind
  | altSecond _ _ ih ih' => cases h' <;> grind
  | altFail _ _ ih ih' => cases h' <;> grind
  | group _ ih =>
      cases h' with
      | group hbody' => exact ih hbody'
  | starDone _ ih => cases h' <;> grind
  | starMore _ _ _ ih ih' => cases h' <;> grind
  | optSome _ ih => cases h' <;> grind
  | optNone _ ih => cases h' <;> grind
  | notAhead _ ih => cases h' <;> grind
  | notAheadFail _ ih => cases h' <;> grind

/-- The end of a match, or the reach of a failure, is not before the offset. -/
theorem bounds {p : Pattern} {i : Nat} {v : Verdict} (h : Matches chars p i v) :
    match v with
    | .matched j reach _ => i ≤ j ∧ j ≤ reach
    | .failed reach => i ≤ reach := by
  induction h <;> grind

theorem stop_le_size {p : Pattern} {i : Nat} {v : Verdict} (h : Matches chars p i v)
    (hstart : i ≤ chars.size) :
    match v with
    | .matched j _ _ => j ≤ chars.size
    | .failed _ => True := by
  have hlt : ∀ {k c}, chars[k]? = some c → k < chars.size := fun hchar =>
    (Array.getElem?_eq_some_iff.mp hchar).1
  induction h <;> grind

end Matches

/-- A pattern matches from one offset to another and logs tokens. -/
def Succeeds (chars : Array Char) (p : Pattern) (i j : Nat) (log : TokenLog) : Prop :=
  ∃ reach, Matches chars p i (.matched j reach log)

/-- A pattern does not match at an offset. -/
def Fails (chars : Array Char) (p : Pattern) (i : Nat) : Prop :=
  ∃ reach, Matches chars p i (.failed reach)

section Verdicts

variable {chars : Array Char} {p q : Pattern} {i j : Nat} {log : TokenLog}

theorem Succeeds.unique {j' : Nat} {log' : TokenLog} (h : Succeeds chars p i j log)
    (h' : Succeeds chars p i j' log') : j = j' ∧ log = log' := by
  obtain ⟨_, h⟩ := h
  obtain ⟨_, h'⟩ := h'
  cases h.unique h'
  exact ⟨rfl, rfl⟩

theorem Succeeds.not_fails (h : Succeeds chars p i j log) : ¬ Fails chars p i := by
  rintro ⟨_, h'⟩
  obtain ⟨_, h⟩ := h
  cases h.unique h'

theorem Succeeds.le (h : Succeeds chars p i j log) : i ≤ j := by
  obtain ⟨_, h⟩ := h
  exact h.bounds.1

theorem Succeeds.le_size (h : Succeeds chars p i j log) (hstart : i ≤ chars.size) :
    j ≤ chars.size := by
  obtain ⟨_, h⟩ := h
  exact h.stop_le_size hstart

theorem succeeds_char_iff {c : Char} :
    Succeeds chars (.char c) i j log ↔ chars[i]? = some c ∧ j = i + 1 ∧ log = [] := by
  constructor
  · rintro ⟨_, h⟩
    cases h with
    | char hchar => exact ⟨hchar, rfl, rfl⟩
  · rintro ⟨hchar, rfl, rfl⟩
    exact ⟨_, .char hchar⟩

theorem fails_char_iff {c : Char} : Fails chars (.char c) i ↔ chars[i]? ≠ some c := by
  constructor
  · rintro ⟨_, h⟩
    cases h with
    | charFail hchar => exact hchar
  · exact fun hchar => ⟨_, .charFail hchar⟩

theorem succeeds_range_iff {low high : Char} : Succeeds chars (.range low high) i j log ↔
    (∃ c, chars[i]? = some c ∧ low ≤ c ∧ c ≤ high) ∧ j = i + 1 ∧ log = [] := by
  constructor
  · rintro ⟨_, h⟩
    cases h with
    | range hchar hrange => exact ⟨⟨_, hchar, hrange⟩, rfl, rfl⟩
  · rintro ⟨⟨c, hchar, hrange⟩, rfl, rfl⟩
    exact ⟨_, .range hchar hrange⟩

theorem fails_range_iff {low high : Char} : Fails chars (.range low high) i ↔
    ∀ c, chars[i]? = some c → ¬ (low ≤ c ∧ c ≤ high) := by
  constructor
  · rintro ⟨_, h⟩
    cases h with
    | rangeFail hchar => exact hchar
  · exact fun hchar => ⟨_, .rangeFail hchar⟩

theorem succeeds_any_iff :
    Succeeds chars .any i j log ↔ (∃ c, chars[i]? = some c) ∧ j = i + 1 ∧ log = [] := by
  constructor
  · rintro ⟨_, h⟩
    cases h with
    | any hchar => exact ⟨⟨_, hchar⟩, rfl, rfl⟩
  · rintro ⟨⟨c, hchar⟩, rfl, rfl⟩
    exact ⟨_, .any hchar⟩

theorem fails_any_iff : Fails chars .any i ↔ chars[i]? = none := by
  constructor
  · rintro ⟨_, h⟩
    cases h with
    | anyFail hchar => exact hchar
  · exact fun hchar => ⟨_, .anyFail hchar⟩

theorem succeeds_stop_iff : Succeeds chars .stop i j log ↔ chars.size ≤ i ∧ j = i ∧ log = [] := by
  constructor
  · rintro ⟨_, h⟩
    cases h with
    | stop hend => exact ⟨hend, rfl, rfl⟩
  · rintro ⟨hend, rfl, rfl⟩
    exact ⟨_, .stop hend⟩

theorem succeeds_act_iff {action : Action} : Succeeds chars (.act action) i j log ↔
    j = i ∧ log = [⟨.action action, i, i⟩] := by
  constructor
  · rintro ⟨_, h⟩
    cases h
    exact ⟨rfl, rfl⟩
  · rintro ⟨rfl, rfl⟩
    exact ⟨_, .act⟩

theorem succeeds_call_iff {rule : Rule} : Succeeds chars (.call rule) i j log ↔
    ∃ own, Succeeds chars rule.production i j own ∧ log = own ++ [⟨.rule rule, i, j⟩] := by
  constructor
  · rintro ⟨_, h⟩
    cases h with
    | call hbody => exact ⟨_, ⟨_, hbody⟩, rfl⟩
  · rintro ⟨own, ⟨_, hbody⟩, rfl⟩
    exact ⟨_, .call hbody⟩

theorem fails_call_iff {rule : Rule} :
    Fails chars (.call rule) i ↔ Fails chars rule.production i := by
  constructor
  · rintro ⟨_, h⟩
    cases h with
    | callFail hbody => exact ⟨_, hbody⟩
  · rintro ⟨_, hbody⟩
    exact ⟨_, .callFail hbody⟩

theorem succeeds_seq_iff : Succeeds chars (.seq p q) i j log ↔
    ∃ k first second, Succeeds chars p i k first ∧ Succeeds chars q k j second ∧
      log = first ++ second := by
  constructor
  · rintro ⟨_, h⟩
    cases h with
    | seq hfirst hsecond => exact ⟨_, _, _, ⟨_, hfirst⟩, ⟨_, hsecond⟩, rfl⟩
  · rintro ⟨_, _, _, ⟨_, hfirst⟩, ⟨_, hsecond⟩, rfl⟩
    exact ⟨_, .seq hfirst hsecond⟩

theorem fails_seq_iff : Fails chars (.seq p q) i ↔
    Fails chars p i ∨ ∃ k first, Succeeds chars p i k first ∧ Fails chars q k := by
  constructor
  · rintro ⟨_, h⟩
    cases h with
    | seqFailFirst hfirst => exact .inl ⟨_, hfirst⟩
    | seqFailSecond hfirst hsecond => exact .inr ⟨_, _, ⟨_, hfirst⟩, ⟨_, hsecond⟩⟩
  · rintro (⟨_, hfirst⟩ | ⟨_, _, ⟨_, hfirst⟩, ⟨_, hsecond⟩⟩)
    · exact ⟨_, .seqFailFirst hfirst⟩
    · exact ⟨_, .seqFailSecond hfirst hsecond⟩

theorem succeeds_alt_iff : Succeeds chars (.alt p q) i j log ↔
    Succeeds chars p i j log ∨ Fails chars p i ∧ Succeeds chars q i j log := by
  constructor
  · rintro ⟨_, h⟩
    cases h with
    | altFirst hfirst => exact .inl ⟨_, hfirst⟩
    | altSecond hfirst hsecond => exact .inr ⟨⟨_, hfirst⟩, ⟨_, hsecond⟩⟩
  · rintro (⟨_, hfirst⟩ | ⟨⟨_, hfirst⟩, ⟨_, hsecond⟩⟩)
    · exact ⟨_, .altFirst hfirst⟩
    · exact ⟨_, .altSecond hfirst hsecond⟩

theorem fails_alt_iff : Fails chars (.alt p q) i ↔ Fails chars p i ∧ Fails chars q i := by
  constructor
  · rintro ⟨_, h⟩
    cases h with
    | altFail hfirst hsecond => exact ⟨⟨_, hfirst⟩, ⟨_, hsecond⟩⟩
  · rintro ⟨⟨_, hfirst⟩, ⟨_, hsecond⟩⟩
    exact ⟨_, .altFail hfirst hsecond⟩

@[simp] theorem succeeds_group_iff :
    Succeeds chars (.group p) i j log ↔ Succeeds chars p i j log := by
  constructor
  · rintro ⟨_, h⟩
    cases h with
    | group hbody => exact ⟨_, hbody⟩
  · exact fun ⟨_, hbody⟩ => ⟨_, .group hbody⟩

@[simp] theorem fails_group_iff : Fails chars (.group p) i ↔ Fails chars p i := by
  constructor
  · rintro ⟨_, h⟩
    cases h with
    | group hbody => exact ⟨_, hbody⟩
  · exact fun ⟨_, hbody⟩ => ⟨_, .group hbody⟩

theorem succeeds_star_iff : Succeeds chars (.star p) i j log ↔
    Fails chars p i ∧ j = i ∧ log = [] ∨
      ∃ k first rest, Succeeds chars p i k first ∧ i < k ∧ Succeeds chars (.star p) k j rest ∧
        log = first ++ rest := by
  constructor
  · rintro ⟨_, h⟩
    cases h with
    | starDone hbody => exact .inl ⟨⟨_, hbody⟩, rfl, rfl⟩
    | starMore hbody hprogress hrest =>
        exact .inr ⟨_, _, _, ⟨_, hbody⟩, hprogress, ⟨_, hrest⟩, rfl⟩
  · rintro (⟨⟨_, hbody⟩, rfl, rfl⟩ | ⟨_, _, _, ⟨_, hbody⟩, hprogress, ⟨_, hrest⟩, rfl⟩)
    · exact ⟨_, .starDone hbody⟩
    · exact ⟨_, .starMore hbody hprogress hrest⟩

theorem not_fails_star : ¬ Fails chars (.star p) i := by
  rintro ⟨_, h⟩
  cases h

/-- Induction on the rounds of a repetition from its last round to its first. -/
theorem Succeeds.star_induction {motive : Nat → TokenLog → Prop}
    (h : Succeeds chars (.star p) i j log) (done : Fails chars p j → motive j [])
    (more : ∀ i k first rest, Succeeds chars p i k first → i < k →
      Succeeds chars (.star p) k j rest → motive k rest → motive i (first ++ rest)) :
    motive i log := by
  induction hlength : j - i using Nat.strongRecOn generalizing i log with
  | ind length ih =>
      rcases succeeds_star_iff.mp h with
        ⟨hfails, rfl, rfl⟩ | ⟨k, first, rest, hfirst, hlt, hrest, rfl⟩
      · exact done hfails
      · -- Every round moves, so the rest of the text gets shorter.
        have hle := hrest.le
        exact more i k first rest hfirst hlt hrest (ih (j - k) (by omega) hrest rfl)

theorem succeeds_opt_iff : Succeeds chars (.opt p) i j log ↔
    Succeeds chars p i j log ∨ Fails chars p i ∧ j = i ∧ log = [] := by
  constructor
  · rintro ⟨_, h⟩
    cases h with
    | optSome hbody => exact .inl ⟨_, hbody⟩
    | optNone hbody => exact .inr ⟨⟨_, hbody⟩, rfl, rfl⟩
  · rintro (⟨_, hbody⟩ | ⟨⟨_, hbody⟩, rfl, rfl⟩)
    · exact ⟨_, .optSome hbody⟩
    · exact ⟨_, .optNone hbody⟩

theorem not_fails_opt : ¬ Fails chars (.opt p) i := by
  rintro ⟨_, h⟩
  cases h

theorem succeeds_notAhead_iff : Succeeds chars (.notAhead p) i j log ↔
    Fails chars p i ∧ j = i ∧ log = [] := by
  constructor
  · rintro ⟨_, h⟩
    cases h with
    | notAhead hbody => exact ⟨⟨_, hbody⟩, rfl, rfl⟩
  · rintro ⟨⟨_, hbody⟩, rfl, rfl⟩
    exact ⟨_, .notAhead hbody⟩

theorem fails_notAhead_iff : Fails chars (.notAhead p) i ↔ ∃ j log, Succeeds chars p i j log := by
  constructor
  · rintro ⟨_, h⟩
    cases h with
    | notAheadFail hbody => exact ⟨_, _, _, hbody⟩
  · rintro ⟨_, _, _, hbody⟩
    exact ⟨_, .notAheadFail hbody⟩

end Verdicts

end Sumscript

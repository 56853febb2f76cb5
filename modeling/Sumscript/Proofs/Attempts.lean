import Sumscript.Proofs.Course
import Sumscript.Proofs.LexicalRules

/-! # Attempts without a state

The attempts that a match makes, as rules over the text alone: for every pattern and offset where
the attempt ends, how far it looked, and its course. Nothing is remembered here, so what is tried
twice at one offset has the same course twice.
-/

namespace Sumscript

namespace Verdict

/-- Where a match ends. -/
def stop? : Verdict → Option Nat
  | .matched stop _ _ => some stop
  | .failed _ => none

/-- How far an attempt looked. -/
def reach : Verdict → Nat
  | .matched _ reach _ | .failed reach => reach

end Verdict

namespace Rule

/-- Whether a rule leads to no expression. -/
def isPlain : Rule → Bool
  | .program | .statements | .statement | .assign | .funcCall | .funcArgs | .funcArg | .expression
  | .noBinopExpression | .binop | .unop => false
  | _ => true

/-- Whether attempts of a rule report nothing. -/
def isQuiet (rule : Rule) : Bool :=
  rule.isLexical || rule = .spaces || rule = .simpleSpaces

/-- Whether a rule looks exactly as far as it reads. -/
def isExact : Rule → Bool
  | .statementSep => false
  | rule => rule.isPlain

end Rule

namespace Pattern

/-- Whether a pattern attempts nothing: it looks at one character at most. -/
def isLeaf : Pattern → Bool
  | .char _ | .range _ _ | .any | .stop | .act _ => true
  | _ => false

/-- Whether a pattern calls only rules of a class. -/
def callsOnly (allowed : Rule → Bool) : Pattern → Bool
  | .char _ | .range _ _ | .any | .stop | .act _ => true
  | .call rule => allowed rule
  | .seq p q | .alt p q => p.callsOnly allowed && q.callsOnly allowed
  | .group p | .star p | .opt p | .notAhead p => p.callsOnly allowed

/-- Whether a pattern matches everywhere. -/
def isTotal : Pattern → Bool
  | .star _ | .opt _ | .act _ => true
  | .seq p q => p.isTotal && q.isTotal
  | .group p => p.isTotal
  | _ => false

/-- Whether a pattern reads nothing. -/
def readsNothing : Pattern → Bool
  | .notAhead _ | .act _ | .stop => true
  | _ => false

/-- Whether a pattern commits itself with every character that it reads, provided the rules that
it calls do. -/
def commits : Pattern → Bool
  | .char _ | .range _ _ | .any | .stop | .act _ | .notAhead _ => true
  | .call rule => rule.isExact
  | .seq p q => p.commits && q.commits && (q.isTotal || p.readsNothing)
  | .alt p q => p.commits && q.commits
  | .group p | .star p | .opt p => p.commits

end Pattern

/-- The attempt of a pattern at an offset: where it ends if it matches, how far it looked, and
its course. -/
inductive Tries (chars : Array Char) : Pattern → Nat → Option Nat → Nat → Course → Prop where
  | leaf {p i j} (hleaf : p.isLeaf = true) (haccepts : Accepts chars p i j) :
      Tries chars p i (some j) j .nothing
  | leafFail {p i} (hleaf : p.isLeaf = true) (hfails : Fails chars p i) :
      Tries chars p i none i .nothing
  | call {rule i j reach c} (hbody : Tries chars rule.production i (some j) reach c) :
      Tries chars (.call rule) i (some j) reach (.attempt rule i none c)
  | callFail {rule i reach c} (hbody : Tries chars rule.production i none reach c) :
      Tries chars (.call rule) i none reach (.attempt rule i (some reach) c)
  | seqFail {p q i reach c} (hfirst : Tries chars p i none reach c) :
      Tries chars (.seq p q) i none reach c
  | seq {p q i k result reach reach' c c'} (hfirst : Tries chars p i (some k) reach c)
      (hsecond : Tries chars q k result reach' c') :
      Tries chars (.seq p q) i result (max reach reach') (.next c c')
  | altFirst {p q i j reach c} (hfirst : Tries chars p i (some j) reach c) :
      Tries chars (.alt p q) i (some j) reach c
  | altSecond {p q i result reach reach' c c'} (hfirst : Tries chars p i none reach c)
      (hsecond : Tries chars q i result reach' c') :
      Tries chars (.alt p q) i result (max reach reach') (.next c c')
  | group {p i result reach c} (hbody : Tries chars p i result reach c) :
      Tries chars (.group p) i result reach c
  | starDone {p i reach c} (hbody : Tries chars p i none reach c) :
      Tries chars (.star p) i (some i) reach c
  | starMore {p i k j reach reach' c c'} (hbody : Tries chars p i (some k) reach c)
      (hprogress : i < k) (hrest : Tries chars (.star p) k (some j) reach' c') :
      Tries chars (.star p) i (some j) (max reach reach') (.next c c')
  | optSome {p i j reach c} (hbody : Tries chars p i (some j) reach c) :
      Tries chars (.opt p) i (some j) reach c
  | optNone {p i reach c} (hbody : Tries chars p i none reach c) :
      Tries chars (.opt p) i (some i) reach c
  | notAhead {p i reach c} (hbody : Tries chars p i none reach c) :
      Tries chars (.notAhead p) i (some i) i (.ahead c)
  | notAheadFail {p i j reach c} (hbody : Tries chars p i (some j) reach c) :
      Tries chars (.notAhead p) i none i (.ahead c)

section Tries

variable {chars : Array Char} {p q : Pattern} {rule : Rule} {i j r : Nat} {result : Option Nat}
  {c : Course}

/-- Whatever has a verdict is an attempt with a course. -/
theorem Matches.exists_tries {v : Verdict} (h : Matches chars p i v) :
    ∃ c, Tries chars p i v.stop? v.reach c := by
  induction h with
  | char hchar => exact ⟨_, .leaf rfl ⟨_, _, .char hchar⟩⟩
  | charFail hchar => exact ⟨_, .leafFail rfl ⟨_, .charFail hchar⟩⟩
  | range hchar hrange => exact ⟨_, .leaf rfl ⟨_, _, .range hchar hrange⟩⟩
  | rangeFail hchar => exact ⟨_, .leafFail rfl ⟨_, .rangeFail hchar⟩⟩
  | any hchar => exact ⟨_, .leaf rfl ⟨_, _, .any hchar⟩⟩
  | anyFail hchar => exact ⟨_, .leafFail rfl ⟨_, .anyFail hchar⟩⟩
  | stop hend => exact ⟨_, .leaf rfl ⟨_, _, .stop hend⟩⟩
  | stopFail hend => exact ⟨_, .leafFail rfl ⟨_, .stopFail hend⟩⟩
  | act => exact ⟨_, .leaf rfl ⟨_, _, .act⟩⟩
  | call _ ih => obtain ⟨c, hbody⟩ := ih; exact ⟨_, .call hbody⟩
  | callFail _ ih => obtain ⟨c, hbody⟩ := ih; exact ⟨_, .callFail hbody⟩
  | seq _ _ ih ih' =>
      obtain ⟨c, hfirst⟩ := ih
      obtain ⟨c', hsecond⟩ := ih'
      exact ⟨_, .seq hfirst hsecond⟩
  | seqFailFirst _ ih => obtain ⟨c, hfirst⟩ := ih; exact ⟨_, .seqFail hfirst⟩
  | seqFailSecond _ _ ih ih' =>
      obtain ⟨c, hfirst⟩ := ih
      obtain ⟨c', hsecond⟩ := ih'
      exact ⟨_, .seq hfirst hsecond⟩
  | altFirst _ ih => obtain ⟨c, hfirst⟩ := ih; exact ⟨_, .altFirst hfirst⟩
  | altSecond _ _ ih ih' =>
      obtain ⟨c, hfirst⟩ := ih
      obtain ⟨c', hsecond⟩ := ih'
      exact ⟨_, .altSecond hfirst hsecond⟩
  | altFail _ _ ih ih' =>
      obtain ⟨c, hfirst⟩ := ih
      obtain ⟨c', hsecond⟩ := ih'
      exact ⟨_, .altSecond hfirst hsecond⟩
  | group _ ih => obtain ⟨c, hbody⟩ := ih; exact ⟨_, .group hbody⟩
  | starDone _ ih => obtain ⟨c, hbody⟩ := ih; exact ⟨_, .starDone hbody⟩
  | starMore _ hprogress _ ih ih' =>
      obtain ⟨c, hbody⟩ := ih
      obtain ⟨c', hrest⟩ := ih'
      exact ⟨_, .starMore hbody hprogress hrest⟩
  | optSome _ ih => obtain ⟨c, hbody⟩ := ih; exact ⟨_, .optSome hbody⟩
  | optNone _ ih => obtain ⟨c, hbody⟩ := ih; exact ⟨_, .optNone hbody⟩
  | notAhead _ ih => obtain ⟨c, hbody⟩ := ih; exact ⟨_, .notAhead hbody⟩
  | notAheadFail _ ih => obtain ⟨c, hbody⟩ := ih; exact ⟨_, .notAheadFail hbody⟩

theorem Accepts.exists_tries (h : Accepts chars p i j) : ∃ r c, Tries chars p i (some j) r c := by
  obtain ⟨log, reach, hmatches⟩ := h
  obtain ⟨c, htries⟩ := hmatches.exists_tries
  exact ⟨reach, c, htries⟩

theorem Fails.exists_tries (h : Fails chars p i) : ∃ r c, Tries chars p i none r c := by
  obtain ⟨reach, hmatches⟩ := h
  obtain ⟨c, htries⟩ := hmatches.exists_tries
  exact ⟨reach, c, htries⟩

namespace Tries

/-- An attempt matches up to where it ends, and fails if it does not end. -/
theorem outcome (h : Tries chars p i result r c) :
    match result with
    | some j => Accepts chars p i j
    | none => Fails chars p i := by
  induction h with
  | leaf _ haccepts => exact haccepts
  | leafFail _ hfails => exact hfails
  | call _ ih => exact accepts_call_iff.mpr ih
  | callFail _ ih => exact fails_call_iff.mpr ih
  | seqFail _ ih => exact fails_seq_iff.mpr (.inl ih)
  | @seq _ _ _ k result _ _ _ _ _ _ ih ih' =>
      obtain ⟨log, hfirst⟩ := ih
      cases result with
      | some j => exact accepts_seq_iff.mpr ⟨k, ⟨log, hfirst⟩, ih'⟩
      | none => exact fails_seq_iff.mpr (.inr ⟨k, log, hfirst, ih'⟩)
  | altFirst _ ih => exact accepts_alt_iff.mpr (.inl ih)
  | @altSecond _ _ _ result _ _ _ _ _ _ ih ih' =>
      cases result with
      | some j => exact accepts_alt_iff.mpr (.inr ⟨ih, ih'⟩)
      | none => exact fails_alt_iff.mpr ⟨ih, ih'⟩
  | @group _ _ result _ _ _ ih =>
      cases result with
      | some j => exact accepts_group_iff.mpr ih
      | none => exact fails_group_iff.mpr ih
  | starDone _ ih => exact accepts_star_iff.mpr (.inl ⟨ih, rfl⟩)
  | starMore _ hprogress _ ih ih' => exact accepts_star_iff.mpr (.inr ⟨_, ih, hprogress, ih'⟩)
  | optSome _ ih => exact accepts_opt_iff.mpr (.inl ih)
  | optNone _ ih => exact accepts_opt_iff.mpr (.inr ⟨ih, rfl⟩)
  | notAhead _ ih => exact accepts_notAhead_iff.mpr ⟨ih, rfl⟩
  | notAheadFail _ ih => obtain ⟨log, ih⟩ := ih; exact fails_notAhead_iff.mpr ⟨_, log, ih⟩

theorem accepts (h : Tries chars p i (some j) r c) : Accepts chars p i j :=
  h.outcome

theorem fails (h : Tries chars p i none r c) : Fails chars p i :=
  h.outcome

/-- A pattern has at most one attempt at every offset. -/
theorem unique {result' : Option Nat} {r' : Nat} {c' : Course} (h : Tries chars p i result r c)
    (h' : Tries chars p i result' r' c') : result = result' ∧ r = r' ∧ c = c' := by
  induction h generalizing result' r' c' with
  | leaf hleaf haccepts =>
      cases h' with
      | leaf _ haccepts' => cases haccepts.unique haccepts'; exact ⟨rfl, rfl, rfl⟩
      | leafFail _ hfails => exact absurd hfails haccepts.not_fails
      | _ => cases hleaf
  | leafFail hleaf hfails =>
      cases h' with
      | leaf _ haccepts => exact absurd hfails haccepts.not_fails
      | leafFail => exact ⟨rfl, rfl, rfl⟩
      | _ => cases hleaf
  | call _ ih =>
      cases h' with
      | call hbody => obtain ⟨hj, rfl, rfl⟩ := ih hbody; exact ⟨hj, rfl, rfl⟩
      | callFail hbody => cases (ih hbody).1
      | leaf hleaf | leafFail hleaf => cases hleaf
  | callFail _ ih =>
      cases h' with
      | call hbody => cases (ih hbody).1
      | callFail hbody => obtain ⟨-, rfl, rfl⟩ := ih hbody; exact ⟨rfl, rfl, rfl⟩
      | leaf hleaf | leafFail hleaf => cases hleaf
  | seqFail _ ih =>
      cases h' with
      | seqFail hfirst => obtain ⟨-, rfl, rfl⟩ := ih hfirst; exact ⟨rfl, rfl, rfl⟩
      | seq hfirst => cases (ih hfirst).1
      | leaf hleaf | leafFail hleaf => cases hleaf
  | seq _ _ ih ih' =>
      cases h' with
      | seqFail hfirst => cases (ih hfirst).1
      | seq hfirst hsecond =>
          obtain ⟨hk, rfl, rfl⟩ := ih hfirst
          cases hk
          obtain ⟨rfl, rfl, rfl⟩ := ih' hsecond
          exact ⟨rfl, rfl, rfl⟩
      | leaf hleaf | leafFail hleaf => cases hleaf
  | altFirst _ ih =>
      cases h' with
      | altFirst hfirst => obtain ⟨hj, rfl, rfl⟩ := ih hfirst; exact ⟨hj, rfl, rfl⟩
      | altSecond hfirst => cases (ih hfirst).1
      | leaf hleaf | leafFail hleaf => cases hleaf
  | altSecond _ _ ih ih' =>
      cases h' with
      | altFirst hfirst => cases (ih hfirst).1
      | altSecond hfirst hsecond =>
          obtain ⟨-, rfl, rfl⟩ := ih hfirst
          obtain ⟨rfl, rfl, rfl⟩ := ih' hsecond
          exact ⟨rfl, rfl, rfl⟩
      | leaf hleaf | leafFail hleaf => cases hleaf
  | group _ ih =>
      cases h' with
      | group hbody => exact ih hbody
      | leaf hleaf | leafFail hleaf => cases hleaf
  | starDone _ ih =>
      cases h' with
      | starDone hbody => obtain ⟨-, rfl, rfl⟩ := ih hbody; exact ⟨rfl, rfl, rfl⟩
      | starMore hbody => cases (ih hbody).1
      | leaf hleaf | leafFail hleaf => cases hleaf
  | starMore _ _ _ ih ih' =>
      cases h' with
      | starDone hbody => cases (ih hbody).1
      | starMore hbody _ hrest =>
          obtain ⟨hk, rfl, rfl⟩ := ih hbody
          cases hk
          obtain ⟨hj, rfl, rfl⟩ := ih' hrest
          exact ⟨hj, rfl, rfl⟩
      | leaf hleaf | leafFail hleaf => cases hleaf
  | optSome _ ih =>
      cases h' with
      | optSome hbody => obtain ⟨hj, rfl, rfl⟩ := ih hbody; exact ⟨hj, rfl, rfl⟩
      | optNone hbody => cases (ih hbody).1
      | leaf hleaf | leafFail hleaf => cases hleaf
  | optNone _ ih =>
      cases h' with
      | optSome hbody => cases (ih hbody).1
      | optNone hbody => obtain ⟨-, rfl, rfl⟩ := ih hbody; exact ⟨rfl, rfl, rfl⟩
      | leaf hleaf | leafFail hleaf => cases hleaf
  | notAhead _ ih =>
      cases h' with
      | notAhead hbody => obtain ⟨-, -, rfl⟩ := ih hbody; exact ⟨rfl, rfl, rfl⟩
      | notAheadFail hbody => cases (ih hbody).1
      | leaf hleaf | leafFail hleaf => cases hleaf
  | notAheadFail _ ih =>
      cases h' with
      | notAhead hbody => cases (ih hbody).1
      | notAheadFail hbody => obtain ⟨-, -, rfl⟩ := ih hbody; exact ⟨rfl, rfl, rfl⟩
      | leaf hleaf | leafFail hleaf => cases hleaf

/-! Every operator of a pattern is tried in one way. -/

theorem call_cases (h : Tries chars (.call rule) i result r c) :
    ∃ c', c = .attempt rule i (result.elim (some r) fun _ => none) c' ∧
      Tries chars rule.production i result r c' := by
  cases h with
  | call hbody => exact ⟨_, rfl, hbody⟩
  | callFail hbody => exact ⟨_, rfl, hbody⟩
  | leaf hleaf | leafFail hleaf => cases hleaf

theorem call_some (h : Tries chars (.call rule) i (some j) r c) :
    ∃ c', c = .attempt rule i none c' ∧ Tries chars rule.production i (some j) r c' :=
  h.call_cases

theorem call_none (h : Tries chars (.call rule) i none r c) :
    ∃ c', c = .attempt rule i (some r) c' ∧ Tries chars rule.production i none r c' :=
  h.call_cases

theorem seq_cases (h : Tries chars (.seq p q) i result r c) :
    result = none ∧ Tries chars p i none r c ∨
      ∃ k r₁ r₂ c₁ c₂, r = max r₁ r₂ ∧ c = .next c₁ c₂ ∧ Tries chars p i (some k) r₁ c₁ ∧
        Tries chars q k result r₂ c₂ := by
  cases h with
  | seqFail hfirst => exact .inl ⟨rfl, hfirst⟩
  | seq hfirst hsecond => exact .inr ⟨_, _, _, _, _, rfl, rfl, hfirst, hsecond⟩
  | leaf hleaf | leafFail hleaf => cases hleaf

theorem seq_some (h : Tries chars (.seq p q) i (some j) r c) :
    ∃ k r₁ r₂ c₁ c₂, r = max r₁ r₂ ∧ c = .next c₁ c₂ ∧ Tries chars p i (some k) r₁ c₁ ∧
      Tries chars q k (some j) r₂ c₂ := by
  rcases h.seq_cases with ⟨hresult, -⟩ | h
  · cases hresult
  · exact h

theorem seq_none (h : Tries chars (.seq p q) i none r c) :
    Tries chars p i none r c ∨
      ∃ k r₁ r₂ c₁ c₂, r = max r₁ r₂ ∧ c = .next c₁ c₂ ∧ Tries chars p i (some k) r₁ c₁ ∧
        Tries chars q k none r₂ c₂ :=
  h.seq_cases.imp_left And.right

theorem alt_cases (h : Tries chars (.alt p q) i result r c) :
    (∃ j, result = some j ∧ Tries chars p i (some j) r c) ∨
      ∃ r₁ r₂ c₁ c₂, r = max r₁ r₂ ∧ c = .next c₁ c₂ ∧ Tries chars p i none r₁ c₁ ∧
        Tries chars q i result r₂ c₂ := by
  cases h with
  | altFirst hfirst => exact .inl ⟨_, rfl, hfirst⟩
  | altSecond hfirst hsecond => exact .inr ⟨_, _, _, _, rfl, rfl, hfirst, hsecond⟩
  | leaf hleaf | leafFail hleaf => cases hleaf

theorem alt_some (h : Tries chars (.alt p q) i (some j) r c) :
    Tries chars p i (some j) r c ∨
      ∃ r₁ r₂ c₁ c₂, r = max r₁ r₂ ∧ c = .next c₁ c₂ ∧ Tries chars p i none r₁ c₁ ∧
        Tries chars q i (some j) r₂ c₂ := by
  rcases h.alt_cases with ⟨_, ⟨⟩, h⟩ | h
  · exact .inl h
  · exact .inr h

theorem alt_none (h : Tries chars (.alt p q) i none r c) :
    ∃ r₁ r₂ c₁ c₂, r = max r₁ r₂ ∧ c = .next c₁ c₂ ∧ Tries chars p i none r₁ c₁ ∧
      Tries chars q i none r₂ c₂ := by
  rcases h.alt_cases with ⟨_, hresult, -⟩ | h
  · cases hresult
  · exact h

theorem of_group (h : Tries chars (.group p) i result r c) : Tries chars p i result r c := by
  cases h with
  | group hbody => exact hbody
  | leaf hleaf | leafFail hleaf => cases hleaf

theorem star_some (h : Tries chars (.star p) i (some j) r c) :
    j = i ∧ Tries chars p i none r c ∨
      ∃ k r₁ r₂ c₁ c₂, r = max r₁ r₂ ∧ c = .next c₁ c₂ ∧ i < k ∧ Tries chars p i (some k) r₁ c₁ ∧
        Tries chars (.star p) k (some j) r₂ c₂ := by
  cases h with
  | starDone hbody => exact .inl ⟨rfl, hbody⟩
  | starMore hbody hprogress hrest =>
      exact .inr ⟨_, _, _, _, _, rfl, rfl, hprogress, hbody, hrest⟩
  | leaf hleaf => cases hleaf

theorem opt_some (h : Tries chars (.opt p) i (some j) r c) :
    Tries chars p i (some j) r c ∨ j = i ∧ Tries chars p i none r c := by
  cases h with
  | optSome hbody => exact .inl hbody
  | optNone hbody => exact .inr ⟨rfl, hbody⟩
  | leaf hleaf => cases hleaf

theorem not_none_of_isTotal (hp : p.isTotal = true) : ¬ Tries chars p i none r c := by
  intro h
  induction p generalizing i r c with
  | act =>
      obtain ⟨_, hfails⟩ := h.fails
      cases hfails
  | star => exact not_fails_star h.fails
  | opt => exact not_fails_opt h.fails
  | seq p q ihp ihq =>
      obtain ⟨hp, hq⟩ := (Bool.and_eq_true _ _).mp hp
      rcases h.seq_none with h | ⟨k, _, _, _, _, -, -, -, h⟩
      · exact ihp hp h
      · exact ihq hq h
  | group p ih => exact ih hp h.of_group
  | _ => cases hp

theorem leaf_some (hp : p.isLeaf = true) (h : Tries chars p i (some j) r c) :
    r = j ∧ c = .nothing ∧ Accepts chars p i j := by
  cases h with
  | leaf _ haccepts => exact ⟨rfl, rfl, haccepts⟩
  | _ => cases hp

theorem leaf_none (hp : p.isLeaf = true) (h : Tries chars p i none r c) :
    r = i ∧ c = .nothing ∧ Fails chars p i := by
  cases h with
  | leafFail _ hfails => exact ⟨rfl, rfl, hfails⟩
  | _ => cases hp

theorem char_some {a : Char} (h : Tries chars (.char a) i (some j) r c) :
    chars[i]? = some a ∧ j = i + 1 ∧ r = i + 1 ∧ c = .nothing := by
  obtain ⟨rfl, rfl, haccepts⟩ := leaf_some rfl h
  obtain ⟨hchar, rfl⟩ := accepts_char_iff.mp haccepts
  exact ⟨hchar, rfl, rfl, rfl⟩

theorem char_none {a : Char} (h : Tries chars (.char a) i none r c) :
    chars[i]? ≠ some a ∧ r = i ∧ c = .nothing := by
  obtain ⟨rfl, rfl, hfails⟩ := leaf_none rfl h
  exact ⟨fails_char_iff.mp hfails, rfl, rfl⟩

theorem act_some {action : Action} (h : Tries chars (.act action) i (some j) r c) :
    j = i ∧ r = i ∧ c = .nothing := by
  obtain ⟨rfl, rfl, haccepts⟩ := leaf_some rfl h
  obtain rfl := accepts_act_iff.mp haccepts
  exact ⟨rfl, rfl, rfl⟩

/-- An attempt does not look before its offset, and a match looks as far as it reads. -/
theorem bounds (h : Tries chars p i result r c) : i ≤ r ∧ ∀ j ∈ result, i ≤ j ∧ j ≤ r := by
  induction h with
  | leaf _ haccepts => have := haccepts.le; simp [this]
  | _ => grind

theorem le_reach (h : Tries chars p i result r c) : i ≤ r :=
  h.bounds.1

theorem stop_le_reach (h : Tries chars p i (some j) r c) : j ≤ r :=
  (h.bounds.2 j rfl).2

/-- What an attempt reports as failed lies between its offset and what it looked at. -/
theorem failures_bounds (h : Tries chars p i result r c) :
    ∀ t ∈ c.failures, i ≤ t.start ∧ t.start ≤ t.stop ∧ t.stop ≤ r := by
  induction h with
  | leaf | leafFail => exact fun t ht => nomatch ht
  | notAhead | notAheadFail => exact fun t ht => nomatch ht
  | call _ ih =>
      intro t ht
      rw [Course.failures, Course.reported, List.append_nil] at ht
      exact ih t ht
  | @callFail rule i r c hbody ih =>
      intro t ht
      have hle := hbody.le_reach
      rw [Course.failures, Course.reported, List.mem_append] at ht
      rcases ht with ht | ht
      · exact ih t ht
      · split at ht
        · cases ht
        · cases List.mem_singleton.mp ht
          exact ⟨Nat.le_refl _, hle, Nat.le_refl _⟩
  | seq hfirst _ ih ih' =>
      intro t ht
      have := hfirst.accepts.le
      rcases List.mem_append.mp ht with ht | ht
      · have := ih t ht; omega
      · have := ih' t ht; omega
  | altSecond _ _ ih ih' =>
      intro t ht
      rcases List.mem_append.mp ht with ht | ht
      · have := ih t ht; omega
      · have := ih' t ht; omega
  | starMore _ hprogress _ ih ih' =>
      intro t ht
      rcases List.mem_append.mp ht with ht | ht
      · have := ih t ht; omega
      · have := ih' t ht; omega
  | seqFail _ ih | altFirst _ ih | group _ ih | starDone _ ih | optSome _ ih | optNone _ ih =>
      exact ih

end Tries

end Tries

/-- The offsets at which remembered rules are attempted. -/
def Course.remembered : Course → List Nat
  | .nothing => []
  | .next first second => first.remembered ++ second.remembered
  | .ahead inner => inner.remembered
  | .attempt rule start _ inner =>
    if rule.isRemembered then start :: inner.remembered else inner.remembered

/-- A course that neither counts nor remembers anything. -/
structure Course.Plain (c : Course) : Prop where
  remembered : c.remembered = []
  openings : ∀ others, c.openings others = []

/-- A course that moreover reports nothing. -/
structure Course.Quiet (c : Course) : Prop extends c.Plain where
  failures : c.failures = []

theorem Pattern.callsOnly_mono {allowed allowed' : Rule → Bool} {p : Pattern}
    (hle : ∀ rule, allowed rule = true → allowed' rule = true)
    (h : p.callsOnly allowed = true) : p.callsOnly allowed' = true := by
  induction p with
  | char | range | any | stop | act => rfl
  | call rule => exact hle rule h
  | seq p q ihp ihq | alt p q ihp ihq =>
      obtain ⟨hp, hq⟩ := (Bool.and_eq_true _ _).mp h
      exact (Bool.and_eq_true _ _).mpr ⟨ihp hp, ihq hq⟩
  | group p ih | star p ih | opt p ih | notAhead p ih => exact ih h

namespace Tries

variable {chars : Array Char} {p q : Pattern} {rule : Rule} {i j r : Nat} {result : Option Nat}
  {c : Course}

/-- A property of courses that holds of nothing, and of a course if it holds of its parts, holds
of all courses of patterns that call only rules of a class, if these call only such rules. -/
theorem closed {allowed : Rule → Bool} {P : Course → Prop} (hnothing : P .nothing)
    (hnext : ∀ {c c'}, P c → P c' → P (.next c c')) (hahead : ∀ {c}, P c → P (.ahead c))
    (hproduction : ∀ rule, allowed rule = true → rule.production.callsOnly allowed = true)
    (hmatched : ∀ {rule i c}, allowed rule = true → P c → P (.attempt rule i none c))
    (hfailed : ∀ {rule i r c}, allowed rule = true → Tries chars rule.production i none r c →
      P c → P (.attempt rule i (some r) c))
    (h : Tries chars p i result r c) (hp : p.callsOnly allowed = true) : P c := by
  induction h with
  | leaf | leafFail => exact hnothing
  | call _ ih => exact hmatched hp (ih (hproduction _ hp))
  | callFail hbody ih => exact hfailed hp hbody (ih (hproduction _ hp))
  | seq _ _ ih ih' | altSecond _ _ ih ih' =>
      obtain ⟨hp, hq⟩ := (Bool.and_eq_true _ _).mp hp
      exact hnext (ih hp) (ih' hq)
  | seqFail _ ih | altFirst _ ih => exact ih ((Bool.and_eq_true _ _).mp hp).1
  | starMore _ _ _ ih ih' => exact hnext (ih hp) (ih' hp)
  | group _ ih | starDone _ ih | optSome _ ih | optNone _ ih => exact ih hp
  | notAhead _ ih | notAheadFail _ ih => exact hahead (ih hp)

end Tries

namespace Course

theorem remembered_attempt {rule : Rule} {start : Nat} {failure : Option Nat} {c : Course}
    (h : rule.isRemembered = true) :
    (attempt rule start failure c).remembered = start :: c.remembered := by
  rw [Course.remembered, if_pos h]

theorem remembered_forgotten {rule : Rule} {start : Nat} {failure : Option Nat} {c : Course}
    (h : rule.isRemembered = false) :
    (attempt rule start failure c).remembered = c.remembered := by
  rw [Course.remembered, if_neg (Bool.eq_false_iff.mp h)]

theorem Plain.nothing : Plain .nothing :=
  ⟨rfl, fun _ => rfl⟩

theorem Plain.next {c c' : Course} (h : c.Plain) (h' : c'.Plain) : Plain (.next c c') :=
  ⟨by rw [Course.remembered, h.remembered, h'.remembered]; rfl,
    fun others => by rw [Course.openings, h.openings, h'.openings]; rfl⟩

theorem Plain.ahead {c : Course} (h : c.Plain) : Plain (.ahead c) :=
  ⟨h.remembered, h.openings⟩

theorem Plain.attempt {rule : Rule} {start : Nat} {failure : Option Nat} {c : Course}
    (hcounted : rule.isCounted = false) (hremembered : rule.isRemembered = false) (h : c.Plain) :
    Plain (.attempt rule start failure c) :=
  ⟨(remembered_forgotten hremembered).trans h.remembered,
    fun others => by rw [Course.openings, hcounted]; exact h.openings others⟩

theorem Quiet.nothing : Quiet .nothing :=
  ⟨.nothing, rfl⟩

end Course

theorem Rule.isPlain_iff {rule : Rule} (h : rule.isPlain = true) :
    rule.isCounted = false ∧ rule.isRemembered = false := by
  cases rule <;> first | exact ⟨rfl, rfl⟩ | cases h

namespace Tries

variable {chars : Array Char} {p q : Pattern} {rule : Rule} {i j r : Nat} {result : Option Nat}
  {c : Course}

theorem plain (h : Tries chars p i result r c) (hp : p.callsOnly Rule.isPlain = true) :
    c.Plain :=
  h.closed .nothing .next .ahead (by intro rule; cases rule <;> decide)
    (fun hrule hc => .attempt (Rule.isPlain_iff hrule).1 (Rule.isPlain_iff hrule).2 hc)
    (fun hrule _ hc => .attempt (Rule.isPlain_iff hrule).1 (Rule.isPlain_iff hrule).2 hc) hp

theorem quiet (h : Tries chars p i result r c) (hp : p.callsOnly Rule.isQuiet = true) :
    c.Quiet := by
  have hplain : ∀ rule, Rule.isQuiet rule = true → rule.isPlain = true := by
    intro rule
    cases rule <;> decide
  refine ⟨h.plain (Pattern.callsOnly_mono hplain hp), ?_⟩
  refine h.closed (P := fun c => c.failures = []) rfl (fun hc hc' => ?_) (fun _ => rfl)
    (by intro rule; cases rule <;> decide) (fun _ hc => ?_) (fun hrule hbody hc => ?_) hp
  · rw [Course.failures, hc, hc', List.append_nil]
  · rw [Course.failures, hc, Course.reported, List.append_nil]
  · rw [Course.failures, hc, Course.reported, List.nil_append]
    -- Rules for layout repeat something and do not fail.
    split
    · rfl
    next hlexical =>
      simp only [Rule.isQuiet, Bool.or_eq_true, decide_eq_true_eq] at hrule
      rcases hrule with (hrule | rfl) | rfl
      · exact absurd hrule hlexical
      · exact absurd hbody (not_none_of_isTotal rfl)
      · exact absurd hbody (not_none_of_isTotal rfl)

/-- A line end that is read for a carriage return and a line feed, but has only the return, is
read by the return alone. -/
theorem newline_commits (h : Tries chars (.call .newline) i result r c) : r = result.getD i := by
  cases result with
  | some j =>
      obtain ⟨c', -, hbody⟩ := h.call_some
      rcases hbody.alt_some with hpair | ⟨r₁, r₂, c₁, c₂, rfl, -, hpair, hsingle⟩
      · obtain ⟨k, r₁, r₂, c₁, c₂, rfl, -, hreturn, hfeed⟩ := hpair.of_group.seq_some
        obtain ⟨-, rfl, rfl, -⟩ := hreturn.char_some
        obtain ⟨-, rfl, rfl, -⟩ := hfeed.char_some
        exact Nat.max_eq_right (Nat.le_succ _)
      · have hsingle' : j = i + 1 ∧ r₂ = i + 1 := by
          rcases hsingle.alt_some with hfeed | ⟨r₁', r₂', c₁', c₂', rfl, -, hfeed, hreturn⟩
          · obtain ⟨-, rfl, rfl, -⟩ := hfeed.char_some
            exact ⟨rfl, rfl⟩
          · obtain ⟨-, rfl, -⟩ := hfeed.char_none
            obtain ⟨-, rfl, rfl, -⟩ := hreturn.char_some
            exact ⟨rfl, Nat.max_eq_right (Nat.le_succ _)⟩
        obtain ⟨rfl, rfl⟩ := hsingle'
        refine Nat.max_eq_right ?_
        rcases hpair.of_group.seq_none with hreturn | ⟨k, r₁', r₂', c₁', c₂', rfl, -, hreturn, hfeed⟩
        · obtain ⟨-, rfl, -⟩ := hreturn.char_none
          exact Nat.le_succ _
        · obtain ⟨-, rfl, rfl, -⟩ := hreturn.char_some
          obtain ⟨-, rfl, -⟩ := hfeed.char_none
          exact Nat.max_le.mpr ⟨Nat.le_refl _, Nat.le_refl _⟩
  | none =>
      obtain ⟨c', -, hbody⟩ := h.call_none
      obtain ⟨r₁, r₂, c₁, c₂, rfl, -, hpair, hsingle⟩ := hbody.alt_none
      obtain ⟨r₁', r₂', c₁', c₂', rfl, -, hfeed, hreturn⟩ := hsingle.alt_none
      obtain ⟨-, rfl, -⟩ := hfeed.char_none
      obtain ⟨hnoReturn, rfl, -⟩ := hreturn.char_none
      rcases hpair.of_group.seq_none with hreturn' | ⟨k, _, _, _, _, -, -, hreturn', -⟩
      · obtain ⟨-, rfl, -⟩ := hreturn'.char_none
        simp
      · exact absurd hreturn'.char_some.1 hnoReturn

/-- What commits itself looks as far as it reads, and no further if it fails. -/
theorem commits (h : Tries chars p i result r c) (hp : p.commits = true) : r = result.getD i := by
  have hproduction : ∀ rule : Rule, rule.isExact = true → rule ≠ .newline →
      rule.production.commits = true := by
    intro rule
    cases rule <;> decide
  induction h with
  | leaf | leafFail => rfl
  | @call rule i j r c hbody ih =>
      by_cases hnewline : rule = .newline
      · subst hnewline
        exact newline_commits (.call hbody)
      · exact ih (hproduction rule hp hnewline)
  | @callFail rule i r c hbody ih =>
      by_cases hnewline : rule = .newline
      · subst hnewline
        exact newline_commits (.callFail hbody)
      · exact ih (hproduction rule hp hnewline)
  | seqFail _ ih =>
      simp only [Pattern.commits, Bool.and_eq_true] at hp
      exact ih hp.1.1
  | @seq p q i k result r₁ r₂ c₁ c₂ hfirst hsecond ih ih' =>
      simp only [Pattern.commits, Bool.and_eq_true, Bool.or_eq_true] at hp
      obtain ⟨⟨hp, hq⟩, hsure⟩ := hp
      obtain rfl : r₁ = k := ih hp
      have hsecond' := ih' hq
      cases result with
      | some j => have := hsecond.accepts.le; simp only [Option.getD_some] at *; omega
      | none =>
          rcases hsure with hsure | hsure
          · exact absurd hsecond (not_none_of_isTotal hsure)
          · have hstays : r₁ = i := by
              have haccepts := hfirst.accepts
              cases p with
              | stop => exact (accepts_stop_iff.mp haccepts).2
              | act => exact accepts_act_iff.mp haccepts
              | notAhead => exact (accepts_notAhead_iff.mp haccepts).2
              | _ => cases hsure
            simp only [Option.getD_none] at *
            omega
  | altFirst _ ih =>
      simp only [Pattern.commits, Bool.and_eq_true] at hp
      exact ih hp.1
  | @altSecond p q i result r₁ r₂ c₁ c₂ hfirst hsecond ih ih' =>
      simp only [Pattern.commits, Bool.and_eq_true] at hp
      obtain rfl : r₁ = i := ih hp.1
      have := hsecond.le_reach
      rw [Nat.max_eq_right this]
      exact ih' hp.2
  | group _ ih | starDone _ ih | optSome _ ih | optNone _ ih => exact ih hp
  | starMore hbody _ hrest ih ih' =>
      have := ih hp
      have := ih' hp
      have := hrest.accepts.le
      simp only [Option.getD_some] at *
      omega
  | notAhead | notAheadFail => rfl

end Tries

end Sumscript

import Sumscript.Proofs.Matching

/-! # Which rules a rule can reach without moving

Every rule has a rank, and a rule only tries rules of lower rank at the offset where it starts.
So no rule is open twice at one offset. Rules that can start an expression at their own offset
are only tried behind a character that the enclosing expression or statement has consumed.

Every alternative but the last of a choice is a character, a rule or a group. So what is tried
after it starts where it started.
-/

namespace Sumscript

namespace Rule

/-- Whether a rule can match without consuming a character. -/
def nullable : Rule → Bool
  | .funcArgs | .spaces | .simpleSpaces | .endOfInput => true
  | _ => false

/-- The place of a rule in the order in which rules may call each other at one offset. -/
def rank : Rule → Nat
  | .alphaChar | .digit | .newline | .simpleSpace | .op | .endOfInput => 0
  | .alphaNumericChar | .comment | .simpleSpaces | .number | .name | .unop => 1
  | .space | .literal | .variable | .funcCall | .statementSep => 2
  | .spaces | .noBinopExpression | .assign => 3
  | .binop | .statement => 4
  | .expression | .statements => 5
  | .funcArg | .program => 6
  | .funcArgs => 7

/-- An upper bound of all ranks. -/
def rankBound : Nat := 8

theorem rank_lt (rule : Rule) : rule.rank < rankBound := by
  cases rule <;> decide

/-- Whether a rule can start an expression at the offset where it starts itself. -/
def startsExpression : Rule → Bool
  | .funcArgs | .funcArg | .expression => true
  | _ => false

end Rule

namespace Pattern

/-- Whether a pattern can match without consuming a character. -/
def nullable : Pattern → Bool
  | .char _ | .range _ _ | .any => false
  | .stop | .act _ | .star _ | .opt _ | .notAhead _ => true
  | .call rule => rule.nullable
  | .seq p q => p.nullable && q.nullable
  | .alt p q => p.nullable || q.nullable
  | .group p => p.nullable

/-- Whether a pattern that fails is back where it started. A sequence is not: what fails in it may
come after what has matched. -/
def restores : Pattern → Bool
  | .seq _ _ => false
  | .alt p q => p.restores && q.restores
  | _ => true

/-- Whether a pattern only calls rules below a rank at the offset where it starts, and only if
`opens` holds some that can start an expression there, repeats only what consumes characters,
and goes on only from where it started when an alternative fails. -/
def guarded (rank : Nat) (opens : Bool) : Pattern → Bool
  | .char _ | .range _ _ | .any | .stop | .act _ => true
  | .call rule => rule.rank < rank && (opens || !rule.startsExpression)
  | .seq p q => p.guarded rank opens &&
      q.guarded (if p.nullable then rank else Rule.rankBound) (!p.nullable || opens)
  | .alt p q => p.guarded rank opens && q.guarded rank opens && p.restores
  | .star p => p.guarded rank opens && !p.nullable
  | .group p | .opt p | .notAhead p => p.guarded rank opens

theorem guarded_weaken {rank rank' : Nat} {opens opens' : Bool} {p : Pattern}
    (h : p.guarded rank opens = true) (hrank : rank ≤ rank')
    (hopens : opens = true → opens' = true) :
    p.guarded rank' opens' = true := by
  induction p generalizing rank rank' opens opens' with
  | char | range | any | stop | act => rfl
  | call rule =>
      simp only [guarded, Bool.and_eq_true, Bool.or_eq_true, decide_eq_true_eq] at h ⊢
      exact ⟨Nat.lt_of_lt_of_le h.1 hrank, h.2.imp hopens id⟩
  | seq p q ihp ihq =>
      simp only [guarded, Bool.and_eq_true] at h ⊢
      refine ⟨ihp h.1 hrank hopens, ihq h.2 ?_ ?_⟩
      · split <;> omega
      · simp only [Bool.or_eq_true]
        exact Or.imp_right hopens
  | alt p q ihp ihq =>
      simp only [guarded, Bool.and_eq_true] at h ⊢
      exact ⟨⟨ihp h.1.1 hrank hopens, ihq h.1.2 hrank hopens⟩, h.2⟩
  | star p ih =>
      simp only [guarded, Bool.and_eq_true] at h ⊢
      exact ⟨ih h.1 hrank hopens, h.2⟩
  | group p ih | opt p ih | notAhead p ih => exact ih h hrank hopens

theorem nullable_production (rule : Rule) (h : rule.production.nullable = true) :
    rule.nullable = true := by
  cases rule <;> revert h <;> decide

/-- Behind the depth guard of an expression its alternatives are no new expressions. -/
theorem guarded_production (rule : Rule) :
    rule.production.guarded rule.rank (rule.startsExpression && !rule.isCounted) = true := by
  cases rule <;> decide

/-- A pattern that cannot match nothing consumes a character when it matches. -/
theorem lt_of_not_nullable {chars : Array Char} {p : Pattern} {i : Nat} {v : Verdict}
    (h : Matches chars p i v) :
    match v with
    | .matched j _ _ => p.nullable = false → i < j
    | .failed _ => True := by
  induction h with
  | @call i j reach rule log hbody ih =>
      intro hrule
      apply ih
      cases hproduction : rule.production.nullable with
      | false => rfl
      | true =>
          have hnullable := nullable_production rule hproduction
          rw [nullable, hnullable] at hrule
          cases hrule
  | seq hfirst hsecond ihfirst ihsecond =>
      have := hfirst.bounds
      have := hsecond.bounds
      grind [nullable]
  | _ => grind [nullable]

end Pattern

theorem Succeeds.lt {chars : Array Char} {p : Pattern} {i j : Nat} {log : TokenLog}
    (h : Succeeds chars p i j log) (hp : p.nullable = false) : i < j := by
  obtain ⟨_, h⟩ := h
  exact Pattern.lt_of_not_nullable h hp

end Sumscript

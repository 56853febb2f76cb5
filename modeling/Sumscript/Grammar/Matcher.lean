import Sumscript.Grammar.Pattern
import Sumscript.Grammar.Token

/-! # Matching a text against the grammar

The matcher runs the pattern of a rule over a text and keeps one log of the whole match. A rule, a
group, an option, a round of a repetition and a lookahead note where the cursor and the log stand
when they start, and go back there when they fail, so a failed alternative leaves no token behind.
A sequence and a choice go back nowhere. What was learned on the way stays: how far into the text
an attempt looked, the failed attempt that got furthest, the remembered outcomes, and the place
where the nesting limit was reached.

A rule that succeeds adds its token to the log. A rule that fails competes for the furthest
failure with the greatest offset it looked at; of equals the one that began last wins, and of
those the latest. Lexical rules and attempts inside a lookahead do not compete.
-/

namespace Sumscript.Matcher

/-- A text and the bounds on matching it. -/
structure Setup where
  chars : Array Char
  /-- How many matches of counted rules may be open at once. -/
  maxDepth : Nat
  /-- Whether outcomes of remembered rules are reused. -/
  reuse : Bool := true

/-- The remembered outcome of a rule at an offset. -/
inductive Memory where
  /-- A match up to `stop` that looked as far as `reach` and logged `tokens`, newest first. -/
  | matched (stop reach : Nat) (tokens : List Token)
  /-- A failure that looked as far as `reach`. -/
  | failed (reach : Nat)
deriving DecidableEq, Repr, Inhabited

/-- A place to go back to: where the cursor stands and how many tokens are logged. -/
structure Checkpoint where
  cursor : Nat
  logLength : Nat
deriving DecidableEq, Repr, Inhabited

/-- Where a match stands and what it has learned. -/
structure State where
  cursor : Nat
  /-- The greatest offset that the innermost open rule has moved past. -/
  reach : Nat
  /-- The tokens of the whole match so far, newest first. -/
  log : List Token
  /-- The failed attempt that got furthest. -/
  furthest : Option Token
  /-- How many lookaheads are open. -/
  lookaheads : Nat
  /-- How many counted rules are open. -/
  depth : Nat
  /-- The remembered outcomes by rule and offset, newest first. -/
  memory : List ((Rule × Nat) × Memory)
  /-- The offset at which the nesting limit was reached. -/
  tooDeep : Option Nat
deriving Repr, Inhabited

namespace State

/-- The state before a match. -/
def initial : State :=
  ⟨0, 0, [], none, 0, 0, [], none⟩

/-- A state moved past one character. -/
def advance (s : State) : State :=
  { s with cursor := s.cursor + 1, reach := max s.reach (s.cursor + 1) }

/-- The place at which a state stands. -/
def checkpoint (s : State) : Checkpoint :=
  ⟨s.cursor, s.log.length⟩

/-- A state that goes back to a place: the tokens logged since then are dropped. -/
def restore (s : State) (place : Checkpoint) : State :=
  { s with cursor := place.cursor, log := s.log.drop (s.log.length - place.logLength) }

/-- The tokens that a state has logged since a place, newest first. -/
def loggedSince (s : State) (place : Checkpoint) : List Token :=
  s.log.take (s.log.length - place.logLength)

/-- The state in which the pattern of a rule starts: its reach is its own start. -/
def enter (s : State) : State :=
  { s with reach := s.cursor }

/-- The state of the enclosing rule `outer` after an inner rule ended in state `s`. -/
def leave (s outer : State) : State :=
  { s with reach := max outer.reach s.reach }

/-- A state that knows of one more failed attempt. -/
def recordFailure (s : State) (rule : Rule) (start reach : Nat) : State :=
  if s.lookaheads > 0 || rule.isLexical then s
  else
    let isFurther := match s.furthest with
      | none => true
      | some best => reach > best.stop || (reach == best.stop && start ≥ best.start)
    if isFurther then { s with furthest := some ⟨.rule rule, start, reach⟩ } else s

/-- A state with one more token in its log. -/
def push (s : State) (label : Label) (start : Nat) : State :=
  { s with log := ⟨label, start, s.cursor⟩ :: s.log }

end State

/-- Tells from a state whether something matches, and the state afterwards. -/
abbrev Match := State → Bool × State

/-- Repeats a match, at most `count` times, until it fails or consumes nothing. -/
def repeatMatch (body : Match) : Nat → State → State
  | 0, s => s
  | count + 1, s =>
    match body s with
    | (false, s') => s'.restore s.checkpoint
    | (true, s') => if s'.cursor == s.cursor then s' else repeatMatch body count s'

/-- Matches one character that satisfies a condition. -/
def matchChar (chars : Array Char) (accepts : Char → Bool) : Match := fun s =>
  match chars[s.cursor]? with
  | some c => if accepts c then (true, s.advance) else (false, s)
  | none => (false, s)

/-- Matches a pattern, given how to match a rule. -/
def matchPattern (chars : Array Char) (callRule : Rule → Match) : Pattern → Match
  | .char c => matchChar chars (· == c)
  | .range low high => matchChar chars fun c => low ≤ c && c ≤ high
  | .any => matchChar chars fun _ => true
  | .stop => fun s => (chars.size ≤ s.cursor, s)
  | .act action => fun s => (true, s.push (.action action) s.cursor)
  | .call rule => callRule rule
  | .seq first second => fun s =>
    match matchPattern chars callRule first s with
    | (false, s') => (false, s')
    | (true, s') => matchPattern chars callRule second s'
  | .alt first second => fun s =>
    match matchPattern chars callRule first s with
    | (true, s') => (true, s')
    | (false, s') => matchPattern chars callRule second s'
  | .group body => fun s =>
    match matchPattern chars callRule body s with
    | (true, s') => (true, s')
    | (false, s') => (false, s'.restore s.checkpoint)
  | .star body => fun s =>
    (true, repeatMatch (matchPattern chars callRule body) (chars.size - s.cursor + 1) s)
  | .opt body => fun s =>
    match matchPattern chars callRule body s with
    | (true, s') => (true, s')
    | (false, s') => (true, s'.restore s.checkpoint)
  | .notAhead body => fun s =>
    match matchPattern chars callRule body { s with lookaheads := s.lookaheads + 1 } with
    | (matched, s') =>
      -- What was seen ahead does not count as seen, but the memory of it stays.
      (!matched,
        { s'.restore s.checkpoint with reach := s.reach, lookaheads := s'.lookaheads - 1 })

/-- Matches the body of a rule: adds its token, or takes back what it did and records the
failure. -/
def attempt (rule : Rule) (body : Match) : Match := fun s =>
  match body s.enter with
  | (true, s') => (true, (s'.push (.rule rule) s.cursor).leave s)
  | (false, s') =>
    (false, ((s'.recordFailure rule s.cursor s'.reach).restore s.checkpoint).leave s)

/-- Matches a remembered rule at most once for every offset. -/
def remember (rule : Rule) (body : Match) : Match := fun s =>
  match s.memory.lookup (rule, s.cursor) with
  | some (.matched stop reach tokens) =>
    (true, { s with cursor := stop, reach := max s.reach reach, log := tokens ++ s.log })
  | some (.failed reach) => (false, { s with reach := max s.reach reach })
  | none =>
    match body s.enter with
    | (true, s') =>
      let outcome := Memory.matched s'.cursor s'.reach (s'.loggedSince s.checkpoint)
      (true, { s' with memory := ((rule, s.cursor), outcome) :: s'.memory }.leave s)
    | (false, s') =>
      (false, { s' with memory := ((rule, s.cursor), .failed s'.reach) :: s'.memory }.leave s)

/-- Matches a counted rule below the nesting limit. Once the limit was reached, nothing that is
counted matches any more. -/
def count (maxDepth : Nat) (body : Match) : Match := fun s =>
  if s.tooDeep.isSome then (false, s)
  else if s.depth ≥ maxDepth then (false, { s with tooDeep := some s.cursor })
  else
    match body { s with depth := s.depth + 1 } with
    | (matched, s') => (matched, { s' with depth := s'.depth - 1 })

/-- How a rule is matched, given how its pattern is. -/
def matchRule (setup : Setup) (rule : Rule) (body : Match) : Match :=
  if rule.isCounted then count setup.maxDepth (attempt rule body)
  else if rule.isRemembered && setup.reuse then remember rule (attempt rule body)
  else attempt rule body

/-- Matches a rule with at most `fuel` rules open inside each other. -/
def call (setup : Setup) : Nat → Rule → Match
  | 0, _ => fun s => (false, s)
  | fuel + 1, rule =>
    matchRule setup rule (matchPattern setup.chars (call setup fuel) rule.production)

/-- More rules than can be open inside each other: no rule is open twice at one offset. -/
def fuel (chars : Array Char) : Nat :=
  Rule.all.length * (chars.size + 1) + 1

/-- Matches a whole text against the grammar. -/
def run (setup : Setup) : Bool × State :=
  call setup (fuel setup.chars) .program .initial

end Sumscript.Matcher

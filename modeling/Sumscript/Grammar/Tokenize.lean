import Sumscript.Grammar.Matcher
import Sumscript.Source.Location

/-! # Tokenizing a text

Tokenizing matches a whole text as a program. It yields the log of the match or the syntax
error that explains why there is none. An expression that reached the nesting limit is reported
even if the rest of the text would match.
-/

namespace Sumscript

/-! ## Syntax errors

A text that does not match the grammar fails with the attempt that got furthest into it. A text
whose expressions nest too deep fails at the expression that would have gone one level too far.
-/

/-- Why a match of a whole text failed. -/
inductive SyntaxCause where
  /-- No alternative matched. -/
  | noMatch
  /-- Expressions nest deeper than the limit. -/
  | nestingLimit (limit : Nat)
deriving DecidableEq, Repr, Inhabited

namespace SyntaxCause

/-- The wording of a cause. -/
def message : SyntaxCause → String
  | .noMatch => "syntax error"
  | .nestingLimit limit => "expression nested deeper than " ++ toString limit ++ " levels"

end SyntaxCause

/-- A failed match: its cause, the label of the failed attempt, and what the attempt covered. -/
structure SyntaxError where
  cause : SyntaxCause
  label : Label
  range : Range
  snippet : String
deriving DecidableEq, Repr, Inhabited

namespace SyntaxError

/-- The error whose attempt is a token of a text. -/
def ofToken (cause : SyntaxCause) (token : Token) (chars : Array Char) : SyntaxError :=
  { cause
    label := token.label
    range := (LineTable.ofChars chars.toList).range token.span
    snippet := token.text chars }

/-- A position in words. -/
def place (p : Position) : String :=
  "line " ++ toString p.line ++ " column " ++ toString p.column

/-- The wording of a syntax error. -/
def message (e : SyntaxError) : String :=
  e.cause.message ++ " near " ++ e.label.render ++ " (" ++ place e.range.start ++ " - " ++
    place e.range.stop ++ "): " ++ Quoted.quote e.snippet

/-- The excerpt of a text around a syntax error. -/
def excerpt (e : SyntaxError) (chars : Array Char) : String :=
  Excerpt.ofRange chars.toList e.range

end SyntaxError

/-! ## From a text to its match log -/

/-- The nesting limit where none is given. -/
def defaultMaxDepth : Nat := 256

/-- The attempt to report when no attempt was recorded. -/
def Token.noAttempt : Token :=
  ⟨.rule .program, 0, 0⟩

/-- Matches a text under a nesting limit, with remembered outcomes reused or not. -/
def tokenizeWith (reuse : Bool) (maxDepth : Nat) (chars : Array Char) :
    Except SyntaxError TokenLog :=
  match Matcher.run ⟨chars, maxDepth, reuse⟩ with
  | (matched, s) =>
    match s.tooDeep with
    | some offset =>
      .error (.ofToken (.nestingLimit maxDepth) ⟨.rule .expression, offset, offset⟩ chars)
    | none =>
      if matched then .ok s.log.reverse
      else .error (.ofToken .noMatch (s.furthest.getD .noAttempt) chars)

/-- Matches a text under a nesting limit. -/
def tokenize (maxDepth : Nat) (chars : Array Char) : Except SyntaxError TokenLog :=
  tokenizeWith true maxDepth chars

end Sumscript

import Sumscript.Grammar.Rule
import Sumscript.Source.Location
import Sumscript.Text.Quoted

/-! # Tokens and match logs

A token says that a rule matched a span of the text, or that an action fell due at an offset.
A match log lists tokens in the order in which they were found, so the token of a rule stands
behind the tokens of its parts.
-/

namespace Sumscript

/-- A label with the span that it covers. -/
structure Token where
  label : Label
  start : Nat
  stop : Nat
deriving DecidableEq, Repr, Inhabited

namespace Token

/-- The span of a token. -/
def span (t : Token) : Span :=
  ⟨t.start, t.stop⟩

/-- Whether a token covers nothing. -/
def isEmpty (t : Token) : Bool :=
  t.start == t.stop

/-- The text under a token. Ends past the text count as its end, and a reversed span is empty. -/
def text (t : Token) (chars : Array Char) : String :=
  String.ofList (chars.extract t.start t.stop).toList

/-- The written form `Label start..stop`. -/
def render (t : Token) : String :=
  t.label.render ++ " " ++ toString t.start ++ ".." ++ toString t.stop

/-- The written form of a token with its quoted text, as one line of a listing. -/
def line (t : Token) (chars : Array Char) : String :=
  t.render ++ " " ++ Quoted.quote (t.text chars) ++ "\n"

end Token

/-- A list of tokens in the order in which they were found. -/
abbrev TokenLog := List Token

namespace TokenLog

/-- The tokens that mark actions. -/
def actions (log : TokenLog) : TokenLog :=
  log.filter fun token => token.label.isAction

/-- One line for every token. -/
def listing (log : TokenLog) (chars : Array Char) : String :=
  String.join (log.map fun token => token.line chars)

end TokenLog

end Sumscript

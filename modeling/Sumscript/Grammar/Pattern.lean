import Sumscript.Grammar.Rule

/-! # Patterns and the productions of the grammar

A pattern describes how to match a text from an offset on. Choice is ordered and commits to the
first alternative that matches; repetition takes as much as it can. A sequence or a choice that
fails takes nothing back: rules, groups, repetitions, options and lookaheads do. The productions
give every rule its pattern.

A plain line end separates statements, so only blanks and tabs may stand between a variable and
its equals sign and between a function name and its opening parenthesis. Everywhere else inside
a statement line ends and comments are layout.
-/

namespace Sumscript

/-- Ways to match a text from an offset on. -/
inductive Pattern where
  /-- The character `c`. -/
  | char (c : Char)
  /-- A character between two bounds, both included. -/
  | range (low high : Char)
  /-- Any one character. -/
  | any
  /-- The end of the text. -/
  | stop
  /-- Nothing; an action falls due. -/
  | act (action : Action)
  /-- What a rule matches. -/
  | call (rule : Rule)
  /-- One pattern and then another. -/
  | seq (first second : Pattern)
  /-- The first of two patterns or else the second. -/
  | alt (first second : Pattern)
  /-- A pattern that takes back what it did when it fails. -/
  | group (body : Pattern)
  /-- A pattern as often as it matches. -/
  | star (body : Pattern)
  /-- A pattern once or not at all. -/
  | opt (body : Pattern)
  /-- Nothing, at an offset where a pattern does not match. -/
  | notAhead (body : Pattern)
deriving DecidableEq, Repr, Inhabited

namespace Pattern

/-- Patterns one after another. -/
def inOrder : Pattern → List Pattern → Pattern
  | first, [] => first
  | first, second :: rest => .seq first (inOrder second rest)

/-- The first pattern of several that matches. -/
def oneOf : Pattern → List Pattern → Pattern
  | first, [] => first
  | first, second :: rest => .alt first (oneOf second rest)

/-- A pattern at least once. -/
def plus (body : Pattern) : Pattern :=
  .seq (.group body) (.star body)

end Pattern

open Pattern in
/-- The pattern of every rule. -/
def Rule.production : Rule → Pattern
  | .program =>
    inOrder (call .spaces) [call .statements, opt (call .statementSep), call .spaces,
      call .endOfInput]
  | .statements =>
    seq (call .statement) (star (seq (call .statementSep) (call .statement)))
  | .statementSep =>
    seq (plus (seq (call .simpleSpaces) (oneOf (char ';') [call .newline, call .comment])))
      (call .spaces)
  | .statement =>
    seq (alt (call .assign) (call .funcCall)) (act .addStatement)
  | .assign =>
    inOrder (call .variable) [call .simpleSpaces, char '=', call .spaces, call .expression,
      act .addAssign]
  | .funcCall =>
    inOrder (call .name) [act .addFuncCall, call .simpleSpaces, char '(', call .spaces,
      call .funcArgs, call .spaces, char ')']
  | .funcArgs =>
    seq (star (inOrder (call .funcArg) [call .spaces, char ',', call .spaces]))
      (opt (call .funcArg))
  | .funcArg => seq (call .expression) (act .addFuncCallArg)
  | .expression => alt (call .binop) (call .noBinopExpression)
  | .noBinopExpression =>
    oneOf (call .literal) [call .funcCall, call .variable, call .unop,
      group (inOrder (char '(') [call .spaces, call .expression, call .spaces, char ')'])]
  | .binop =>
    inOrder (call .noBinopExpression) [call .spaces, call .op, act .addBinopName, call .spaces,
      call .expression, act .endBinop]
  | .unop => inOrder (call .op) [act .startUnop, call .spaces, call .expression, act .endUnop]
  | .literal => seq (call .number) (act .addLiteral)
  | .variable => seq (call .name) (act .addVariable)
  | .op => char '+'
  | .number => plus (call .digit)
  | .name => seq (call .alphaChar) (star (call .alphaNumericChar))
  | .alphaChar => oneOf (range 'a' 'z') [range 'A' 'Z', char '_']
  | .digit => range '0' '9'
  | .alphaNumericChar => alt (call .alphaChar) (call .digit)
  | .comment =>
    inOrder (char '#') [star (seq (notAhead (call .newline)) any), opt (call .newline)]
  | .spaces => star (call .space)
  | .space => oneOf (char ' ') [char '\t', call .newline, call .comment]
  | .simpleSpaces => star (call .simpleSpace)
  | .simpleSpace => alt (char ' ') (char '\t')
  | .newline => oneOf (group (seq (char '\r') (char '\n'))) [char '\n', char '\r']
  | .endOfInput => stop

end Sumscript

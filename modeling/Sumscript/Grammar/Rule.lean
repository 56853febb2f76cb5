/-! # Rules and actions of the grammar

A rule names a production of the grammar. An action marks a place in the text at which the tree
under construction changes. Both label the entries of a match log.
-/

namespace Sumscript

/-- The productions of the grammar, from the program down to single characters. -/
inductive Rule where
  | program
  | statements
  | statementSep
  | statement
  | assign
  | funcCall
  | funcArgs
  | funcArg
  | expression
  | noBinopExpression
  | binop
  | unop
  | literal
  | variable
  | op
  | number
  | name
  | alphaChar
  | digit
  | alphaNumericChar
  | comment
  | spaces
  | space
  | simpleSpaces
  | simpleSpace
  | newline
  | endOfInput
deriving DecidableEq, Repr, Inhabited

namespace Rule

/-- All rules, in the order of the grammar. -/
def all : List Rule :=
  [.program, .statements, .statementSep, .statement, .assign, .funcCall, .funcArgs, .funcArg,
    .expression, .noBinopExpression, .binop, .unop, .literal, .variable, .op, .number, .name,
    .alphaChar, .digit, .alphaNumericChar, .comment, .spaces, .space, .simpleSpaces,
    .simpleSpace, .newline, .endOfInput]

/-- The name of a rule in logs and messages. -/
def render : Rule → String
  | .program => "Program"
  | .statements => "Statements"
  | .statementSep => "StatementSep"
  | .statement => "Statement"
  | .assign => "Assign"
  | .funcCall => "FuncCall"
  | .funcArgs => "FuncArgs"
  | .funcArg => "FuncArg"
  | .expression => "Expression"
  | .noBinopExpression => "NoBinopExpression"
  | .binop => "Binop"
  | .unop => "Unop"
  | .literal => "Literal"
  | .variable => "Variable"
  | .op => "Op"
  | .number => "Number"
  | .name => "Name"
  | .alphaChar => "AlphaChar"
  | .digit => "Digit"
  | .alphaNumericChar => "AlphaNumericChar"
  | .comment => "Comment"
  | .spaces => "Spaces"
  | .space => "Space"
  | .simpleSpaces => "SimpleSpaces"
  | .simpleSpace => "SimpleSpace"
  | .newline => "Newline"
  | .endOfInput => "EndOfInput"

/-- Whether the text of a match is kept for the next action that takes a text. -/
def capturesText : Rule → Bool
  | .name | .number | .op => true
  | _ => false

/-- Whether a rule describes single characters or comments. Its failures are not reported,
because a person looks for the failed phrase around them. -/
def isLexical : Rule → Bool
  | .alphaChar | .digit | .alphaNumericChar | .space | .simpleSpace | .newline | .comment => true
  | _ => false

/-- Whether the outcome of a rule is remembered for every offset at which it was tried. -/
def isRemembered : Rule → Bool
  | .noBinopExpression => true
  | _ => false

/-- Whether open matches of a rule count against the nesting limit. -/
def isCounted : Rule → Bool
  | .expression => true
  | _ => false

end Rule

/-- The changes to the tree under construction that a match asks for. -/
inductive Action where
  | addStatement
  | addAssign
  | addVariable
  | addLiteral
  | addFuncCall
  | addFuncCallArg
  | startUnop
  | endUnop
  | addBinopName
  | endBinop
deriving DecidableEq, Repr, Inhabited

namespace Action

/-- All actions. -/
def all : List Action :=
  [.addStatement, .addAssign, .addVariable, .addLiteral, .addFuncCall, .addFuncCallArg,
    .startUnop, .endUnop, .addBinopName, .endBinop]

/-- The name of an action in logs and messages. -/
def render : Action → String
  | .addStatement => "AddStatement"
  | .addAssign => "AddAssign"
  | .addVariable => "AddVariable"
  | .addLiteral => "AddLiteral"
  | .addFuncCall => "AddFuncCall"
  | .addFuncCallArg => "AddFuncCallArg"
  | .startUnop => "StartUnop"
  | .endUnop => "EndUnop"
  | .addBinopName => "AddBinopName"
  | .endBinop => "EndBinop"

/-- Whether an action takes the text captured last. -/
def needsText : Action → Bool
  | .addVariable | .addLiteral | .addFuncCall | .startUnop | .addBinopName => true
  | _ => false

/-- The action of a given name. -/
def ofName? (name : String) : Option Action :=
  all.find? fun action => action.render == name

end Action

/-- What an entry of a match log stands for. -/
inductive Label where
  | rule (rule : Rule)
  | action (action : Action)
deriving DecidableEq, Repr, Inhabited

namespace Label

/-- All labels: the rules, then the actions. -/
def all : List Label :=
  Rule.all.map .rule ++ Action.all.map .action

/-- The name of a label in logs and messages. -/
def render : Label → String
  | .rule r => r.render
  | .action a => a.render

/-- Whether the text of an entry is kept for the next action that takes a text. -/
def capturesText : Label → Bool
  | .rule r => r.capturesText
  | .action _ => false

/-- Whether a label is an action. -/
def isAction : Label → Bool
  | .rule _ => false
  | .action _ => true

/-- The label of a given name. -/
def ofName? (name : String) : Option Label :=
  all.find? fun label => label.render == name

end Label

end Sumscript

import Sumscript.Grammar.Tokenize
import Sumscript.Tree.Node

/-! # Building trees

A builder holds the root of a program and a stack of nodes in progress. Each action changes
the builder: nodes go on the stack, and finished nodes move into their parents. A call, a
unary or a binary operation stays on the stack below its operands until they are attached.

A step that fails leaves the builder as it stands at that point: nodes it has taken off the
stack are gone.

Parsing tokenizes a text and builds the tree that its log describes.
-/

namespace Sumscript

/-! ## Stacks of nodes -/

/-- Nodes in progress, the latest first. -/
abbrev NodeStack := List Node

namespace NodeStack

/-- The top node and the stack below it. -/
def pop? : NodeStack → Option (Node × NodeStack)
  | [] => none
  | node :: rest => some (node, rest)

/-- Replaces the top node of a stack that has one. -/
def replaceTop (stack : NodeStack) (node : Node) : NodeStack :=
  match stack with
  | [] => []
  | _ :: rest => node :: rest

end NodeStack

/-! ## Builders -/

/-- Why a log does not describe a tree. -/
inductive BuildError where
  /-- An action needs a node and the stack is empty. -/
  | stackUnderflow (action : Action)
  /-- An action needs a node of another kind. -/
  | unexpectedNode (action : Action) (expected found : Kind)
  /-- An action takes a text and none was captured. -/
  | missingText (action : Action)
  /-- Nodes are left on the stack where none should be. -/
  | unbalancedStack (remaining : Nat)
deriving DecidableEq, Repr, Inhabited

namespace BuildError

/-- The wording of a build error. -/
def message : BuildError → String
  | .stackUnderflow action => action.render ++ ": node stack is empty"
  | .unexpectedNode action expected found =>
    action.render ++ ": expected " ++ expected.name ++ " on the node stack, found " ++ found.name
  | .missingText action => action.render ++ ": no captured text precedes the action"
  | .unbalancedStack remaining =>
    toString remaining ++ " node(s) left on the stack after replay"

end BuildError

/-- The statements attached so far and the nodes in progress. -/
structure Builder where
  root : Node
  stack : NodeStack
deriving Repr, Inhabited

namespace Builder

/-- The builder of a program without statements. -/
def empty : Builder :=
  ⟨.emptyRoot, []⟩

/-- What a step leaves: the builder and, if it failed, the reason. -/
abbrev Step := Builder × Option BuildError

/-- The number of nodes in progress. -/
def pending (b : Builder) : Nat :=
  b.stack.length

/-- A builder with one more node in progress. -/
def push (b : Builder) (node : Node) : Builder :=
  { b with stack := node :: b.stack }

/-- Moves the top node into the root; it must be the only node in progress. -/
def addStatement (b : Builder) : Step :=
  match b.stack with
  | [] => (b, some (.stackUnderflow .addStatement))
  | [statement] => (⟨b.root.addChild statement, []⟩, none)
  | _ :: rest => ({ b with stack := rest }, some (.unbalancedStack rest.length))

/-- Joins the two top nodes, a variable and the value above it, into an assignment. -/
def addAssign (b : Builder) : Step :=
  match b.stack with
  | [] => (b, some (.stackUnderflow .addAssign))
  | [_] => ({ b with stack := [] }, some (.stackUnderflow .addAssign))
  | value :: target :: rest =>
    if target.kind = .variable then
      ({ b with stack := ⟨.assign, "", [target, value]⟩ :: rest }, none)
    else ({ b with stack := rest }, some (.unexpectedNode .addAssign .variable target.kind))

/-- Moves the top node into the node below it, which must be of the given kind. -/
def attach (b : Builder) (action : Action) (kind : Kind) : Step :=
  match b.stack with
  | [] => (b, some (.stackUnderflow action))
  | [_] => ({ b with stack := [] }, some (.stackUnderflow action))
  | child :: parent :: rest =>
    if parent.kind = kind then ({ b with stack := parent.addChild child :: rest }, none)
    else ({ b with stack := parent :: rest }, some (.unexpectedNode action kind parent.kind))

/-- Attaches the top node to the call below it. -/
def addFuncCallArg (b : Builder) : Step :=
  b.attach .addFuncCallArg .call

/-- Attaches the top node to the unary operation below it. -/
def endUnop (b : Builder) : Step :=
  b.attach .endUnop .unop

/-- Attaches the top node to the binary operation below it. -/
def endBinop (b : Builder) : Step :=
  b.attach .endBinop .binop

/-- Makes the top node the left operand of a binary operation. -/
def addBinopName (b : Builder) (op : String) : Step :=
  match b.stack with
  | [] => (b, some (.stackUnderflow .addBinopName))
  | left :: rest => ({ b with stack := ⟨.binop, op, [left]⟩ :: rest }, none)

/-- Starts a node that its own text names. -/
def startNamed (b : Builder) (kind : Kind) (name : String) : Step :=
  (b.push (.leaf kind name), none)

/-- Carries out a step on a text, if there is one. -/
def withText (b : Builder) (action : Action) (text : Option String)
    (step : String → Step) : Step :=
  match text with
  | some text => step text
  | none => (b, some (.missingText action))

/-- Carries out an action; `text` is the text that was captured for it. -/
def apply (b : Builder) (action : Action) (text : Option String) : Step :=
  match action with
  | .addStatement => b.addStatement
  | .addAssign => b.addAssign
  | .addVariable => b.withText action text (b.startNamed .variable)
  | .addLiteral => b.withText action text (b.startNamed .literal)
  | .addFuncCall => b.withText action text (b.startNamed .call)
  | .addFuncCallArg => b.addFuncCallArg
  | .startUnop => b.withText action text (b.startNamed .unop)
  | .endUnop => b.endUnop
  | .addBinopName => b.withText action text b.addBinopName
  | .endBinop => b.endBinop

/-- The finished program; no node may be in progress. -/
def finish (b : Builder) : Except BuildError Node :=
  match b.stack with
  | [] => .ok b.root
  | stack => .error (.unbalancedStack stack.length)

/-- Carries out the actions of a log in order. `captured` is the text that waits for the next
action that takes one; each captured text feeds one action at most. -/
def applyLog (chars : Array Char) :
    TokenLog → Option String → Builder → Except BuildError Builder
  | [], _, b => .ok b
  | token :: rest, captured, b =>
    match token.label with
    | .action action =>
      match b.apply action (if action.needsText then captured else none) with
      | (_, some error) => .error error
      | (b', none) => applyLog chars rest (if action.needsText then none else captured) b'
    | .rule rule =>
      applyLog chars rest (if rule.capturesText then some (token.text chars) else captured) b

/-- The tree that a log over a text describes. -/
def build (chars : Array Char) (log : TokenLog) : Except BuildError Node := do
  (← applyLog chars log none empty).finish

end Builder

/-! ## From a text to its tree -/

/-- Why a text has no tree. -/
inductive ParseError where
  | syntaxError (error : SyntaxError)
  | buildError (error : BuildError)
deriving DecidableEq, Repr, Inhabited

namespace ParseError

/-- The wording of a parse error. -/
def message : ParseError → String
  | .syntaxError error => error.message
  | .buildError error => "failed to build syntax tree: " ++ error.message

end ParseError

/-- The tree of a text whose expressions nest at most `maxDepth` deep. -/
def parse (maxDepth : Nat) (chars : Array Char) : Except ParseError Node :=
  match tokenize maxDepth chars with
  | .error error => .error (.syntaxError error)
  | .ok log =>
    match Builder.build chars log with
    | .error error => .error (.buildError error)
    | .ok node => .ok node

end Sumscript

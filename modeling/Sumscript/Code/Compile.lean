import Sumscript.Code.Instr
import Sumscript.Text.Number
import Sumscript.Tree.Node

/-! # From a tree to code

Every expression becomes code that leaves its value on the stack, and the value of a statement
is dropped. A binary operation evaluates its right operand first, and a call its last argument
first, so that the first argument ends on top of the stack.
-/

namespace Sumscript

/-- Why a tree has no code. -/
inductive CompileError where
  /-- A unary operation has an unknown operator. -/
  | unsupportedUnop (op : String)
  /-- A binary operation has an unknown operator. -/
  | unsupportedBinop (op : String)
  /-- A literal is no 64-bit number. -/
  | invalidLiteral (text : String)
  /-- The tree of a program starts with another kind than the root. -/
  | notARoot (found : Kind)
  /-- A root stands below the root. -/
  | nestedRoot
  /-- The target of an assignment is no variable. -/
  | badTarget (found : Kind)
  /-- A node has the wrong number of children. -/
  | wrongArity (kind : Kind) (expected found : Nat)
deriving DecidableEq, Repr, Inhabited

namespace CompileError

/-- The wording for a node that is not built as its kind demands. -/
def malformed (kind : Kind) (expected found : String) : String :=
  "malformed " ++ kind.name ++ " node: expected " ++ expected ++ ", found " ++ found

/-- The wording of a compile error. -/
def message : CompileError → String
  | .unsupportedUnop op => "unsupported unary operator '" ++ op ++ "'"
  | .unsupportedBinop op => "unsupported binary operator '" ++ op ++ "'"
  | .invalidLiteral text => "literal '" ++ text ++ "' does not fit in a 64-bit signed integer"
  | .notARoot found => malformed found Kind.root.name found.name
  | .nestedRoot => malformed .root "a statement" "a nested root"
  | .badTarget found => malformed .assign "a Variable target" found.name
  | .wrongArity kind expected found =>
    malformed kind (toString expected ++ " child(ren)") (toString found)

end CompileError

namespace Node

/-- The only operator of the language. -/
def plus : String := "+"

mutual

/-- Code that leaves the value of an expression on the stack. -/
def code : Node → Except CompileError Code
  | ⟨.root, _, _⟩ => .error .nestedRoot
  | ⟨.assign, _, [target, value]⟩ => do
    if target.kind = .variable then
      return (← value.code) ++ [.store target.name]
    else .error (.badTarget target.kind)
  | ⟨.assign, _, children⟩ => .error (.wrongArity .assign 2 children.length)
  | ⟨.literal, text, []⟩ =>
    match Numeral.int64? text.toList with
    | some value => .ok [.const value]
    | none => .error (.invalidLiteral text)
  | ⟨.literal, _, children⟩ => .error (.wrongArity .literal 0 children.length)
  | ⟨.variable, name, []⟩ => .ok [.load name]
  | ⟨.variable, _, children⟩ => .error (.wrongArity .variable 0 children.length)
  | ⟨.unop, op, [operand]⟩ =>
    if op = plus then operand.code else .error (.unsupportedUnop op)
  | ⟨.unop, op, children⟩ =>
    if op = plus then .error (.wrongArity .unop 1 children.length)
    else .error (.unsupportedUnop op)
  | ⟨.binop, op, [left, right]⟩ => do
    if op = plus then
      let rightCode ← right.code
      let leftCode ← left.code
      return rightCode ++ leftCode ++ [.add]
    else .error (.unsupportedBinop op)
  | ⟨.binop, op, children⟩ =>
    if op = plus then .error (.wrongArity .binop 2 children.length)
    else .error (.unsupportedBinop op)
  | ⟨.call, name, arguments⟩ => do
    return (← argumentsCode arguments) ++ [.call name arguments.length]

/-- Code that leaves the values of arguments on the stack, the first one on top. -/
def argumentsCode : List Node → Except CompileError Code
  | [] => .ok []
  | argument :: later => do
    let laterCode ← argumentsCode later
    let ownCode ← argument.code
    return laterCode ++ ownCode

end

/-- Code that runs statements and drops their values. -/
def statementsCode : List Node → Except CompileError Code
  | [] => .ok []
  | statement :: rest => do
    let own ← statement.code
    let others ← statementsCode rest
    return own ++ .discard :: others

/-- The code of a program. -/
def compile (program : Node) : Except CompileError Code :=
  if program.kind = .root then statementsCode program.children
  else .error (.notARoot program.kind)

end Node

end Sumscript

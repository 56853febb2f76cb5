import Sumscript.Code.Compile
import Sumscript.Native.Generate
import Sumscript.Settings.Basic
import Sumscript.Text.Document
import Sumscript.Tree.Notation
import Sumscript.Tree.Builder

/-! # What is made of a program

A program text becomes a tree, the tree becomes code, and code is run or turned into C. Every
stage can fail with an error of its own, and every intermediate result can be written out in
one of several formats.
-/

namespace Sumscript

/-- Why a program text has no code. -/
inductive ProgramError where
  | parse (error : ParseError)
  | compile (error : CompileError)
deriving DecidableEq, Repr, Inhabited

namespace ProgramError

/-- The wording of a program error. -/
def message : ProgramError → String
  | .parse error => error.message
  | .compile error => "compile error: " ++ error.message

end ProgramError

/-- The tree of a program text. -/
def programTree (settings : Settings) (chars : Array Char) : Except ProgramError Node :=
  (parse settings.maxDepth chars).mapError .parse

/-- The code of a program text. -/
def programCode (settings : Settings) (chars : Array Char) : Except ProgramError Code := do
  let tree ← programTree settings chars
  tree.compile.mapError .compile

/-- Why a program did not run to its end. -/
inductive ExecutionError where
  | program (error : ProgramError)
  | runtime (error : RuntimeError)
deriving DecidableEq, Repr, Inhabited

namespace ExecutionError

/-- The wording of an execution error. -/
def message : ExecutionError → String
  | .program error => error.message
  | .runtime error => "runtime error: " ++ error.message

end ExecutionError

/-- Runs a program text on a fresh machine: the machine as it was left, and what went wrong. -/
def execute (settings : Settings) (chars : Array Char) (sink : Sink) :
    Machine × Option ExecutionError :=
  let machine := Machine.fresh settings.stackCapacity sink
  match programCode settings chars with
  | .error error => (machine, some (.program error))
  | .ok code =>
    match machine.run code with
    | (machine, error) => (machine, error.map .runtime)

/-- The formats in which intermediate results are written out. -/
inductive Format where
  | astTag
  | astTreeviz
  | astJson
  | astYaml
  | tokens
  | grains
  | grainsJson
  | c
deriving DecidableEq, Repr, Inhabited

namespace Format

/-- All formats. -/
def all : List Format :=
  [.astTag, .astTreeviz, .astJson, .astYaml, .tokens, .grains, .grainsJson, .c]

/-- The name by which a format is chosen. -/
def name : Format → String
  | .astTag => "ast-tag"
  | .astTreeviz => "ast-treeviz"
  | .astJson => "ast-json"
  | .astYaml => "ast-yaml"
  | .tokens => "tokens"
  | .grains => "grains"
  | .grainsJson => "grains-json"
  | .c => "c"

/-- The names of all formats. -/
def names : List String :=
  all.map name

/-- The format of a given name. -/
def ofName? (name : String) : Option Format :=
  all.find? fun format => format.name == name

/-- The wording for a name that no format has. -/
def unknownMessage (name : String) : String :=
  "unknown output format '" ++ name ++ "' (expected one of: " ++
    String.intercalate ", " names ++ ")"

end Format

/-- Why a program text cannot be written in a format. -/
inductive EmitError where
  | program (error : ProgramError)
  | generate (error : GenerateError)
deriving DecidableEq, Repr, Inhabited

/-- The wording for a native build that failed. -/
def nativeFailure (message : String) : String :=
  "native build failed: " ++ message

namespace EmitError

/-- The wording of an emit error. -/
def message : EmitError → String
  | .program error => error.message
  | .generate error => nativeFailure error.message

end EmitError

/-- What is made of a program text, written in a format. -/
def emit (settings : Settings) (chars : Array Char) (format : Format) :
    Except EmitError String :=
  let tree := (programTree settings chars).mapError EmitError.program
  let code := (programCode settings chars).mapError EmitError.program
  match format with
  | .astTag => return (← tree).term
  | .astTreeviz => return (← tree).outline
  | .astJson => return Json.indented (← tree).toDocument
  | .astYaml => return Yaml.render (← tree).toDocument
  | .tokens =>
    match tokenize settings.maxDepth chars with
    | .error error => .error (.program (.parse (.syntaxError error)))
    | .ok log => .ok (log.listing chars)
  | .grains => return (← code).listing
  | .grainsJson => return Json.indented (← code).toDocument
  | .c => do
    let unit ← (CUnit.ofCode (← code)).mapError EmitError.generate
    return unit.render

end Sumscript

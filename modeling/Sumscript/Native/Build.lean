import Sumscript.Host
import Sumscript.Native.Generate
import Sumscript.Settings.Basic

/-! # Native builds

A native build writes the C unit of a program to a work directory, has the compiler turn it
into an object, and has the linker turn the object into an executable. Compiler and linker are
tools of the host; each works in a directory of its own.
-/

namespace Sumscript

/-- Why a native build failed. -/
inductive NativeError where
  | generate (error : GenerateError)
  /-- A tool could not be started. -/
  | spawn (tool : String) (error : HostError)
  /-- A tool did not end well. -/
  | toolFailed (tool : String) (ending : Ending) (diagnostics : String)
  /-- A file of the build could not be read or written. -/
  | file (error : HostError)
deriving DecidableEq, Repr, Inhabited

namespace NativeError

/-- The wording of a build error. -/
def message : NativeError → String
  | .generate error => error.message
  | .spawn tool error => "failed to run " ++ tool ++ ": " ++ error.message
  | .toolFailed tool ending diagnostics =>
    tool ++ " exited with " ++ ending.message ++ ": " ++ diagnostics
  | .file error => error.message

end NativeError

namespace Native

/-- The path of the C unit in a work directory. -/
def unitPath (directory : String) : String :=
  directory ++ "/program.c"

/-- The path of the object in a work directory. -/
def objectPath (directory : String) : String :=
  directory ++ "/program.o"

/-- The arguments with which the compiler is called. -/
def compilerArguments (s : NativeSettings) (directory : String) : List String :=
  s.cflags ++ s.targetFlag.toList ++ ["-c", unitPath directory, "-o", objectPath directory]

/-- The arguments with which the linker is called. -/
def linkerArguments (s : NativeSettings) (directory output : String) (extraFlags : List String) :
    List String :=
  [objectPath directory, "-o", output] ++ s.ldflags ++ extraFlags ++ s.targetFlag.toList

section Build

variable {m : Type → Type} [Monad m]

/-- Runs a tool that must succeed. -/
def requireTool (host : Host m) (tool : String) (arguments : List String) :
    ExceptT NativeError m Unit := do
  let outcome ← (host.runTool tool arguments).adapt (.spawn tool)
  unless outcome.ending.isSuccess do
    throw (.toolFailed tool outcome.ending outcome.diagnostics)

/-- Has the compiler turn a C unit into an object. -/
def compileUnit (host : Host m) (s : NativeSettings) (unit : String) :
    ExceptT NativeError m ByteArray :=
  host.inNewDirectory .file fun directory => do
    (host.writeText (unitPath directory) unit).adapt .file
    requireTool host s.compiler (compilerArguments s directory)
    (host.read (objectPath directory)).adapt .file

/-- Has the linker turn an object into an executable at a path. -/
def linkObject (host : Host m) (s : NativeSettings) (object : ByteArray) (output : String)
    (extraFlags : List String) : ExceptT NativeError m Unit :=
  host.inNewDirectory .file fun directory => do
    (host.write (objectPath directory) object).adapt .file
    requireTool host s.linker (linkerArguments s directory output extraFlags)

/-- Builds an executable for code at a path. -/
def build (host : Host m) (s : NativeSettings) (code : Code) (output : String)
    (extraFlags : List String) : ExceptT NativeError m Unit := do
  let unit ← liftExcept ((CUnit.ofCode code).mapError NativeError.generate)
  let object ← compileUnit host s unit.render
  linkObject host s object output extraFlags

end Build

end Native

end Sumscript

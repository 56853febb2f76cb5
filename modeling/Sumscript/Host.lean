import Sumscript.Text.Characters

/-! # Hosts

A program works on a host, which keeps files and runs tools. What the host does is not said here:
its operations are parameters of all that needs them, in a monad that carries the state of the
host. Said here is what comes of its answers: files that are read as texts must spell one, no text
that is handed to a tool may hold the character that ends texts, and the ending of a tool has a
wording.
-/

namespace Sumscript

/-- Why a file or a tool cannot be used. -/
inductive HostError where
  /-- The host refused, in its own words. -/
  | refused (message : String)
  /-- A file that should be a text is none. -/
  | notText
  /-- A text for a tool holds the character that ends texts. -/
  | hasNul
deriving DecidableEq, Repr, Inhabited

/-- The wording of an error of the host. -/
def HostError.message : HostError → String
  | .refused message => message
  | .notText => "stream did not contain valid UTF-8"
  | .hasNul => "nul byte found in provided data"

/-- How a tool ended. -/
inductive Ending where
  | status (code : Nat)
  /-- A signal ended the tool, perhaps with an image of its memory left. -/
  | signal (number : Nat) (dumped : Bool)
deriving DecidableEq, Repr, Inhabited

namespace Ending

/-- The names of the signals from the first one on. -/
def signalNames : List String :=
  ["HUP", "INT", "QUIT", "ILL", "TRAP", "ABRT", "BUS", "FPE", "KILL", "USR1", "SEGV", "USR2",
    "PIPE", "ALRM", "TERM", "STKFLT", "CHLD", "CONT", "STOP", "TSTP", "TTIN", "TTOU", "URG",
    "XCPU", "XFSZ", "VTALRM", "PROF", "WINCH", "IO", "PWR", "SYS"]

/-- The name of a signal behind its number; a number without a name has nothing behind it. -/
def signalSuffix : Nat → String
  | 0 => ""
  | n + 1 => match signalNames[n]? with
    | some name => " (SIG" ++ name ++ ")"
    | none => ""

/-- Whether a tool did what it should. -/
def isSuccess (ending : Ending) : Bool :=
  ending == .status 0

/-- The wording of an ending. -/
def message : Ending → String
  | .status code => "exit status: " ++ toString code
  | .signal number dumped =>
    "signal: " ++ toString number ++ signalSuffix number ++ if dumped then " (core dumped)" else ""

end Ending

/-- What is known of a tool that ran: how it ended, and what it wrote to its error output. -/
structure ToolRun where
  ending : Ending
  error : ByteArray
deriving Inhabited

/-- The text of the error output of a tool. -/
def ToolRun.diagnostics (outcome : ToolRun) : String :=
  trimBlanks (Utf8.ofBytes outcome.error)

/-- The operations of a host. -/
structure Host (m : Type → Type) where
  /-- The directory in which paths start. -/
  directory : m String
  /-- Whether a regular file stands at a path. -/
  isFile : String → m Bool
  /-- The content of a file. -/
  read : String → ExceptT HostError m ByteArray
  /-- Gives a file a content. -/
  write : String → ByteArray → ExceptT HostError m Unit
  /-- Makes a directory for work files at a new path. -/
  makeDirectory : ExceptT HostError m String
  /-- Removes a directory with what stands in it, as far as that can be done. -/
  removeDirectory : String → m Unit
  /-- Runs a tool with arguments until it ends. -/
  run : String → List String → ExceptT HostError m ToolRun

namespace Host

variable {m : Type → Type} [Monad m]

/-- The content of a file as a text. -/
def readText (host : Host m) (path : String) : ExceptT HostError m String := do
  match String.fromUTF8? (← host.read path) with
  | some text => return text
  | none => throw .notText

/-- Gives a file a text as its content. -/
def writeText (host : Host m) (path text : String) : ExceptT HostError m Unit :=
  host.write path text.toUTF8

/-- Runs a tool unless it cannot be told its name and its arguments. -/
def runTool (host : Host m) (tool : String) (arguments : List String) :
    ExceptT HostError m ToolRun :=
  if (tool :: arguments).any (·.contains '\x00') then throw .hasNul else host.run tool arguments

/-- Works in a new directory, which is removed afterwards. -/
def inNewDirectory {ε α : Type} (host : Host m) (onError : HostError → ε)
    (work : String → ExceptT ε m α) : ExceptT ε m α :=
  ExceptT.mk do
    match ← host.makeDirectory.run with
    | .error error => return .error (onError error)
    | .ok directory =>
      let outcome ← (work directory).run
      host.removeDirectory directory
      return outcome

end Host

end Sumscript

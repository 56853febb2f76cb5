import Sumscript.Cli.Arguments
import Sumscript.Native.Build
import Sumscript.Settings.Layers

/-! # Processing a command line

A command line is processed on a host: settings are read first, then the source, then the source
is written out in a format, run, or built. What is printed and the exit code are the result; a
build also leaves what its tools leave on the host.
-/

namespace Sumscript.Cli

/-- What a command leaves: its exit code and what it printed. -/
structure Outcome where
  code : Nat
  output : String
  error : String
deriving DecidableEq, Repr, Inhabited

/-- The name and the version of the program. -/
def versionText : String :=
  "kasha 0.1.0\n"

/-- How the program is called. -/
def usageText : String :=
  "Usage: kasha [OPTIONS] <path>\n\n" ++
    "  -o, --output <output>        Path of the native executable [default: a.out]\n" ++
    "      --run                    Interpret the program instead of building an executable\n" ++
    "      --ldflags <ldflags>      Extra linker flags, comma separated\n" ++
    "      --emit <emit>            Print an intermediate artifact instead of building [" ++
    String.intercalate ", " Format.names ++ "]\n" ++
    "      --config <config>        Configuration file layered over the defaults\n" ++
    "      --stack-capacity <n>     VM value stack capacity\n" ++
    "  -h, --help                   Print help\n" ++
    "  -V, --version                Print version\n"

/-- The exit code of a command that failed. -/
def failureCode : Nat := 1

/-- The exit code for an unusable command line. -/
def usageCode : Nat := 2

/-- The path of an executable where none is given. -/
def defaultOutput : String := "a.out"

/-- A command that failed with a message; the excerpt of a syntax error stands below it. -/
def failed (output message : String) (excerpt : Option String) : Outcome :=
  ⟨failureCode, output, "Error: " ++ message ++ "\n" ++
    (match excerpt with
      | none => ""
      | some text => "\n" ++ text)⟩

/-- The excerpt that is shown for an error in a program. -/
def excerptFor (error : ProgramError) (chars : Array Char) : Option String :=
  match error with
  | .parse (.syntaxError error) => some (error.excerpt chars)
  | _ => none

/-- A command that failed because of an error in a program. -/
def failedProgram (error : ProgramError) (chars : Array Char) : Outcome :=
  failed "" error.message (excerptFor error chars)

/-- A text with a line end at its end. -/
def endLine (text : String) : String :=
  if text.endsWith "\n" then text else text ++ "\n"

/-- Writes a program out in a format. -/
def emitProgram (settings : Settings) (chars : Array Char) (format : Format) : Outcome :=
  match emit settings chars format with
  | .ok text => ⟨0, endLine text, ""⟩
  | .error (.program error) => failedProgram error chars
  | .error (.generate error) => failed "" (EmitError.generate error).message none

/-- Runs a program. -/
def runProgram (settings : Settings) (chars : Array Char) : Outcome :=
  match execute settings chars .unlimited with
  | (machine, none) => ⟨0, machine.sink.text, ""⟩
  | (_, some (.program error)) => failedProgram error chars
  | (machine, some (.runtime error)) =>
    failed machine.sink.text (ExecutionError.runtime error).message none

/-! ## Settings files -/

/-- A path without what names the directory it leads to again, read from its end. -/
def dropTrailing : List Char → List Char
  | '/' :: rest => dropTrailing rest
  | '.' :: '/' :: rest => dropTrailing rest
  | chars => chars

/-- The path of a file with the usual ending of settings files behind the last name of another
path; none if that path ends in no name. -/
def settingsPath? (directory name : String) : Option String :=
  let path := if name.startsWith "/" then name else directory ++ "/" ++ name
  match dropTrailing path.toList.reverse with
  | [] | '.' :: '.' :: '/' :: _ => none
  | chars => some (String.ofList chars.reverse ++ ".toml")

/-- The greatest capacity that settings can hold. -/
def maxCapacity : Nat := 9223372036854775807

/-- The settings that options ask for over the documents of settings files. -/
def settingsFor (options : Options) (layers : List Layer) : Except SettingsError Settings := do
  let overrides ← options.stackCapacity.toList.mapM fun n =>
    Override.ofText "vm.stack_capacity" (.integer (Int.ofNat (min n maxCapacity)))
  Settings.ofLayers layers overrides

section Host

variable {m : Type → Type} [Monad m]

/-- The first path of several at which a regular file stands. -/
def findFile? (host : Host m) : List String → m (Option String)
  | [] => return none
  | path :: rest => do
    if ← host.isFile path then return some path else findFile? host rest

/-- The document of a settings file: the file at the given path, or else the one whose name has
the usual ending behind it. -/
def settingsLayer (host : Host m) (name : String) : m Layer := do
  let directory ← host.directory
  match ← findFile? host (name :: (settingsPath? directory name).toList) with
  | none => return .absent name true
  | some path =>
    match ← (host.readText path).run with
    | .ok text => return .document path text
    | .error error => return .unreadable error.message

/-- Builds an executable for a program. -/
def buildProgram (host : Host m) (settings : Settings) (chars : Array Char) (output : String)
    (extraFlags : List String) : m Outcome :=
  match programCode settings chars with
  | .error error => return failedProgram error chars
  | .ok code => do
    match ← (Native.build host settings.native code output extraFlags).run with
    | .ok () => return ⟨0, "", ""⟩
    | .error error => return failed "" (nativeFailure error.message) none

/-- Carries out what options ask for. -/
def processOptions (host : Host m) (options : Options) : m Outcome := do
  let layers ← options.config.toList.mapM (settingsLayer host)
  match settingsFor options layers with
  | .error error => return failed "" ("configuration error: " ++ error.message) none
  | .ok settings =>
    let path := options.path.getD ""
    match ← (host.readText path).run with
    | .error error =>
      return failed "" ("failed to read " ++ path ++ ": " ++ error.message) none
    | .ok source =>
      let chars := source.toList.toArray
      match options.emit with
      | some format => return emitProgram settings chars format
      | none =>
        if options.run then return runProgram settings chars
        buildProgram host settings chars (options.output.getD defaultOutput) options.linkFlags

/-- Processes a command line. -/
def process (host : Host m) (arguments : List String) : m Outcome :=
  match request? arguments with
  | none => return ⟨usageCode, "", usageText⟩
  | some .version => return ⟨0, versionText, ""⟩
  | some .help => return ⟨0, usageText, ""⟩
  | some (.process options) => processOptions host options

end Host

end Sumscript.Cli

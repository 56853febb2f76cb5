import Sumscript.Artifact
import Sumscript.Text.Number

/-! # Arguments of the command line

The command line names one source file and what to do with it. Arguments are taken from left to
right; the first one that cannot be taken makes the whole line unusable, and a request for the
version or for help is answered as soon as it is met.
-/

namespace Sumscript.Cli

/-- What a command line asks for. -/
structure Options where
  path : Option String := none
  output : Option String := none
  run : Bool := false
  linkFlags : List String := []
  emit : Option Format := none
  config : Option String := none
  stackCapacity : Option Nat := none
deriving DecidableEq, Repr, Inhabited

/-- The options that take a value. -/
inductive ValueOption where
  | output
  | linkFlags
  | emit
  | config
  | stackCapacity
deriving DecidableEq, Repr, Inhabited

/-- A usable command line. -/
inductive Request where
  | version
  | help
  | process (options : Options)
deriving DecidableEq, Repr, Inhabited

namespace ValueOption

/-- The option of a long name. -/
def ofName? (name : String) : Option ValueOption :=
  match name with
  | "output" => some .output
  | "ldflags" => some .linkFlags
  | "emit" => some .emit
  | "config" => some .config
  | "stack-capacity" => some .stackCapacity
  | _ => none

/-- Whether a separate value may look like an option. -/
def allowsHyphen : ValueOption → Bool
  | .linkFlags => true
  | _ => false

/-- The rest after a value was given; linker flags may be given again, other options once. -/
def set (options : Options) (value : String) : ValueOption → Option Options
  | .output =>
    if options.output.isSome then none else some { options with output := some value }
  | .linkFlags =>
    some { options with linkFlags := options.linkFlags ++ value.splitOn "," }
  | .emit =>
    if options.emit.isSome then none
    else (Format.ofName? value).map fun format => { options with emit := some format }
  | .config =>
    if options.config.isSome then none else some { options with config := some value }
  | .stackCapacity =>
    if options.stackCapacity.isSome then none
    else (Numeral.unsigned64? value.toList).map fun n => { options with stackCapacity := some n }

end ValueOption

/-- Whether an argument looks like an option. -/
def looksLikeOption (argument : String) : Bool :=
  argument.startsWith "-" && argument ≠ "-"

/-- Options after a positional argument; there is room for one. -/
def Options.position (options : Options) (argument : String) : Option Options :=
  if options.path.isSome then none else some { options with path := some argument }

/-- How an argument is taken. -/
inductive Taken where
  /-- It is complete. -/
  | complete (options : Options)
  /-- It needs the next argument as its value. -/
  | pending (option : ValueOption)
  /-- It answers the whole line. -/
  | answer (request : Request)
  | refused
deriving DecidableEq, Repr, Inhabited

/-- An argument that is complete unless it is refused. -/
def Taken.ofOption : Option Options → Taken
  | some options => .complete options
  | none => .refused

/-- Takes an argument that starts with two hyphens. -/
def takeLong (options : Options) (text : List Char) : Taken :=
  let name := String.ofList (text.takeWhile (· ≠ '='))
  match name, text.dropWhile (· ≠ '=') with
  | "run", [] => if options.run then .refused else .complete { options with run := true }
  | "version", [] => .answer .version
  | "help", [] => .answer .help
  | name, rest =>
    match ValueOption.ofName? name, rest with
    | none, _ => .refused
    | some option, [] => .pending option
    | some option, _ :: value => .ofOption (option.set options (String.ofList value))

/-- Takes an argument that starts with one hyphen. -/
def takeShort (options : Options) : List Char → Taken
  | ['o'] => .pending .output
  | 'o' :: '=' :: value => .ofOption (ValueOption.output.set options (String.ofList value))
  | 'o' :: value => .ofOption (ValueOption.output.set options (String.ofList value))
  | 'V' :: _ => .answer .version
  | 'h' :: _ => .answer .help
  | _ => .refused

/-- Takes one argument. -/
def take (options : Options) (argument : String) : Taken :=
  match argument.toList with
  | '-' :: '-' :: text => takeLong options text
  | '-' :: c :: text => takeShort options (c :: text)
  | _ => .ofOption (options.position argument)

/-- The request of a complete line: a source file is needed, and running excludes emitting. -/
def Options.request (options : Options) : Option Request :=
  if options.path.isNone || (options.run && options.emit.isSome) then none
  else some (.process options)

/-- Takes arguments from left to right. -/
def takeAll (options : Options) : List String → Option Request
  | [] => options.request
  | "--" :: rest => do
    let options ← rest.foldlM Options.position options
    options.request
  | argument :: rest =>
    match take options argument with
    | .complete options => takeAll options rest
    | .answer request => some request
    | .refused => none
    | .pending option =>
      match rest with
      | [] => none
      | value :: rest =>
        if looksLikeOption value && !option.allowsHyphen then none
        else (option.set options value).bind fun options => takeAll options rest

/-- What a command line asks for; nothing if it is unusable. -/
def request? (arguments : List String) : Option Request :=
  takeAll {} arguments

end Sumscript.Cli

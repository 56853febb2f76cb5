import Sumscript.Grammar.Tokenize
import Sumscript.Machine.Run
import Sumscript.Settings.Value

/-! # Settings

Settings bound the parser and the machine and name the external tools of a native build.
-/

namespace Sumscript

/-- The external tools of a native build and their flags. -/
structure NativeSettings where
  compiler : String
  cflags : List String
  linker : String
  ldflags : List String
  /-- The platform to build for; none is the platform of the tools. -/
  target : Option String
deriving DecidableEq, Repr, Inhabited

namespace NativeSettings

/-- The tools where nothing else is set. -/
def standard : NativeSettings :=
  ⟨"cc", ["-std=c99", "-O2"], "cc", [], none⟩

/-- The flag that tells a tool the platform to build for. -/
def targetFlag (s : NativeSettings) : Option String :=
  s.target.map ("--target=" ++ ·)

end NativeSettings

/-- Bounds on parsing and running, and the tools of a native build. -/
structure Settings where
  maxDepth : Nat
  stackCapacity : Nat
  native : NativeSettings
deriving DecidableEq, Repr, Inhabited

namespace Settings

/-- The settings where nothing else is set. -/
def standard : Settings :=
  ⟨defaultMaxDepth, defaultCapacity, .standard⟩

end Settings

/-! ## Decoding settings

Scalars are converted where a setting needs another type: texts of digits become numbers,
switch words and truth values count as zero or one, and scalars become texts. A list may stand
for a table; its items then are the settings of the table in order. Unknown keys are ignored.
-/

/-- Why values do not form settings. -/
inductive DecodeError where
  /-- A scalar cannot be converted to the type that a setting needs. -/
  | wrongType
  /-- A setting is missing, or stands where a table or a list is expected. -/
  | wrongShape
deriving DecidableEq, Repr, Inhabited

namespace Value

/-- The number of a switch word. -/
def switchNumber? (word : String) : Option Nat :=
  if word ∈ ["true", "on", "yes"] then some 1
  else if word ∈ ["false", "off", "no"] then some 0
  else none

/-- A value as a natural number. -/
def toNatural : Value → Except DecodeError Nat
  | .integer n => if 0 ≤ n then .ok n.toNat else .error .wrongType
  | .bool b => .ok (if b then 1 else 0)
  | .double d => .ok d.toNatural
  | .text s =>
    let word := String.ofList (s.toList.map Char.toLower)
    match (switchNumber? word).or (Numeral.unsigned64? word.toList) with
    | some n => .ok n
    | none => .error .wrongType
  | .nothing | .list _ | .table _ => .error .wrongType

/-- A value as a text. -/
def toText : Value → Except DecodeError String
  | .text s => .ok s
  | .bool b => .ok (if b then "true" else "false")
  | .integer n => .ok (toString n)
  | .double d => .ok d.render
  | .nothing | .list _ | .table _ => .error .wrongType

/-- A value as a list of texts. -/
def toTexts : Value → Except DecodeError (List String)
  | .list items => items.mapM toText
  | _ => .error .wrongShape

/-- A value as a text that may be absent. -/
def toOptionalText : Value → Except DecodeError (Option String)
  | .nothing => .ok none
  | value => (toText value).map some

/-- The settings of a table by name, or of a list by position. -/
def members (names : List String) : Value → Except DecodeError (List (String × Value))
  | .table entries => .ok entries
  | .list items => .ok (names.zip items)
  | _ => .error .wrongShape

end Value

/-- The value of a setting that must be there. -/
def requiredSetting (entries : List (String × Value)) (name : String) : Except DecodeError Value :=
  match entries.lookup name with
  | some value => .ok value
  | none => .error .wrongShape

/-- A setting of a table that holds one number. -/
def decodeBound (name : String) (value : Value) : Except DecodeError Nat := do
  let entries ← value.members [name]
  (← requiredSetting entries name).toNatural

/-- The tools of a native build. -/
def decodeNative (value : Value) : Except DecodeError NativeSettings := do
  let entries ← value.members ["compiler", "cflags", "linker", "ldflags", "target"]
  let texts (name : String) : Except DecodeError (List String) :=
    match entries.lookup name with
    | some value => value.toTexts
    | none => .ok []
  let compiler ← (← requiredSetting entries "compiler").toText
  let cflags ← texts "cflags"
  let linker ← (← requiredSetting entries "linker").toText
  let ldflags ← texts "ldflags"
  let target ← ((entries.lookup "target").getD .nothing).toOptionalText
  return { compiler, cflags, linker, ldflags, target }

namespace Settings

/-- Settings from a table of values. -/
def decode (entries : List (String × Value)) : Except DecodeError Settings := do
  let maxDepth ← decodeBound "max_depth" (← requiredSetting entries "parser")
  let stackCapacity ← decodeBound "stack_capacity" (← requiredSetting entries "vm")
  let native ← decodeNative (← requiredSetting entries "native")
  return { maxDepth, stackCapacity, native }

/-- Settings as a table of values. -/
def encode (s : Settings) : List (String × Value) :=
  [("parser", .table [("max_depth", .integer s.maxDepth)]),
    ("vm", .table [("stack_capacity", .integer s.stackCapacity)]),
    ("native", .table
      ([("compiler", .text s.native.compiler), ("cflags", .list (s.native.cflags.map .text)),
        ("linker", .text s.native.linker), ("ldflags", .list (s.native.ldflags.map .text))] ++
        match s.native.target with
        | none => []
        | some target => [("target", .text target)]))]

end Settings

end Sumscript

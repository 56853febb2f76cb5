import Sumscript.Settings.Basic
import Sumscript.Settings.Value
import Sumscript.Toml.Document

/-! # Layers of settings

Settings come in layers: the standard settings lie at the bottom, documents lie over them in
order, and single overrides lie on top. A layer changes only what it mentions.
-/

namespace Sumscript

/-- Why layers do not form settings. -/
inductive SettingsError where
  /-- The path of an override is malformed. -/
  | badPath (path : String)
  /-- A document that must be there is not. -/
  | missingFile (name : String)
  /-- A document is no text. -/
  | unreadable (reason : String)
  /-- A document breaks its format. -/
  | malformedFile (name : String)
  | decode (error : DecodeError)
deriving DecidableEq, Repr, Inhabited

namespace SettingsError

/-- The wording of a settings error. -/
def message : SettingsError → String
  | .badPath path => "malformed key path \"" ++ path ++ "\""
  | .missingFile name => "configuration file \"" ++ name ++ "\" not found"
  | .unreadable reason => reason
  | .malformedFile name => "malformed document in " ++ name
  | .decode .wrongType => "a setting has a value of the wrong type"
  | .decode .wrongShape => "a setting is missing or has the wrong shape"

end SettingsError

/-- A document of settings. -/
inductive Layer where
  /-- The text of a document. -/
  | document (name text : String)
  /-- A document that is not there. -/
  | absent (name : String) (required : Bool)
  /-- A document whose content is no text. -/
  | unreadable (reason : String)
deriving DecidableEq, Repr, Inhabited

namespace Layer

/-- Entries with those of a document over them. A key of a document that spells a path sets what
the path names. -/
def mergeEntries (entries : List (String × Value)) :
    List (String × Value) → List (String × Value)
  | [] => entries
  | (key, value) :: rest =>
    let path := (KeyPath.ofString? key).getD (.ofKey key)
    mergeEntries (path.set value entries) rest

/-- Entries with a layer over them. -/
def apply (entries : List (String × Value)) :
    Layer → Except SettingsError (List (String × Value))
  | .document name text =>
    match Toml.read? text with
    | some incoming => .ok (mergeEntries entries incoming)
    | none => .error (.malformedFile name)
  | .absent name required => if required then .error (.missingFile name) else .ok entries
  | .unreadable reason => .error (.unreadable reason)

end Layer

/-- A value for one place in the settings. -/
structure Override where
  path : KeyPath
  value : Value
deriving Repr, Inhabited

namespace Override

/-- An override of the place that a text spells. -/
def ofText (path : String) (value : Value) : Except SettingsError Override :=
  match KeyPath.ofString? path with
  | some parsed => .ok ⟨parsed, value⟩
  | none => .error (.badPath path)

end Override

namespace Settings

/-- The settings of layers over the standard settings, with overrides on top. -/
def ofLayers (layers : List Layer) (overrides : List Override) :
    Except SettingsError Settings := do
  let entries ← layers.foldlM Layer.apply standard.encode
  let entries := overrides.foldl (fun entries o => o.path.set o.value entries) entries
  (decode entries).mapError .decode

end Settings

end Sumscript

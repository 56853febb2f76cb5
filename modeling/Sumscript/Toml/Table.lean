import Sumscript.Settings.Value

/-! # Tables under construction

A TOML document fills tables from several places. Each table remembers how it came about,
because a table may be defined only once: by its own header, or by the dotted keys that lead
into it. A table that only a deeper header implied may still get its own header.
-/

namespace Sumscript.Toml

/-- How a table came about. -/
inductive Origin where
  /-- A header of a deeper table. -/
  | implied
  /-- Its own header. -/
  | header
  /-- Dotted keys. -/
  | dotted
deriving DecidableEq, Repr, Inhabited

/-- What a key stands for while a document is read. -/
inductive Item where
  | value (value : Value)
  | table (origin : Origin) (entries : List (String × Item))
  /-- Tables under one header in double brackets, the last one first. -/
  | tables (elements : List (List (String × Item)))
deriving Inhabited

/-- The entries of a table. -/
abbrev Entries := List (String × Item)

mutual

/-- The value of an item. -/
def Item.toValue : Item → Value
  | .value value => value
  | .table _ entries => .table (entryValues entries)
  | .tables elements => .list (tableValues elements).reverse

/-- The values of entries. -/
def entryValues : List (String × Item) → List (String × Value)
  | [] => []
  | (key, item) :: rest => (key, item.toValue) :: entryValues rest

/-- The values of tables. -/
def tableValues : List (List (String × Item)) → List Value
  | [] => []
  | entries :: rest => .table (entryValues entries) :: tableValues rest

end

namespace Entries

/-- Changes the table at the end of a path of headers; missing tables are implied. -/
def atHeader (change : Entries → Option Entries) : List String → Entries → Option Entries
  | [], entries => change entries
  | key :: path, entries =>
    match entries.lookup key with
    | none => (atHeader change path []).map fun inner =>
      Value.setKey key (.table .implied inner) entries
    | some (.table origin inner) => (atHeader change path inner).map fun inner =>
      Value.setKey key (.table origin inner) entries
    | some (.tables (last :: earlier)) => (atHeader change path last).map fun last =>
      Value.setKey key (.tables (last :: earlier)) entries
    | some _ => none

/-- Changes the table at the end of a path of dotted keys. A table with a header of its own is
closed to dotted keys, and the last table of the path must come from dotted keys. The last of the
tables under a header in double brackets may be passed through. -/
def atDotted (change : Entries → Option Entries) : List String → Entries → Option Entries
  | [], entries => change entries
  | key :: path, entries =>
    match entries.lookup key with
    | none => (atDotted change path []).map fun inner =>
      Value.setKey key (.table .dotted inner) entries
    | some (.table origin inner) =>
      if origin = .header || (origin = .implied && path.isEmpty) then none
      else (atDotted change path inner).map fun inner =>
        Value.setKey key (.table origin inner) entries
    | some (.tables (last :: earlier)) =>
      if path.isEmpty then none
      else (atDotted change path last).map fun last =>
        Value.setKey key (.tables (last :: earlier)) entries
    | some _ => none

/-- Adds a value under a new key. -/
def add (key : String) (value : Value) (entries : Entries) : Option Entries :=
  match entries.lookup key with
  | none => some (Value.setKey key (.value value) entries)
  | some _ => none

/-- Opens a table under its header. -/
def openTable (key : String) (entries : Entries) : Option Entries :=
  match entries.lookup key with
  | none => some (Value.setKey key (.table .header []) entries)
  | some (.table .implied inner) => some (Value.setKey key (.table .header inner) entries)
  | some _ => none

/-- Opens one more table under a header in double brackets. -/
def openElement (key : String) (entries : Entries) : Option Entries :=
  match entries.lookup key with
  | none => some (Value.setKey key (.tables [[]]) entries)
  | some (.tables elements) => some (Value.setKey key (.tables ([] :: elements)) entries)
  | some _ => none

/-- Adds a value under a key of parts with dots between them. -/
def addDotted (parts : List String) (value : Value) (entries : Entries) : Option Entries :=
  match parts.getLast? with
  | none => none
  | some last => atDotted (add last value) parts.dropLast entries

end Entries

end Sumscript.Toml

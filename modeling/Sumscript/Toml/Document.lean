import Sumscript.Toml.Scalar
import Sumscript.Toml.Table

/-! # TOML documents

A document is a sequence of lines: headers, which choose the table to fill, and keys with
values. Reading yields the table of the whole document.
-/

namespace Sumscript.Toml

mutual

/-- Reads a value; `nesting` bounds the arrays and inline tables inside each other, and `fuel` the
values read inside each other and behind each other. -/
def value (nesting : Nat) : Nat → Reader Value
  | 0, _ => none
  | fuel + 1, input =>
    match input with
    | '[' :: rest =>
      if nesting = 0 then none
      else (arrayItems (nesting - 1) fuel (skipLayout rest.length rest)).map fun (items, rest) =>
        (.list items, rest)
    | '\x7b' :: rest =>
      if nesting = 0 then none
      else match skipBlanks rest with
        | '\x7d' :: rest => some (.table [], rest)
        | rest => (inlineEntries (nesting - 1) fuel [] rest).map fun (entries, rest) =>
          (.table (entryValues entries), rest)
    | '"' :: _ | '\'' :: _ => (quotedText input).map fun (text, rest) => (.text text, rest)
    | _ => scalar input

/-- Reads the items of an array up to its closing bracket. -/
def arrayItems (nesting : Nat) : Nat → Reader (List Value)
  | 0, _ => none
  | _ + 1, ']' :: rest => some ([], rest)
  | fuel + 1, input =>
    match value nesting fuel input with
    | none => none
    | some (item, rest) =>
      match skipLayout rest.length rest with
      | ',' :: rest =>
        (arrayItems nesting fuel (skipLayout rest.length rest)).map fun (items, rest) =>
          (item :: items, rest)
      | ']' :: rest => some ([item], rest)
      | _ => none

/-- Reads the entries of an inline table up to its closing brace. -/
def inlineEntries (nesting : Nat) : Nat → Entries → Reader Entries
  | 0, _, _ => none
  | fuel + 1, entries, input =>
    match key input with
    | some (parts, '=' :: rest) =>
      match value nesting fuel (skipBlanks rest) with
      | none => none
      | some (item, rest) =>
        match entries.addDotted parts item with
        | none => none
        | some entries =>
          match skipBlanks rest with
          | ',' :: rest => inlineEntries nesting fuel entries rest
          | '\x7d' :: rest => some (entries, rest)
          | _ => none
    | _ => none

end

/-- A document as far as it was read: its root table and the header of the open table. -/
structure Progress where
  root : Entries
  header : List String

/-- A document after a header. -/
def Progress.enter (p : Progress) (parts : List String)
    (opening : String → Entries → Option Entries) : Option Progress :=
  match parts.getLast? with
  | none => none
  | some last =>
    (p.root.atHeader (opening last) parts.dropLast).map fun root => ⟨root, parts⟩

/-- A document after a key with a value. -/
def Progress.assign (p : Progress) (parts : List String) (item : Value) : Option Progress :=
  (p.root.atHeader (fun entries => entries.addDotted parts item) p.header).map fun root =>
    { p with root }

/-- Reads one line with content. -/
def line (p : Progress) : Reader Progress
  | '[' :: '[' :: rest =>
    match key rest with
    | some (parts, ']' :: ']' :: rest) =>
      (p.enter parts fun last entries => entries.openElement last).map fun p => (p, rest)
    | _ => none
  | '[' :: rest =>
    match key rest with
    | some (parts, ']' :: rest) =>
      (p.enter parts fun last entries => entries.openTable last).map fun p => (p, rest)
    | _ => none
  | input =>
    match key input with
    | some (parts, '=' :: rest) =>
      match value maxNesting (input.length + 1) (skipBlanks rest) with
      | none => none
      | some (item, rest) => (p.assign parts item).map fun p => (p, rest)
    | _ => none

/-- Reads lines up to the end of the document; `fuel` bounds their number. -/
def lines : Nat → Progress → List Char → Option Progress
  | 0, _, _ => none
  | fuel + 1, p, input =>
    match skipLayout input.length input with
    | [] => some p
    | input =>
      match line p input with
      | none => none
      | some (p, rest) =>
        match endLine rest with
        | none => none
        | some rest => lines fuel p rest

/-- A document without the mark of its byte order. -/
def dropMark : List Char → List Char
  | '\uFEFF' :: rest => rest
  | input => input

/-- The table of a document; none if the document breaks the format. -/
def read? (text : String) : Option (List (String × Value)) :=
  let input := dropMark text.toList
  (lines (input.length + 1) ⟨[], []⟩ input).map fun p => entryValues p.root

end Sumscript.Toml

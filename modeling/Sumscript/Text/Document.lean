import Sumscript.Text.Quoted

/-! # Documents and their formats

A document is a tree of texts, numbers, lists and named fields. Programs and trees are turned
into documents, and documents are written in several formats. Fields keep their order.
-/

namespace Sumscript

/-- A tree of texts, numbers, lists and named fields. -/
inductive Document where
  | text (value : String)
  | number (value : Int)
  | list (items : List Document)
  | fields (entries : List (String × Document))
deriving Repr, Inhabited

/-! ## Documents as JSON

The compact form has no blanks. The indented form gives every item and every field a line of
its own, two columns further in than what holds it.
-/

namespace Json

/-- One character as it is written inside a JSON string. -/
def encodeChar (c : Char) : String :=
  match c with
  | '"' => "\\\""
  | '\\' => "\\\\"
  | '\x08' => "\\b"
  | '\x0c' => "\\f"
  | '\n' => "\\n"
  | '\r' => "\\r"
  | '\t' => "\\t"
  | c =>
    if c.toNat < 0x10 then "\\u000" ++ Quoted.hex c.toNat
    else if c.toNat < 0x20 then "\\u00" ++ Quoted.hex c.toNat
    else c.toString

/-- A JSON string. -/
def quote (s : String) : String :=
  "\"" ++ String.join (s.toList.map encodeChar) ++ "\""

mutual

/-- A document without any blanks. -/
def compact : Document → String
  | .text value => quote value
  | .number value => toString value
  | .list items => "[" ++ compactItems items ++ "]"
  | .fields entries => "\x7b" ++ compactFields entries ++ "\x7d"

/-- The items of a list with commas between them. -/
def compactItems : List Document → String
  | [] => ""
  | [item] => compact item
  | item :: rest => compact item ++ "," ++ compactItems rest

/-- Fields with commas between them. -/
def compactFields : List (String × Document) → String
  | [] => ""
  | [(name, value)] => quote name ++ ":" ++ compact value
  | (name, value) :: rest => quote name ++ ":" ++ compact value ++ "," ++ compactFields rest

end

/-- The start of a line at a nesting level. -/
def lineStart (level : Nat) : String :=
  "\n" ++ String.ofList (List.replicate (2 * level) ' ')

mutual

/-- A document over several lines, at a nesting level. -/
def indentedAt (level : Nat) : Document → String
  | .text value => quote value
  | .number value => toString value
  | .list [] => "[]"
  | .list items => "[" ++ indentedItems (level + 1) items ++ lineStart level ++ "]"
  | .fields [] => "\x7b\x7d"
  | .fields entries => "\x7b" ++ indentedFields (level + 1) entries ++ lineStart level ++ "\x7d"

/-- The items of a list, each on a line of its own. -/
def indentedItems (level : Nat) : List Document → String
  | [] => ""
  | [item] => lineStart level ++ indentedAt level item
  | item :: rest => lineStart level ++ indentedAt level item ++ "," ++ indentedItems level rest

/-- Fields, each on a line of its own. -/
def indentedFields (level : Nat) : List (String × Document) → String
  | [] => ""
  | [(name, value)] => lineStart level ++ quote name ++ ": " ++ indentedAt level value
  | (name, value) :: rest =>
    lineStart level ++ quote name ++ ": " ++ indentedAt level value ++ "," ++
      indentedFields level rest

end

/-- A document over several lines, from the left margin. -/
def indented (document : Document) : String :=
  indentedAt 0 document

end Json

/-! ## Documents as YAML

Documents are written in block style: one field or item on a line, nested fields two columns
further in, list items at the column of the field that holds them. A text stands plain unless
a reader would take it for a number, a truth value or nothing; then it stands in single quotes.
-/

namespace Yaml

/-- The words that stand for a truth value or for nothing. -/
def reserved : List String :=
  ["null", "Null", "NULL", "true", "True", "TRUE", "false", "False", "FALSE"]

/-- Whether a plain text would be read as something other than itself. -/
def isAmbiguous (s : String) : Bool :=
  s.toList.all Char.isDigit || s ∈ reserved

/-- A text as a scalar. -/
def scalar (s : String) : String :=
  if isAmbiguous s then "'" ++ s ++ "'" else s

/-- Lines moved in by two columns. -/
def indent (lines : List String) : List String :=
  lines.map ("  " ++ ·)

/-- The lines of one list item: a dash before the first line, the others moved in. -/
def bullet : List String → List String
  | [] => ["-"]
  | line :: rest => ("- " ++ line) :: indent rest

mutual

/-- The lines of a document. -/
def lines : Document → List String
  | .text value => [scalar value]
  | .number value => [toString value]
  | .list [] => ["[]"]
  | .list items => itemLines items
  | .fields [] => ["\x7b\x7d"]
  | .fields entries => fieldLines entries

/-- The lines of list items. -/
def itemLines : List Document → List String
  | [] => []
  | item :: rest => bullet (lines item) ++ itemLines rest

/-- The lines of fields: a scalar or an empty collection stands behind the name. -/
def fieldLines : List (String × Document) → List String
  | [] => []
  | (name, value) :: rest =>
    let nested := lines value
    let own := match value with
      | .list (_ :: _) => (name ++ ":") :: nested
      | .fields (_ :: _) => (name ++ ":") :: indent nested
      | _ => nested.map (name ++ ": " ++ ·)
    own ++ fieldLines rest

end

/-- A document with a line end after every line. -/
def render (document : Document) : String :=
  String.join ((lines document).map (· ++ "\n"))

end Yaml

end Sumscript

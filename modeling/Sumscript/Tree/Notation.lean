import Sumscript.Tree.Node
import Sumscript.Text.Document

/-! # Notations of trees

A tree is written as a term on one line, as an outline with a line for every node, or as a document.
-/

namespace Sumscript.Node

/-! ## Trees as terms

In term notation a tree is the tag of its kind followed by its parts in parentheses, with a
comma and a blank between parts. The first part is the name, where the kind has one.
-/

/-- A tag applied to parts. -/
def applied (tag : String) (parts : List String) : String :=
  tag ++ "(" ++ String.intercalate ", " parts ++ ")"

mutual

/-- A tree in term notation. -/
def term : Node → String
  | ⟨kind, name, children⟩ =>
    applied kind.tag ((if kind.hasName then [name] else []) ++ terms children)

/-- Several trees in term notation. -/
def terms : List Node → List String
  | [] => []
  | node :: rest => node.term :: terms rest

end

/-! ## Trees as outlines

An outline gives every node a line with a symbol for its kind and a label. The lines of the
children stand below the line of their parent, behind connectors that show where a family of
siblings ends.
-/

/-- The symbol of a kind in an outline. -/
def symbol : Kind → String
  | .root => "⧉"
  | .assign => "≔"
  | .literal => "№"
  | .variable => "𝑥"
  | .unop => "±"
  | .binop => "⊕"
  | .call => "ƒ"

/-- The label of a node: a call shows its argument count, a nameless kind its tag. -/
def label (node : Node) : String :=
  match node.kind with
  | .call => node.name ++ "/" ++ toString node.children.length
  | kind => if kind.hasName then node.name else kind.tag

/-- The line of a node without what connects it to its parent. -/
def headline (node : Node) : String :=
  symbol node.kind ++ " " ++ node.label

/-- What stands before the headline of a child. -/
def connector (last : Bool) : String :=
  if last then "└─ " else "├─ "

/-- What stands before the lines of the descendants of a child. -/
def rail (last : Bool) : String :=
  if last then "   " else "│  "

mutual

/-- The lines below a node whose own line has the given margin. -/
def linesBelow (margin : String) : Node → List String
  | ⟨_, _, children⟩ => siblingLines margin children

/-- The lines of a family of siblings and of their descendants. -/
def siblingLines (margin : String) : List Node → List String
  | [] => []
  | node :: rest =>
    let last := rest.isEmpty
    (margin ++ connector last ++ node.headline) ::
      (linesBelow (margin ++ rail last) node ++ siblingLines margin rest)

end

/-- A tree as an outline, with a line end after every line. -/
def outline (node : Node) : String :=
  String.join ((node.headline :: node.linesBelow "").map (· ++ "\n"))

/-! ## Trees as documents

A node is a document with the fields kind, name and children; an empty name and an empty list
of children are left out.
-/

mutual

/-- A tree as a document. -/
def toDocument : Node → Document
  | ⟨kind, name, children⟩ => .fields <|
    ("kind", .text kind.name) ::
      ((if name.isEmpty then [] else [("name", .text name)]) ++
        match children with
        | [] => []
        | first :: rest => [("children", .list (toDocument first :: toDocuments rest))])

/-- Several trees as documents. -/
def toDocuments : List Node → List Document
  | [] => []
  | node :: rest => toDocument node :: toDocuments rest

end

end Sumscript.Node

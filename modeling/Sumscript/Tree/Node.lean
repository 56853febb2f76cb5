/-! # Program trees

A program is a tree of labelled nodes. The kind of a node says what its children are:

* a root holds the statements of a program in order;
* an assignment holds its target variable and its value;
* a unary operation holds its operand, a binary operation its left and its right operand;
* a call holds its arguments in order;
* literals and variables hold no children.

Trees need not follow these rules: tools may build any tree, and the passes that depend on a
rule check it.
-/

namespace Sumscript

/-- What a node of a program tree stands for. -/
inductive Kind where
  | root
  | assign
  | literal
  | variable
  | unop
  | binop
  | call
deriving DecidableEq, Repr, Inhabited

namespace Kind

/-- All kinds, from the root to the call. -/
def all : List Kind :=
  [.root, .assign, .literal, .variable, .unop, .binop, .call]

/-- The name under which documents and messages know a kind. -/
def name : Kind → String
  | .root => "Root"
  | .assign => "Assign"
  | .literal => "Literal"
  | .variable => "Variable"
  | .unop => "Unop"
  | .binop => "Binop"
  | .call => "FuncCall"

/-- The short name of a kind in term notation. -/
def tag : Kind → String
  | .root => "root"
  | .assign => "assign"
  | .literal => "lit"
  | .variable => "var"
  | .unop => "unop"
  | .binop => "binop"
  | .call => "call"

/-- Whether the name of a node of this kind is part of its meaning. -/
def hasName : Kind → Bool
  | .root | .assign => false
  | _ => true

/-- The kind of a given name. -/
def ofName? (name : String) : Option Kind :=
  all.find? fun kind => kind.name == name

end Kind

/-- A labelled node with its subtrees. -/
structure Node where
  kind : Kind
  name : String
  children : List Node
deriving Repr, Inhabited

namespace Node

/-- A node without children. -/
def leaf (kind : Kind) (name : String) : Node :=
  ⟨kind, name, []⟩

/-- The root of a program without statements. -/
def emptyRoot : Node :=
  leaf .root ""

/-- A node with one more child behind its others. -/
def addChild (node child : Node) : Node :=
  { node with children := node.children ++ [child] }

/-- Whether a node has no children. -/
def isLeaf (node : Node) : Bool :=
  node.children.isEmpty

mutual

/-- The number of nodes of a tree. -/
def size : Node → Nat
  | ⟨_, _, children⟩ => 1 + totalSize children

/-- The number of nodes of several trees together. -/
def totalSize : List Node → Nat
  | [] => 0
  | node :: rest => node.size + totalSize rest

end

end Node

end Sumscript

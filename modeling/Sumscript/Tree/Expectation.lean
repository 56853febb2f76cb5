import Sumscript.Text.Quoted
import Sumscript.Tree.Notation

/-! # Expectations on trees

Expectations describe a tree for tests: what a node is, how many children it has, and what is
expected of a child. They are checked in order, and the first one that does not hold is
reported with the path to its node.
-/

namespace Sumscript

/-- What is expected of a node. -/
inductive Expectation where
  | kind (expected : Kind)
  | name (expected : String)
  | leaf
  | childCount (expected : Nat)
  /-- The tree in term notation. -/
  | term (expected : String)
  /-- There is a child with this index, and all of this holds of it. -/
  | child (index : Nat) (expected : List Expectation)
deriving Repr, Inhabited

/-- An expectation that a node does not meet, with the path to the node. -/
structure Violation where
  path : String
  node : Node
  expectation : Expectation
deriving Repr, Inhabited

namespace Expectation

/-- A node of a kind that has a name. -/
def named (kind : Kind) (name : String) : List Expectation :=
  [.kind kind, .name name]

/-- A node of a kind that has a name and no children. -/
def namedLeaf (kind : Kind) (name : String) : List Expectation :=
  [.kind kind, .name name, .leaf]

/-- Reports an expectation that does not hold. -/
def require (path : String) (node : Node) (expectation : Expectation) (holds : Bool) :
    Except Violation Unit :=
  if holds then .ok () else .error ⟨path, node, expectation⟩

mutual

/-- Checks one expectation of a node. -/
def check (path : String) (node : Node) : Expectation → Except Violation Unit
  | .kind expected => require path node (.kind expected) (node.kind = expected)
  | .name expected => require path node (.name expected) (node.name = expected)
  | .leaf => require path node .leaf node.isLeaf
  | .childCount expected =>
    require path node (.childCount expected) (node.children.length = expected)
  | .term expected => require path node (.term expected) (node.term = expected)
  | .child index expected =>
    match node.children[index]? with
    | none => .error ⟨path, node, .child index expected⟩
    | some node => checkAll (path ++ ":children[" ++ toString index ++ "]") node expected

/-- Checks expectations of a node in order. -/
def checkAll (path : String) (node : Node) : List Expectation → Except Violation Unit
  | [] => .ok ()
  | expectation :: rest => do
    check path node expectation
    checkAll path node rest

end

end Expectation

/-- Checks expectations of a whole tree. -/
def Node.check (node : Node) (expectations : List Expectation) : Except Violation Unit :=
  Expectation.checkAll node.kind.tag node expectations

namespace Violation

/-- The report on two values that should be equal. -/
def unequal (what found expected : String) : String :=
  "assertion `left == right` failed: " ++ what ++ "\n  left: " ++ found ++ "\n right: " ++ expected

/-- The wording of a violation. -/
def message (v : Violation) : String :=
  let count := toString v.node.children.length
  match v.expectation with
  | .kind expected =>
    unequal (v.path ++ ": Expected " ++ expected.name ++ " node, found " ++ v.node.kind.name ++
      " (" ++ v.node.term ++ ")") v.node.kind.name expected.name
  | .name expected =>
    unequal (v.path ++ ": Expected name " ++ Quoted.quote expected ++ ", found " ++
      Quoted.quote v.node.name) (Quoted.quote v.node.name) (Quoted.quote expected)
  | .leaf =>
    v.path ++ ": Expected a leaf, found " ++ count ++ " children (" ++ v.node.term ++ ")"
  | .childCount expected =>
    unequal (v.path ++ ": Expected " ++ toString expected ++ " children, found " ++ count ++
      " children: [" ++
      String.intercalate ", " (v.node.children.map fun child => child.kind.tag) ++ "]")
      count (toString expected)
  | .term expected =>
    unequal (v.path ++ ": Rendering mismatch") (Quoted.quote v.node.term) (Quoted.quote expected)
  | .child index _ =>
    v.path ++ ": Child index " ++ toString index ++ " out of bounds (node has " ++ count ++
      " children)"

end Violation

end Sumscript

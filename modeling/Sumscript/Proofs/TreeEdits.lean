import Sumscript.Tree.Builder

/-! # The edits that build a tree

Every tree has a sequence of actions that builds it. A call, a unary or a binary operation goes on
the stack before its last operand and is finished above whatever stands there, so the sequence of
a tree never looks at the nodes below, however unfinished they are.
-/

namespace Sumscript

/-- An action with the text that it takes. -/
abbrev Edit := Action × Option String

namespace Node

/-- Trees in which every node has as many children as the grammar gives it. An assignment has a
variable for its target and no name of its own. -/
inductive HasShape : Node → Prop where
  | literal {name} : HasShape (.leaf .literal name)
  | variable {name} : HasShape (.leaf .variable name)
  | call {name arguments} (harguments : ∀ argument ∈ arguments, HasShape argument) :
      HasShape ⟨.call, name, arguments⟩
  | unop {name operand} (hoperand : HasShape operand) : HasShape ⟨.unop, name, [operand]⟩
  | binop {name left right} (hleft : HasShape left) (hright : HasShape right) :
      HasShape ⟨.binop, name, [left, right]⟩
  | assign {target value} (hvalue : HasShape value) :
      HasShape ⟨.assign, "", [.leaf .variable target, value]⟩

mutual

/-- The edits that build a tree. -/
def edits : Node → List Edit
  | ⟨.literal, name, _⟩ => [(.addLiteral, some name)]
  | ⟨.variable, name, _⟩ => [(.addVariable, some name)]
  | ⟨.call, name, arguments⟩ => (.addFuncCall, some name) :: argumentEdits arguments
  | ⟨.unop, name, [operand]⟩ =>
    (.startUnop, some name) :: (operand.edits ++ [(.endUnop, none)])
  | ⟨.binop, name, [left, right]⟩ =>
    left.edits ++ (.addBinopName, some name) :: (right.edits ++ [(.endBinop, none)])
  | ⟨.assign, _, [target, value]⟩ =>
    (.addVariable, some target.name) :: (value.edits ++ [(.addAssign, none)])
  | _ => []

/-- The edits that add arguments to a call. -/
def argumentEdits : List Node → List Edit
  | [] => []
  | argument :: rest => argument.edits ++ (.addFuncCallArg, none) :: argumentEdits rest

end

/-- The edits that add statements to a program. -/
def programEdits (statements : List Node) : List Edit :=
  statements.flatMap fun statement => statement.edits ++ [(.addStatement, none)]

end Node

namespace Builder

/-- Carries out an action on its text. -/
def edit (b : Builder) (e : Edit) : Except BuildError Builder :=
  match b.apply e.1 e.2 with
  | (_, some error) => .error error
  | (b', none) => .ok b'

/-- Carries out actions in order. -/
def carryOut (b : Builder) (edits : List Edit) : Except BuildError Builder :=
  edits.foldlM edit b

section CarryOut

variable {b : Builder} {e : Edit} {rest : List Edit} {t : Node}

theorem carryOut_cons (b' : Builder) (h : b.edit e = .ok b') :
    b.carryOut (e :: rest) = b'.carryOut rest := by
  unfold carryOut
  rw [List.foldlM_cons, h]
  rfl

/-- Arguments go into the call on top of the stack one after another. -/
theorem carryOut_argumentEdits {arguments : List Node}
    (h : ∀ argument ∈ arguments, ∀ (b : Builder) rest,
      b.carryOut (argument.edits ++ rest) = (b.push argument).carryOut rest)
    (name : String) (done : List Node) :
    (b.push ⟨.call, name, done⟩).carryOut (Node.argumentEdits arguments ++ rest) =
      (b.push ⟨.call, name, done ++ arguments⟩).carryOut rest := by
  induction arguments generalizing done with
  | nil =>
      rw [List.append_nil]
      rfl
  | cons argument later ih =>
      rw [Node.argumentEdits, List.append_assoc, h argument List.mem_cons_self,
        List.cons_append,
        carryOut_cons (b.push ⟨.call, name, done ++ [argument]⟩) rfl,
        ih (fun other hother => h other (List.mem_cons_of_mem _ hother)), List.append_assoc]
      rfl

/-- The edits of a tree put the tree on the stack, whatever stands there. -/
theorem carryOut_edits_append (h : t.HasShape) (b : Builder) (rest : List Edit) :
    b.carryOut (t.edits ++ rest) = (b.push t).carryOut rest := by
  induction h generalizing b rest with
  | literal | «variable» => exact carryOut_cons _ rfl
  | @call name arguments _ ih =>
      rw [Node.edits, List.cons_append,
        carryOut_cons (b.push ⟨.call, name, []⟩) rfl]
      exact carryOut_argumentEdits ih name []
  | @unop name operand _ ih =>
      rw [Node.edits, List.cons_append, List.append_assoc,
        carryOut_cons (b.push (.leaf .unop name)) rfl, ih]
      exact carryOut_cons _ rfl
  | @binop name left right _ _ ihleft ihright =>
      rw [Node.edits, List.append_assoc, ihleft, List.cons_append, List.append_assoc,
        carryOut_cons (b.push ⟨.binop, name, [left]⟩) rfl, ihright]
      exact carryOut_cons _ rfl
  | @assign target value _ ih =>
      rw [Node.edits, List.cons_append, List.append_assoc,
        carryOut_cons (b.push (.leaf .variable target)) rfl, ih]
      exact carryOut_cons _ rfl

/-- Statements are attached to the root in order. -/
theorem carryOut_programEdits {statements : List Node} (h : ∀ t ∈ statements, t.HasShape)
    (root : Node) : carryOut ⟨root, []⟩ (Node.programEdits statements) =
      .ok ⟨{ root with children := root.children ++ statements }, []⟩ := by
  induction statements generalizing root with
  | nil =>
      cases root
      rw [List.append_nil]
      rfl
  | cons statement later ih =>
      have hlater := ih (fun t ht => h t (List.mem_cons_of_mem _ ht)) (root.addChild statement)
      rw [Node.programEdits, List.flatMap_cons, List.append_assoc,
        carryOut_edits_append (h statement List.mem_cons_self), List.singleton_append,
        carryOut_cons ⟨root.addChild statement, []⟩ rfl]
      refine hlater.trans ?_
      rw [Node.addChild, List.append_assoc]
      rfl

end CarryOut

/-- Carrying out the edits of a tree never fails. It leaves the root and the stack as they were,
with exactly the tree on top; so the edits of statements build the program of these statements. -/
theorem carryOut_edits :
    (∀ t : Node, t.HasShape → ∀ b : Builder, b.carryOut t.edits = .ok ⟨b.root, t :: b.stack⟩) ∧
    ∀ statements : List Node, (∀ t ∈ statements, t.HasShape) →
      (empty.carryOut (Node.programEdits statements)).bind finish =
        .ok ⟨.root, "", statements⟩ := by
  constructor
  · intro t h b
    have hcarried := carryOut_edits_append h b []
    rw [List.append_nil] at hcarried
    exact hcarried
  · intro statements h
    have hcarried := carryOut_programEdits h .emptyRoot
    change (carryOut ⟨.emptyRoot, []⟩ _).bind finish = _
    rw [hcarried]
    rfl

/-- The call `f(g(1) + x)`. -/
def nestedCall : Node :=
  ⟨.call, "f", [⟨.binop, "+", [⟨.call, "g", [.leaf .literal "1"]⟩, .leaf .variable "x"]⟩]⟩

theorem hasShape_nestedCall : nestedCall.HasShape :=
  .call (List.forall_mem_singleton.mpr
    (.binop (.call (List.forall_mem_singleton.mpr .literal)) .variable))

/-- The call is built above an unfinished call of the same name and an unfinished operation. -/
theorem carryOut_edits_nestedCall :
    (carryOut ⟨.emptyRoot, [.leaf .call "f", ⟨.binop, "+", [.leaf .literal "2"]⟩]⟩
      nestedCall.edits = .ok ⟨.emptyRoot,
        [nestedCall, .leaf .call "f", ⟨.binop, "+", [.leaf .literal "2"]⟩]⟩) ∧
    (empty.carryOut (Node.programEdits [nestedCall, nestedCall])).bind finish =
      .ok ⟨.root, "", [nestedCall, nestedCall]⟩ := by
  obtain ⟨htree, hprogram⟩ := carryOut_edits
  refine ⟨htree _ hasShape_nestedCall _, hprogram _ ?_⟩
  exact List.forall_mem_cons.mpr
    ⟨hasShape_nestedCall, List.forall_mem_singleton.mpr hasShape_nestedCall⟩

end Builder

end Sumscript

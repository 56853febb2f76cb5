import Sumscript.Tree.Builder

/-! # The moves of a builder

An action that succeeds changes a builder in one of five ways, whatever its text is. This is said
once here, as a relation with one constructor for each of them.
-/

namespace Sumscript

namespace Action

/-- The kind of the node that an action starts with nothing but its name. -/
def starts? : Action → Option Kind
  | .addVariable => some .variable
  | .addLiteral => some .literal
  | .addFuncCall => some .call
  | .startUnop => some .unop
  | _ => none

/-- The kind of the node to which an action attaches another one. -/
def attachesTo? : Action → Option Kind
  | .addFuncCallArg => some .call
  | .endUnop => some .unop
  | .endBinop => some .binop
  | _ => none

end Action

namespace Builder

/-- What an action that succeeds does: it starts a node, puts the top node into a binary
operation, joins two nodes to an assignment, moves the top node into the one below, or moves the
only node into the root. -/
inductive Moves : Action → Option String → Builder → Builder → Prop where
  | start {action kind name b} (hstarts : action.starts? = some kind) :
      Moves action (some name) b (b.push (.leaf kind name))
  | binop {name root left rest} :
      Moves .addBinopName (some name) ⟨root, left :: rest⟩ ⟨root, ⟨.binop, name, [left]⟩ :: rest⟩
  | assign {text root value target rest} (hkind : target.kind = .variable) :
      Moves .addAssign text ⟨root, value :: target :: rest⟩
        ⟨root, ⟨.assign, "", [target, value]⟩ :: rest⟩
  | attach {action text kind root child parent rest} (hattaches : action.attachesTo? = some kind)
      (hkind : parent.kind = kind) : Moves action text ⟨root, child :: parent :: rest⟩
        ⟨root, parent.addChild child :: rest⟩
  | statement {text root statement} :
      Moves .addStatement text ⟨root, [statement]⟩ ⟨root.addChild statement, []⟩

section Moves

variable {action : Action} {text : Option String} {b b' : Builder}

theorem moves_of_attach {kind : Kind} (hattaches : action.attachesTo? = some kind)
    (h : b.attach action kind = (b', none)) : Moves action text b b' := by
  obtain ⟨root, stack⟩ := b
  unfold attach at h
  split at h
  · cases h
  · cases h
  next child parent rest hstack =>
    obtain rfl : stack = child :: parent :: rest := hstack
    split at h
    next hkind =>
      cases h
      exact .attach hattaches hkind
    · cases h

theorem moves_of_startNamed {kind : Kind} (hstarts : action.starts? = some kind)
    (h : b.withText action text (b.startNamed kind) = (b', none)) : Moves action text b b' := by
  cases text with
  | none => cases h
  | some name =>
      cases h
      exact .start hstarts

theorem moves_of_addBinopName
    (h : b.withText .addBinopName text b.addBinopName = (b', none)) :
    Moves .addBinopName text b b' := by
  obtain ⟨root, stack⟩ := b
  cases text with
  | none => cases h
  | some name =>
      cases stack with
      | nil => cases h
      | cons left rest =>
          cases h
          exact .binop

theorem moves_of_addAssign (h : b.addAssign = (b', none)) : Moves .addAssign text b b' := by
  obtain ⟨root, stack⟩ := b
  unfold addAssign at h
  split at h
  · cases h
  · cases h
  next value target rest hstack =>
    obtain rfl : stack = value :: target :: rest := hstack
    split at h
    next hkind =>
      cases h
      exact .assign hkind
    · cases h

theorem moves_of_addStatement (h : b.addStatement = (b', none)) :
    Moves .addStatement text b b' := by
  obtain ⟨root, stack⟩ := b
  unfold addStatement at h
  split at h
  · cases h
  next statement hstack =>
    obtain rfl : stack = [statement] := hstack
    cases h
    exact .statement
  · cases h

theorem moves_of_apply (h : b.apply action text = (b', none)) : Moves action text b b' := by
  cases action with
  | addStatement => exact moves_of_addStatement h
  | addAssign => exact moves_of_addAssign h
  | addVariable | addLiteral | addFuncCall | startUnop => exact moves_of_startNamed rfl h
  | addFuncCallArg | endUnop | endBinop => exact moves_of_attach rfl h
  | addBinopName => exact moves_of_addBinopName h

theorem Moves.apply_eq (h : Moves action text b b') : b.apply action text = (b', none) := by
  cases h with
  | start hstarts => cases action <;> cases hstarts <;> rfl
  | binop => rfl
  | assign hkind => exact if_pos hkind
  | attach hattaches hkind => cases action <;> cases hattaches <;> exact if_pos hkind
  | statement => rfl

/-- The moves are exactly what the actions that succeed do. -/
theorem apply_eq_iff : b.apply action text = (b', none) ↔ Moves action text b b' :=
  ⟨moves_of_apply, Moves.apply_eq⟩

/-- An action that takes a text does not succeed without one. -/
theorem Moves.exists_text (h : Moves action text b b') (hneeds : action.needsText = true) :
    ∃ name, text = some name := by
  cases h with
  | start | binop => exact ⟨_, rfl⟩
  | assign | statement => cases hneeds
  | attach hattaches =>
      cases action with
      | addFuncCallArg | endUnop | endBinop => cases hneeds
      | _ => cases hattaches

end Moves

end Builder

end Sumscript

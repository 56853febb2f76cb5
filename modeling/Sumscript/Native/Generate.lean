import Sumscript.Machine.Run
import Sumscript.Native.Unit
import Sumscript.Text.Characters

/-! # From code to a C unit

There are no jumps, so the height of the stack before every instruction is known, and with it
the slots that the instruction reads and writes.
-/

namespace Sumscript

/-- Why code has no C unit. -/
inductive GenerateError where
  /-- A call names no function. -/
  | unknownFunction (name : String)
  /-- The name of a variable is no C identifier. -/
  | invalidName (name : String)
  /-- An instruction needs more values than the stack holds. -/
  | stackUnderflow (index : Nat) (instr : Instr) (needed height : Nat)
deriving DecidableEq, Repr, Inhabited

namespace GenerateError

/-- The wording of a generation error. -/
def message : GenerateError → String
  | .unknownFunction name => "function '" ++ name ++ "' has no native implementation"
  | .invalidName name => "'" ++ name ++ "' is not a valid native symbol name"
  | .stackUnderflow index instr needed height =>
    "grain " ++ toString index ++ " (" ++ instr.render ++ ") needs " ++ toString needed ++
      " stack value(s) but only " ++ toString height ++ " are available"

end GenerateError

namespace CUnit

/-- A name put into an increasing list of names that holds each name once. -/
def insertName (name : String) : List String → List String
  | [] => [name]
  | other :: rest =>
    if name = other then other :: rest
    else if name < other then name :: other :: rest
    else other :: insertName name rest

/-- The statement for an instruction that starts at a height of the stack which holds what the
instruction needs. -/
def statement (height : Nat) (i : Instr) : Except GenerateError CStatement :=
  match i.opcode with
  | .const => .ok (.constant height i.value)
  | .load =>
    if Identifier.isValid i.name then .ok (.load height i.name)
    else .error (.invalidName i.name)
  | .store =>
    if Identifier.isValid i.name then .ok (.store i.name (height - 1))
    else .error (.invalidName i.name)
  | .add => .ok (.addTo (height - 1 - 1) (height - 1))
  | .call =>
    if i.name = printName then
      -- The first argument was evaluated last and lies on top.
      .ok (.print ((List.range i.pops).map fun k => height - 1 - k) (height - i.pops))
    else .error (.unknownFunction i.name)
  | .discard => .ok .nothing

/-- The height of the stack after an instruction. -/
def heightAfter (height : Nat) (i : Instr) : Nat :=
  (height + i.effect).toNat

/-- The statements for code whose first instruction has an index and starts at a height. -/
def statementsFrom (index height : Nat) :
    Code → Except GenerateError (List (CStatement × Instr))
  | [] => .ok []
  | i :: rest =>
    if height < i.needs then .error (.stackUnderflow index i i.needs height)
    else do
      let own ← statement height i
      let others ← statementsFrom (index + 1) (heightAfter height i) rest
      return (own, i) :: others

/-- The variable that a statement reads or writes. -/
def usedName? : CStatement → Option String
  | .load _ name | .store name _ => some name
  | _ => none

/-- The variables of statements, each once and in increasing order. -/
def variablesOf (body : List (CStatement × Instr)) : List String :=
  (body.filterMap fun (statement, _) => usedName? statement).foldl
    (fun names name => insertName name names) []

/-- The C unit for code. -/
def ofCode (code : Code) : Except GenerateError CUnit := do
  let body ← statementsFrom 0 0 code
  return ⟨variablesOf body, max 1 code.maxHeight, body⟩

end CUnit

end Sumscript

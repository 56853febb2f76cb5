import Sumscript.Code.Instr
import Sumscript.Machine.Stores

/-! # The stack machine

The machine runs instructions against a stack of limited capacity, a memory and a sink. There
are no jumps: a run ends after the last instruction or at the first error.

A step that fails leaves the machine as it stands at that point. A call whose output is refused
has taken its arguments off the stack, and a call whose result does not fit has printed.
-/

namespace Sumscript

/-- The capacity of a stack where none is given. -/
def defaultCapacity : Nat := 256

/-- Why a step or a run failed. -/
inductive RuntimeError where
  /-- A call names no function. -/
  | unknownFunction (name : String)
  /-- The stack has no room for another value. -/
  | stackOverflow (capacity : Nat)
  /-- The stack holds fewer values than an instruction needs. -/
  | stackUnderflow (opcode : Opcode) (needed height : Nat)
  /-- The sink refused output. -/
  | output (error : SinkError)
deriving DecidableEq, Repr, Inhabited

namespace RuntimeError

/-- The wording of a runtime error. -/
def message : RuntimeError → String
  | .unknownFunction name => "unknown function '" ++ name ++ "'"
  | .stackOverflow capacity => "stack overflow (capacity " ++ toString capacity ++ ")"
  | .stackUnderflow opcode needed height =>
    opcode.mnemonic ++ " needs " ++ toString needed ++ " value(s) but the stack holds " ++
      toString height
  | .output error => "failed to write program output: " ++ error.message

end RuntimeError

/-- The name of the only function. -/
def printName : String := "print"

/-- The line that a call prints: the arguments in order with blanks between them. -/
def printedLine (arguments : List Int64) : String :=
  String.intercalate " " (arguments.map fun value => toString value.toInt) ++ "\n"

/-- The stack, its top first, with its capacity, the memory and the sink. -/
structure Machine where
  stack : List Int64
  capacity : Nat
  memory : Memory
  sink : Sink
deriving DecidableEq, Repr, Inhabited

namespace Machine

/-- A machine that has not run anything. -/
def fresh (capacity : Nat) (sink : Sink) : Machine :=
  ⟨[], capacity, .empty, sink⟩

/-- What a step leaves: the machine and, if it failed, the reason. -/
abbrev Outcome := Machine × Option RuntimeError

/-- The number of values on the stack. -/
def height (m : Machine) : Nat :=
  m.stack.length

/-- Pushes a value. -/
def push (m : Machine) (value : Int64) : Outcome :=
  if m.height < m.capacity then ({ m with stack := value :: m.stack }, none)
  else (m, some (.stackOverflow m.capacity))

/-- Takes `count` values off the stack and goes on with them, the top first. -/
def take (m : Machine) (opcode : Opcode) (count : Nat)
    (next : List Int64 → Machine → Outcome) : Outcome :=
  if m.height < count then (m, some (.stackUnderflow opcode count m.height))
  else next (m.stack.take count) { m with stack := m.stack.drop count }

/-- Prints arguments and pushes zero, the result of printing. -/
def print (arguments : List Int64) (m : Machine) : Outcome :=
  match m.sink.write (printedLine arguments).toList with
  | (sink, some error) => ({ m with sink }, some (.output error))
  | (sink, none) => { m with sink }.push 0

/-- Runs one instruction. -/
def step (m : Machine) (i : Instr) : Outcome :=
  match i.opcode with
  | .discard => m.take i.opcode 1 fun _ m' => (m', none)
  | .store =>
    match m.stack with
    | [] => (m, some (.stackUnderflow .store 1 0))
    -- The stored value stays, because an assignment has it as its own value.
    | top :: _ => ({ m with memory := m.memory.set i.name top }, none)
  | .load => m.push (m.memory.read i.name)
  | .const => m.push i.value
  | .add => m.take i.opcode 2 fun operands m' => m'.push (operands.foldl (· + ·) 0)
  | .call =>
    if i.name = printName then m.take i.opcode i.pops print
    else (m, some (.unknownFunction i.name))

/-- Runs instructions up to the first one that fails. -/
def runSteps (m : Machine) : Code → Outcome
  | [] => (m, none)
  | i :: rest =>
    match m.step i with
    | (m', some error) => (m', some error)
    | (m', none) => runSteps m' rest

/-- Runs code and flushes the sink. -/
def run (m : Machine) (code : Code) : Outcome :=
  match m.runSteps code with
  | (m', some error) => (m', some error)
  | (m', none) => (m', m'.sink.flush.map .output)

end Machine

/-! ## Single-stepping the machine

A trace runs every instruction, goes on after errors, and reports what each step did.
-/

/-- What one step did. -/
structure StepReport where
  error : Option RuntimeError
  /-- The stack after the step, its bottom first. -/
  stack : List Int64
  /-- What the step printed. -/
  printed : String
  /-- For a store, the value of its variable after the step. -/
  stored : Option (Option Int64)
deriving Repr, Inhabited

namespace Machine

/-- The report on a step from one machine to the next. -/
def report (before after : Machine) (error : Option RuntimeError) (i : Instr) : StepReport :=
  { error
    stack := after.stack.reverse
    printed := String.ofList (after.sink.written.drop before.sink.written.length)
    stored := if i.opcode = .store then some (after.memory.get? i.name) else none }

/-- Runs every instruction, also after errors, and reports on each step. -/
def trace (m : Machine) : Code → List StepReport × Machine
  | [] => ([], m)
  | i :: rest =>
    match m.step i with
    | (m', error) =>
      match m'.trace rest with
      | (reports, last) => (m.report m' error i :: reports, last)

end Machine

end Sumscript

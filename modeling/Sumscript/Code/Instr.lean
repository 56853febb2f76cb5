import Sumscript.Text.Document

/-! # Instructions of the stack machine

Code is a list of instructions without jumps: it runs from the first to the last. Every opcode
uses some of the fields of an instruction; the others may hold anything.
-/

namespace Sumscript

/-- What an instruction does. -/
inductive Opcode where
  /-- Writes the top of the stack to a variable and leaves it on the stack. -/
  | store
  /-- Pushes the value of a variable. -/
  | load
  /-- Pushes a constant. -/
  | const
  /-- Replaces the two top values by their sum. -/
  | add
  /-- Takes arguments off the stack, calls a function and pushes its result. -/
  | call
  /-- Drops the top of the stack. -/
  | discard
deriving DecidableEq, Repr, Inhabited

namespace Opcode

/-- All opcodes. -/
def all : List Opcode :=
  [.store, .load, .const, .add, .call, .discard]

/-- The written name of an opcode. -/
def mnemonic : Opcode → String
  | .store => "store"
  | .load => "load"
  | .const => "const"
  | .add => "add"
  | .call => "call"
  | .discard => "discard"

/-- The opcode of a given name. -/
def ofMnemonic? (name : String) : Option Opcode :=
  all.find? fun opcode => opcode.mnemonic == name

/-- How many values an opcode puts on the stack after it has taken its own. -/
def pushes : Opcode → Nat
  | .store | .discard => 0
  | .load | .const | .add | .call => 1

end Opcode

/-- One instruction. `pops` counts the values that it asks for; a store asks for one and leaves
it in place. -/
structure Instr where
  opcode : Opcode
  name : String
  value : Int64
  pops : Nat
deriving DecidableEq, Repr, Inhabited

namespace Instr

/-- Writes the top of the stack to a variable. -/
def store (name : String) : Instr := ⟨.store, name, 0, 1⟩

/-- Pushes the value of a variable. -/
def load (name : String) : Instr := ⟨.load, name, 0, 0⟩

/-- Pushes a constant. -/
def const (value : Int64) : Instr := ⟨.const, "", value, 0⟩

/-- Adds the two top values. -/
def add : Instr := ⟨.add, "", 0, 2⟩

/-- Calls a function with a number of arguments. -/
def call (name : String) (arguments : Nat) : Instr := ⟨.call, name, 0, arguments⟩

/-- Drops the top of the stack. -/
def discard : Instr := ⟨.discard, "", 0, 1⟩

/-- The net change of the height of the stack. -/
def effect (i : Instr) : Int :=
  match i.opcode with
  | .store => i.opcode.pushes
  | _ => i.opcode.pushes - i.pops

/-- How many values must be on the stack, as far as it can be told before a run. -/
def needs (i : Instr) : Nat :=
  match i.opcode with
  | .store => 1
  | _ => i.pops

/-- The written form of an instruction. -/
def render (i : Instr) : String :=
  match i.opcode with
  | .store | .load => i.opcode.mnemonic ++ " " ++ i.name
  | .const => i.opcode.mnemonic ++ " " ++ toString i.value.toInt
  | .call => i.opcode.mnemonic ++ " " ++ i.name ++ "/" ++ toString i.pops
  | .add | .discard => i.opcode.mnemonic

/-- An instruction as a document; an empty name and a value of zero are left out. -/
def toDocument (i : Instr) : Document :=
  .fields <|
    [("opcode", .text i.opcode.mnemonic)] ++
    (if i.name.isEmpty then [] else [("name", .text i.name)]) ++
    (if i.value = 0 then [] else [("value", .number i.value.toInt)]) ++
    [("pop_count", .number i.pops)]

end Instr

/-- Instructions in the order in which they run. -/
abbrev Code := List Instr

namespace Code

/-- The greatest of `best` and of the heights that code reaches from a given height. -/
def maxHeightFrom (height best : Int) : Code → Int
  | [] => best
  | i :: rest => maxHeightFrom (height + i.effect) (max best (height + i.effect)) rest

/-- The greatest height that the stack reaches when code runs from an empty stack. -/
def maxHeight (code : Code) : Nat :=
  (maxHeightFrom 0 0 code).toNat

/-- One line for every instruction. -/
def listing (code : Code) : String :=
  String.join (code.map fun i => i.render ++ "\n")

/-- Code as a document. -/
def toDocument (code : Code) : Document :=
  .list (code.map Instr.toDocument)

end Code

end Sumscript

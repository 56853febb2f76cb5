/-! # Memories and sinks

A machine keeps the values of variables in a memory and prints to a sink. A memory holds the
variables that were stored, each once, in the order of their first store.
-/

namespace Sumscript

/-- The stored variables with their values. -/
structure Memory where
  entries : List (String × Int64)
deriving DecidableEq, Repr, Inhabited

namespace Memory

/-- A memory without variables. -/
def empty : Memory := ⟨[]⟩

/-- The value of a variable that was stored. -/
def get? (m : Memory) (name : String) : Option Int64 :=
  m.entries.lookup name

/-- The value that a program reads: zero if the variable was never stored. -/
def read (m : Memory) (name : String) : Int64 :=
  (m.get? name).getD 0

/-- Entries after a store: the old value is replaced, a new variable comes last. -/
def setEntry (name : String) (value : Int64) : List (String × Int64) → List (String × Int64)
  | [] => [(name, value)]
  | (other, old) :: rest =>
    if other = name then (name, value) :: rest else (other, old) :: setEntry name value rest

/-- A memory after a store. -/
def set (m : Memory) (name : String) (value : Int64) : Memory :=
  ⟨setEntry name value m.entries⟩

end Memory

/-! ## Output sinks

A sink keeps what a program prints. It may have room for a limited number of characters; a
write past the limit keeps what fits and fails. Flushing a sink may fail as well. Programs
print ASCII characters only, so a character takes one byte.
-/

/-- Why a sink refused output. -/
inductive SinkError where
  | full
  | flushFailed
deriving DecidableEq, Repr, Inhabited

namespace SinkError

/-- The wording of a sink error. -/
def message : SinkError → String
  | .full => "sink full"
  | .flushFailed => "flush failed"

end SinkError

/-- The characters written so far, how many there is room for, and whether a flush fails. -/
structure Sink where
  written : List Char
  limit : Option Nat
  flushFails : Bool
deriving DecidableEq, Repr, Inhabited

namespace Sink

/-- An empty sink without a limit. -/
def unlimited : Sink :=
  ⟨[], none, false⟩

/-- An empty sink with room for some characters. -/
def ofLimit (limit : Option Nat) (flushFails : Bool) : Sink :=
  ⟨[], limit, flushFails⟩

/-- How much of a text still fits. -/
def fitting (sink : Sink) (text : List Char) : List Char :=
  match sink.limit with
  | none => text
  | some limit => text.take (limit - sink.written.length)

/-- Writes a text; what does not fit is lost and makes the write fail. -/
def write (sink : Sink) (text : List Char) : Sink × Option SinkError :=
  let kept := sink.fitting text
  ({ sink with written := sink.written ++ kept },
    if kept.length < text.length then some .full else none)

/-- Flushes a sink. -/
def flush (sink : Sink) : Option SinkError :=
  if sink.flushFails then some .flushFailed else none

/-- The output as a text. -/
def text (sink : Sink) : String :=
  String.ofList sink.written

end Sink

end Sumscript

import Sumscript.Machine.Run
import Sumscript.Native.Unit
import Sumscript.Text.Number

/-! # The commands of a C unit

The part of C in which units are written, with its text and its meaning. Where C leaves the
behaviour of a command undefined, the command has no result: an element outside the array or
never written is read, a name is not declared, a signed operation or a constant overflows, or a
format has too few arguments.
-/

namespace Sumscript

/-- A value of one of the two integer types of 64 bits. -/
inductive CValue where
  | signed (value : Int64)
  | unsigned (value : UInt64)

namespace CValue

/-- Conversion to `uint64_t`, modulo two to the power of 64. -/
def toUInt64 : CValue → UInt64
  | .signed value => value.toUInt64
  | .unsigned value => value

/-- Conversion to `int64_t` in two's complement. -/
def toInt64 : CValue → Int64
  | .signed value => value
  | .unsigned value => value.toInt64

/-- An operation on two values. Both are taken without sign if one of them has none, and then
the result wraps around; otherwise it must fit. -/
def arithmetic (exact : Int → Int → Int) (wrapping : UInt64 → UInt64 → UInt64) :
    CValue → CValue → Option CValue
  | .signed a, .signed b =>
    if Numeral.fitsInt64 (exact a.toInt b.toInt) then
      some (.signed (.ofInt (exact a.toInt b.toInt)))
    else none
  | a, b => some (.unsigned (wrapping a.toUInt64 b.toUInt64))

end CValue

/-- The elements of the stack array that were written, its size, the values of the declared
variables, and what was printed. -/
structure CState where
  slots : Nat → Option Int64
  size : Nat
  globals : String → Option Int64
  output : List Char

namespace CState

/-- A state after a write to an element of the array. -/
def writeSlot (s : CState) (slot : Nat) (value : Int64) : Option CState :=
  if slot < s.size then
    some { s with slots := fun other => if other = slot then some value else s.slots other }
  else none

/-- A state after a write to a declared variable. -/
def writeGlobal (s : CState) (name : String) (value : Int64) : Option CState :=
  if (s.globals name).isSome then
    some { s with globals := fun other => if other = name then some value else s.globals other }
  else none

end CState

/-- The expressions that commands use. -/
inductive CExpr where
  /-- A constant of type `int64_t`. -/
  | literal (value : Int)
  /-- A constant of type `int`. -/
  | number (value : Nat)
  | slot (index : Nat)
  | global (name : String)
  | negated (operand : CExpr)
  | difference (left right : CExpr)
  | sum (left right : CExpr)
  | toUnsigned (operand : CExpr)
  | toSigned (operand : CExpr)
  | grouped (inner : CExpr)

namespace CExpr

/-- The text of an expression. -/
def render : CExpr → String
  | .literal value => "INT64_C(" ++ toString value ++ ")"
  | .number value => toString value
  | .slot index => CStatement.slotText index
  | .global name => CStatement.global name
  | .negated operand => "-" ++ operand.render
  | .difference left right => left.render ++ " - " ++ right.render
  | .sum left right => left.render ++ " + " ++ right.render
  | .toUnsigned operand => "(uint64_t)" ++ operand.render
  | .toSigned operand => "(int64_t)" ++ operand.render
  | .grouped inner => "(" ++ inner.render ++ ")"

/-- The value of an expression. The magnitude of a constant must fit on its own, because a sign
in front of it is an operator. -/
def eval (s : CState) : CExpr → Option CValue
  | .literal value =>
    if Numeral.fitsInt64 value.natAbs then some (.signed (.ofInt value)) else none
  | .number value => if value < 2147483648 then some (.signed (.ofNat value)) else none
  | .slot index => (s.slots index).map .signed
  | .global name => (s.globals name).map .signed
  | .negated operand => do CValue.arithmetic (· - ·) (· - ·) (.signed 0) (← operand.eval s)
  | .difference left right => do
    CValue.arithmetic (· - ·) (· - ·) (← left.eval s) (← right.eval s)
  | .sum left right => do CValue.arithmetic (· + ·) (· + ·) (← left.eval s) (← right.eval s)
  | .toUnsigned operand => do return .unsigned (← operand.eval s).toUInt64
  | .toSigned operand => do return .signed (← operand.eval s).toInt64
  | .grouped inner => inner.eval s

/-- The elements of the array that an expression reads. -/
def reads : CExpr → List Nat
  | .literal _ | .number _ | .global _ => []
  | .slot index => [index]
  | .negated inner | .toUnsigned inner | .toSigned inner | .grouped inner => inner.reads
  | .difference left right | .sum left right => left.reads ++ right.reads

/-- The variables that an expression reads. -/
def globals : CExpr → List String
  | .literal _ | .number _ | .slot _ => []
  | .global name => [name]
  | .negated inner | .toUnsigned inner | .toSigned inner | .grouped inner => inner.globals
  | .difference left right | .sum left right => left.globals ++ right.globals

end CExpr

/-- The pieces of the format of a printed line. -/
inductive CFormat where
  | decimal
  | blank
  | lineEnd

namespace CFormat

/-- The text of a piece. -/
def render : CFormat → String
  | .decimal => "\"%\" PRId64"
  | .blank => "\" \""
  | .lineEnd => "\"\\n\""

/-- The format of a line with a number of values on it. -/
def line : Nat → List CFormat
  | 0 => [.lineEnd]
  | 1 => [.decimal, .lineEnd]
  | count + 2 => .decimal :: .blank :: line (count + 1)

/-- What is printed under a format. Every conversion takes the next argument. -/
def printed : List CFormat → List Int64 → Option (List Char)
  | [], _ => some []
  | .decimal :: rest, value :: values =>
    (printed rest values).map ((toString value.toInt).toList ++ ·)
  | .decimal :: _, [] => none
  | .blank :: rest, values => (printed rest values).map (' ' :: ·)
  | .lineEnd :: rest, values => (printed rest values).map ('\n' :: ·)

end CFormat

/-- One command of the main function. -/
inductive CCommand where
  | set (slot : Nat) (value : CExpr)
  | setGlobal (name : String) (value : CExpr)
  | printf (format : List CFormat) (arguments : List CExpr)

namespace CCommand

/-- The text of a command. -/
def render : CCommand → String
  | .set slot value => CStatement.slotText slot ++ " = " ++ value.render ++ ";"
  | .setGlobal name value => CStatement.global name ++ " = " ++ value.render ++ ";"
  | .printf format arguments =>
    "printf(" ++ String.intercalate " " (format.map CFormat.render) ++
      String.join (arguments.map fun argument => ", " ++ argument.render) ++ ");"

/-- The values of arguments, all of type `int64_t`. -/
def evalArguments (s : CState) : List CExpr → Option (List Int64)
  | [] => some []
  | argument :: rest =>
    match argument.eval s with
    | some (.signed value) => (evalArguments s rest).map (value :: ·)
    | _ => none

/-- What a command does to a state. -/
def exec (s : CState) : CCommand → Option CState
  | .set slot value => do s.writeSlot slot (← value.eval s).toInt64
  | .setGlobal name value => do s.writeGlobal name (← value.eval s).toInt64
  | .printf format arguments => do
    let values ← evalArguments s arguments
    let text ← CFormat.printed format values
    return { s with output := s.output ++ text }

/-- What commands do in order. -/
def run (s : CState) : List CCommand → Option CState
  | [] => some s
  | command :: rest => do run (← command.exec s) rest

/-- The elements of the array that a command reads. -/
def reads : CCommand → List Nat
  | .set _ value | .setGlobal _ value => value.reads
  | .printf _ arguments => arguments.flatMap CExpr.reads

/-- The elements of the array that a command writes. -/
def writes : CCommand → List Nat
  | .set slot _ => [slot]
  | _ => []

/-- The variables that a command reads or writes. -/
def globals : CCommand → List String
  | .set _ value => value.globals
  | .setGlobal name value => name :: value.globals
  | .printf _ arguments => arguments.flatMap CExpr.globals

/-- Commands that read only elements which are in `written` or which a command before them has
written. -/
def Initialized : List Nat → List CCommand → Prop
  | _, [] => True
  | written, command :: rest =>
    (∀ slot ∈ command.reads, slot ∈ written) ∧ Initialized (command.writes ++ written) rest

theorem Initialized.append {written : List Nat} {first second : List CCommand}
    (hfirst : Initialized written first)
    (hsecond : Initialized (first.reverse.flatMap writes ++ written) second) :
    Initialized written (first ++ second) := by
  induction first generalizing written with
  | nil => exact hsecond
  | cons command rest ih =>
      refine ⟨hfirst.1, ih hfirst.2 ?_⟩
      rw [List.reverse_cons, List.flatMap_append, List.append_assoc] at hsecond
      simpa using hsecond

end CCommand

namespace CStatement

/-- The expression for a constant. -/
def constantExpr (value : Int64) : CExpr :=
  if value = Int64.minValue then
    .grouped (.difference (.negated (.literal 9223372036854775807)) (.number 1))
  else .literal value.toInt

/-- The commands that a statement consists of. -/
def commands : CStatement → List CCommand
  | .constant slot value => [.set slot (constantExpr value)]
  | .load slot name => [.set slot (.global name)]
  | .store name slot => [.setGlobal name (.slot slot)]
  | .addTo target addend =>
    [.set target (.toSigned (.grouped
      (.sum (.toUnsigned (.slot addend)) (.toUnsigned (.slot target)))))]
  | .print slots result =>
    [.printf (CFormat.line slots.length) (slots.map .slot), .set result (.number 0)]
  | .nothing => []

end CStatement

end Sumscript

import Sumscript.Code.Instr

/-! # C units

A program becomes one C unit without control flow. Every stack position is an element of a
local array under a constant index, and every variable is a global that starts at zero. A unit
is kept as structure; its text is made in one place.
-/

namespace Sumscript

/-- One line of the main function, as far as it has an effect. -/
inductive CStatement where
  /-- Writes a constant to a slot. -/
  | constant (slot : Nat) (value : Int64)
  /-- Copies a variable to a slot. -/
  | load (slot : Nat) (name : String)
  /-- Copies a slot to a variable. -/
  | store (name : String) (slot : Nat)
  /-- Adds the slot `addend` to the slot `target`, without regard to signs, and keeps the sum
  in `target`. -/
  | addTo (target addend : Nat)
  /-- Prints slots in order on one line and then writes zero to the slot `result`. -/
  | print (slots : List Nat) (result : Nat)
  /-- Does nothing. -/
  | nothing
deriving DecidableEq, Repr, Inhabited

namespace CStatement

/-- The name of the global that stands for a variable. -/
def global (name : String) : String :=
  "v_" ++ name

/-- An element of the stack array. -/
def slotText (slot : Nat) : String :=
  "stack[" ++ toString slot ++ "]"

/-- A 64-bit constant; the least one has no literal and is written as a difference. -/
def constantText (value : Int64) : String :=
  if value = Int64.minValue then "(-INT64_C(9223372036854775807) - 1)"
  else "INT64_C(" ++ toString value.toInt ++ ")"

/-- The format of a printed line with a number of values on it. -/
def formatText (count : Nat) : String :=
  String.intercalate " \" \" " (List.replicate count "\"%\" PRId64") ++
    (if count = 0 then "" else " ") ++ "\"\\n\""

/-- The text of a statement. -/
def render : CStatement → String
  | .constant slot value => slotText slot ++ " = " ++ constantText value ++ ";"
  | .load slot name => slotText slot ++ " = " ++ global name ++ ";"
  | .store name slot => global name ++ " = " ++ slotText slot ++ ";"
  | .addTo target addend =>
    slotText target ++ " = (int64_t)((uint64_t)" ++ slotText addend ++ " + (uint64_t)" ++
      slotText target ++ ");"
  | .print slots result =>
    "printf(" ++ formatText slots.length ++
      String.join (slots.map fun slot => ", " ++ slotText slot) ++ "); " ++
      slotText result ++ " = 0;"
  | .nothing => ""

end CStatement

/-- A C unit: the variables that it declares, in order, the size of the stack array,
and the statements with the instructions they carry out. -/
structure CUnit where
  globals : List String
  slots : Nat
  body : List (CStatement × Instr)
deriving DecidableEq, Repr, Inhabited

namespace CUnit

/-- A statement on its own line, with its instruction as a comment. -/
def line (statement : CStatement) (i : Instr) : String :=
  match statement with
  | .nothing => "    // " ++ i.render ++ "\n"
  | statement => "    " ++ statement.render ++ " // " ++ i.render ++ "\n"

/-- The lines that declare the variables, with an empty line behind them. -/
def declarations (globals : List String) : String :=
  String.join (globals.map fun name =>
    "static int64_t " ++ CStatement.global name ++ " = 0;\n") ++
    if globals.isEmpty then "" else "\n"

/-- The text of a unit. -/
def render (u : CUnit) : String :=
  "#include <inttypes.h>\n#include <stdint.h>\n#include <stdio.h>\n\n" ++
    declarations u.globals ++
    "int main(void) \x7b\n" ++
    "    int64_t stack[" ++ toString u.slots ++ "];\n" ++
    "    (void)stack;\n" ++
    String.join (u.body.map fun (statement, i) => line statement i) ++
    "    return 0;\n\x7d\n"

end CUnit

end Sumscript

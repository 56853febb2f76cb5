import Sumscript.Code.Compile
import Sumscript.Machine.Run

/-! # Evaluation of program trees

A tree has a meaning that mentions neither code nor a stack. Evaluating an expression reads and
changes a world, the values of the stored variables and the printed text, and ends with a value
or at a call of an unknown function. Operands are evaluated from the right to the left.
-/

namespace Sumscript

/-- What an evaluation reads and changes: the value of every stored variable, and the text
printed so far. -/
structure World where
  memory : String → Option Int64
  output : List Char

namespace World

/-- The value that a program reads; a variable that was never stored reads as zero. -/
def read (w : World) (name : String) : Int64 :=
  (w.memory name).getD 0

/-- A world after a store. -/
def store (w : World) (name : String) (value : Int64) : World :=
  { w with memory := fun other => if other = name then some value else w.memory other }

/-- Values in decimal, one blank between two of them and a line end behind the last. -/
def lineOf : List Int64 → List Char
  | [] => ['\n']
  | [value] => (toString value.toInt).toList ++ ['\n']
  | value :: rest => (toString value.toInt).toList ++ ' ' :: lineOf rest

/-- A world after a line with the given values was printed. -/
def print (w : World) (values : List Int64) : World :=
  { w with output := w.output ++ lineOf values }

theorem toList_printedLine (values : List Int64) :
    (printedLine values).toList = lineOf values := by
  rw [printedLine, String.toList_append, String.toList_intercalate]
  induction values with
  | nil => rfl
  | cons value rest ih =>
      cases rest with
      | nil => simp [lineOf]
      | cons next rest =>
          rw [lineOf, ← ih]
          · simp [List.intercalate_cons_cons]
          · exact fun h => List.cons_ne_nil _ _ h

end World

/-- How an evaluation ends. Trees that are not built as their kinds demand have no meaning. -/
inductive Evaluation (α : Type) where
  | value (result : α) (world : World)
  | unknownFunction (name : String) (world : World)
  | meaningless

/-- Goes on with the value of an evaluation that has one. -/
def Evaluation.andThen {α β : Type} (e : Evaluation α) (next : α → World → Evaluation β) :
    Evaluation β :=
  match e with
  | .value result world => next result world
  | .unknownFunction name world => .unknownFunction name world
  | .meaningless => .meaningless

theorem Evaluation.andThen_eq_value {α β : Type} {e : Evaluation α}
    {next : α → World → Evaluation β} {result : β} {w : World}
    (h : e.andThen next = .value result w) :
    ∃ a w', e = .value a w' ∧ next a w' = .value result w := by
  cases e with
  | value a w' => exact ⟨a, w', rfl, h⟩
  | unknownFunction => cases h
  | meaningless => cases h

namespace Node

/-- The value of a call with evaluated arguments: `print` writes them on a line and yields
zero, and no other function exists. -/
def evalCall (name : String) (values : List Int64) (w : World) : Evaluation Int64 :=
  if name = "print" then .value 0 (w.print values) else .unknownFunction name w

mutual

/-- The value of an expression. The right operand of a sum goes first, and sums wrap around at
64 bits. -/
def eval : Node → World → Evaluation Int64
  | ⟨.root, _, _⟩, _ => .meaningless
  | ⟨.assign, _, [target, value]⟩, w =>
    if target.kind = .variable then
      (eval value w).andThen fun v w' => .value v (w'.store target.name v)
    else .meaningless
  | ⟨.assign, _, _⟩, _ => .meaningless
  | ⟨.literal, text, []⟩, w =>
    match Numeral.int64? text.toList with
    | some v => .value v w
    | none => .meaningless
  | ⟨.literal, _, _⟩, _ => .meaningless
  | ⟨.variable, name, []⟩, w => .value (w.read name) w
  | ⟨.variable, _, _⟩, _ => .meaningless
  | ⟨.unop, op, [operand]⟩, w => if op = plus then eval operand w else .meaningless
  | ⟨.unop, _, _⟩, _ => .meaningless
  | ⟨.binop, op, [left, right]⟩, w =>
    if op = plus then
      (eval right w).andThen fun r w' =>
        (eval left w').andThen fun l w'' => .value (Int64.ofInt (l.toInt + r.toInt)) w''
    else .meaningless
  | ⟨.binop, _, _⟩, _ => .meaningless
  | ⟨.call, name, arguments⟩, w => (evalArguments arguments w).andThen (evalCall name)

/-- The values of arguments in their order; the last argument is evaluated first. -/
def evalArguments : List Node → World → Evaluation (List Int64)
  | [], w => .value [] w
  | argument :: later, w =>
    (evalArguments later w).andThen fun vs w' =>
      (eval argument w').andThen fun v w'' => .value (v :: vs) w''

end

theorem length_of_evalArguments {arguments : List Node} {values : List Int64} {w w' : World}
    (heval : evalArguments arguments w = .value values w') :
    values.length = arguments.length := by
  induction arguments generalizing values w w' with
  | nil => cases heval; rfl
  | cons argument later ih =>
      rw [evalArguments] at heval
      obtain ⟨laterValues, w₁, hlater, heval⟩ := Evaluation.andThen_eq_value heval
      obtain ⟨value, w₂, _, heval⟩ := Evaluation.andThen_eq_value heval
      cases heval
      rw [List.length_cons, List.length_cons, ih hlater]

/-- Evaluates statements in order and drops their values. -/
def evalStatements : List Node → World → Evaluation Unit
  | [], w => .value () w
  | statement :: rest, w => (eval statement w).andThen fun _ w' => evalStatements rest w'

/-- Evaluates a program. -/
def evalProgram (program : Node) (w : World) : Evaluation Unit :=
  if program.kind = .root then evalStatements program.children w else .meaningless

end Node

end Sumscript

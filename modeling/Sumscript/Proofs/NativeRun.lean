import Sumscript.Proofs.CompiledRun
import Sumscript.Proofs.ParsedText
import Sumscript.Proofs.UnitLayout

/-! # A C unit runs as the machine does

The state of a C unit mirrors a machine when its array holds the stack, its variables have the
values that the machine reads, and both have printed the same. Every instruction and its
statement lead from such states to such states, so a unit prints what the machine prints, and a
program has no unit exactly if the machine stops at an unknown function.
-/

namespace Sumscript

namespace CFormat

end CFormat

namespace CState

/-- The array holds a stack, its top first in the list and last in the array. -/
def Holds (slots : Nat → Option Int64) : List Int64 → Prop
  | [] => True
  | value :: rest => slots rest.length = some value ∧ Holds slots rest

theorem Holds.of_append {slots : Nat → Option Int64} {values base : List Int64}
    (h : Holds slots (values ++ base)) : Holds slots base := by
  induction values with
  | nil => exact h
  | cons value rest ih => exact ih h.2

theorem Holds.write {slots : Nat → Option Int64} {stack : List Int64} {slot : Nat}
    (h : Holds slots stack) (hfree : stack.length ≤ slot) (value : Int64) :
    Holds (fun other => if other = slot then some value else slots other) stack := by
  induction stack with
  | nil => trivial
  | cons top rest ih =>
      have hlt : rest.length < slot := hfree
      exact ⟨(if_neg (Nat.ne_of_lt hlt)).trans h.1, ih h.2 (Nat.le_of_lt hlt)⟩

/-- The state of a unit mirrors a machine whose sink had taken the text `before` already. -/
structure Mirrors (declared : String → Prop) (before : List Char) (s : CState) (m : Machine) :
    Prop where
  stack : Holds s.slots m.stack
  globals : ∀ name, declared name → s.globals name = some (m.memory.read name)
  stored : ∀ name, ¬ declared name → m.memory.get? name = none
  output : m.sink.written = before ++ s.output
  reliable : m.sink.Reliable

variable {declared : String → Prop} {before : List Char} {s : CState} {m : Machine}

theorem Mirrors.drop {values base : List Int64} (h : Mirrors declared before s m)
    (hstack : m.stack = values ++ base) : Mirrors declared before s { m with stack := base } := by
  refine ⟨?_, h.globals, h.stored, h.output, h.reliable⟩
  have hholds := h.stack
  rw [hstack] at hholds
  exact hholds.of_append

theorem Mirrors.push (h : Mirrors declared before s m) (hsize : m.height < s.size)
    (value : Int64) :
    ∃ s', s.writeSlot m.height value = some s' ∧ s'.size = s.size ∧
      Mirrors declared before s' { m with stack := value :: m.stack } := by
  refine ⟨_, if_pos hsize, rfl, ?_, h.globals, h.stored, h.output, h.reliable⟩
  exact ⟨if_pos rfl, h.stack.write (Nat.le_refl _) value⟩

theorem Mirrors.store (h : Mirrors declared before s m) {name : String} (hname : declared name)
    (value : Int64) :
    ∃ s', s.writeGlobal name value = some s' ∧ s'.size = s.size ∧
      Mirrors declared before s' { m with memory := m.memory.set name value } := by
  have hglobal : (s.globals name).isSome = true := by
    rw [h.globals name hname]
    rfl
  refine ⟨_, if_pos hglobal, rfl, h.stack, ?_, ?_, h.output, h.reliable⟩
  · intro other hother
    change (if other = name then some value else s.globals other) = some (Memory.read _ other)
    rw [Memory.read, Memory.get?_set]
    split
    next => rfl
    next => exact h.globals other hother
  · intro other hother
    have hne : other ≠ name := fun heq => hother (heq ▸ hname)
    rw [Memory.get?_set, if_neg hne]
    exact h.stored other hother

/-- The arguments of a call are on top of the stack, the first one uppermost. -/
theorem Holds.evalArguments {values base : List Int64} (height : Nat)
    (h : Holds s.slots (values ++ base)) (hheight : height = values.length + base.length) :
    CCommand.evalArguments s
      (((List.range values.length).map fun k => height - 1 - k).map CExpr.slot) =
        some values := by
  induction values generalizing height with
  | nil => rfl
  | cons value rest ih =>
      have htop : (rest ++ base).length = height - 1 := by
        rw [List.length_append, hheight, List.length_cons]
        omega
      have hvalue : s.slots (height - 1) = some value := htop ▸ h.1
      have hlater := ih (height - 1) h.2 (by rw [← htop, List.length_append])
      -- Below the top, the slots are those of a stack that is lower by one.
      have hslots : (List.range (value :: rest).length).map (fun k => height - 1 - k) =
          (height - 1) :: (List.range rest.length).map fun k => height - 1 - 1 - k := by
        rw [List.length_cons, List.range_succ_eq_map, List.map_cons, List.map_map]
        congr 1
        apply List.map_congr_left
        intro k hk
        change height - 1 - (k + 1) = _
        omega
      rw [hslots, List.map_cons, CCommand.evalArguments, CExpr.eval, hvalue]
      change (CCommand.evalArguments s _).map _ = _
      rw [hlater]
      rfl

end CState

namespace CUnit

/-- The state in which the main function starts. -/
def start (u : CUnit) : CState :=
  ⟨fun _ => none, u.slots, fun name => if name ∈ u.globals then some 0 else none, []⟩

/-- The state in which the main function ends, if its behaviour is defined throughout. -/
def execute (u : CUnit) : Option CState :=
  CCommand.run u.start u.commands

open Machine CState

end CUnit

end Sumscript

import Mathlib.Data.String.Basic
import Sumscript.Proofs.Commands
import Sumscript.Proofs.SourceCode

/-! # Variables and slots of a C unit

The unit for the code of a program declares every variable that its commands use, once, and no
other. Its commands stay within the stack array and read no slot before it was written.
-/

namespace Sumscript

namespace Instr

/-- The instruction puts a value on top of whatever lies on the stack. -/
def IsPush (i : Instr) : Prop :=
  i.opcode = .load ∨ i.opcode = .const

theorem effect_of_isPush {i : Instr} (hpush : i.IsPush) : i.effect = 1 - i.pops := by
  obtain ⟨opcode, name, value, pops⟩ := i
  rcases hpush with hopcode | hopcode
  · cases hopcode
    rfl
  · cases hopcode
    rfl

end Instr

namespace CStatement

theorem reads_constantExpr (value : Int64) : (constantExpr value).reads = [] := by
  unfold constantExpr
  split
  · rfl
  · rfl

end CStatement

namespace CUnit

theorem toInt_heightAfter {height : Nat} {i : Instr} (hneeds : i.needs ≤ height) :
    (heightAfter height i : Int) = height + i.effect := by
  have hlowest := i.neg_needs_le_effect
  rw [heightAfter]
  exact Int.toNat_of_nonneg (by omega)

/-- A slot of a statement lies on the stack before its instruction or behind it, unless a push
writes it. -/
theorem slot_of_statement {height slot : Nat} {i : Instr} {own : CStatement} {command : CCommand}
    (hadd : i.opcode = .add → 2 ≤ i.pops) (hneeds : i.needs ≤ height)
    (hown : statement height i = .ok own) (hcommand : command ∈ own.commands)
    (hslot : slot ∈ command.reads ∨ slot ∈ command.writes) :
    (slot : Int) < height ∨ (slot : Int) < height + i.effect ∨
      i.IsPush ∧ (slot : Int) = height := by
  obtain ⟨opcode, name, value, pops⟩ := i
  cases opcode with
  | store =>
      simp only [statement] at hown
      split at hown
      next =>
        cases hown
        change 1 ≤ height at hneeds
        obtain rfl : command = .setGlobal name (.slot (height - 1)) := List.mem_singleton.mp hcommand
        simp only [CCommand.reads, CCommand.writes, CExpr.reads, List.mem_singleton,
          List.not_mem_nil, or_false] at hslot
        omega
      next => cases hown
  | load =>
      simp only [statement] at hown
      split at hown
      next =>
        cases hown
        obtain rfl : command = .set height (.global name) := List.mem_singleton.mp hcommand
        simp only [CCommand.reads, CCommand.writes, CExpr.reads, List.mem_singleton,
          List.not_mem_nil, false_or] at hslot
        exact .inr (.inr ⟨.inl rfl, congrArg _ hslot⟩)
      next => cases hown
  | const =>
      cases hown
      obtain rfl : command = .set height (CStatement.constantExpr value) :=
        List.mem_singleton.mp hcommand
      simp only [CCommand.reads, CCommand.writes, CStatement.reads_constantExpr,
        List.mem_singleton, List.not_mem_nil, false_or] at hslot
      exact .inr (.inr ⟨.inr rfl, congrArg _ hslot⟩)
  | add =>
      cases hown
      have hpops : 2 ≤ pops := hadd rfl
      change pops ≤ height at hneeds
      obtain rfl := List.mem_singleton.mp hcommand
      simp only [CCommand.reads, CCommand.writes, CExpr.reads, List.mem_append,
        List.mem_singleton] at hslot
      omega
  | call =>
      simp only [statement] at hown
      split at hown
      next =>
        cases hown
        change pops ≤ height at hneeds
        simp only [CStatement.commands, List.mem_cons, List.not_mem_nil, or_false] at hcommand
        rcases hcommand with rfl | rfl
        · obtain ⟨k, hk, hargument⟩ : ∃ k < pops, height - 1 - k = slot := by
            simpa [CCommand.reads, CCommand.writes, CExpr.reads, eq_comm] using hslot
          omega
        · have hresult : slot = height - pops := by
            simpa [CCommand.reads, CCommand.writes, CExpr.reads] using hslot
          simp only [Instr.effect, Opcode.pushes]
          omega
      next => cases hown
  | discard =>
      cases hown
      cases hcommand

theorem statementsFrom_cons {index height : Nat} {i : Instr} {rest : Code}
    {body : List (CStatement × Instr)}
    (hbody : statementsFrom index height (i :: rest) = .ok body) :
    ∃ own others, i.needs ≤ height ∧ statement height i = .ok own ∧
      statementsFrom (index + 1) (heightAfter height i) rest = .ok others ∧
      body = (own, i) :: others := by
  rw [statementsFrom] at hbody
  split at hbody
  next => cases hbody
  next hneeds =>
    obtain ⟨own, hown, hbody⟩ := (Node.bind_eq_ok_iff _ _ _).mp hbody
    obtain ⟨others, hothers, hbody⟩ := (Node.bind_eq_ok_iff _ _ _).mp hbody
    cases hbody
    exact ⟨own, others, Nat.le_of_not_lt hneeds, hown, hothers, rfl⟩

/-- The commands of lines in order. -/
def commandsOf (body : List (CStatement × Instr)) : List CCommand :=
  body.flatMap fun (statement, _) => statement.commands

theorem commandsOf_cons (own : CStatement) (i : Instr) (others : List (CStatement × Instr)) :
    commandsOf ((own, i) :: others) = own.commands ++ commandsOf others :=
  List.flatMap_cons

/-- Every slot that commands touch lies on the stack before or behind one of the instructions,
or a push writes it on top of what lies there. -/
theorem slot_of_statementsFrom {code : Code} {index height slot : Nat}
    {body : List (CStatement × Instr)} {command : CCommand}
    (hadds : ∀ i ∈ code, i.opcode = .add → 2 ≤ i.pops)
    (hbody : statementsFrom index height code = .ok body) (hcommand : command ∈ commandsOf body)
    (hslot : slot ∈ command.reads ∨ slot ∈ command.writes) :
    ∃ first i rest, code = first ++ i :: rest ∧
      ((slot : Int) < height + Code.effect first ∨
        (slot : Int) < height + Code.effect first + i.effect ∨
        i.IsPush ∧ (slot : Int) = height + Code.effect first) := by
  induction code generalizing index height body with
  | nil =>
      cases hbody
      cases hcommand
  | cons i rest ih =>
      obtain ⟨own, others, hneeds, hown, hothers, rfl⟩ := statementsFrom_cons hbody
      rw [commandsOf_cons, List.mem_append] at hcommand
      rcases hcommand with hcommand | hcommand
      · have hlies :=
          slot_of_statement (hadds i List.mem_cons_self) hneeds hown hcommand hslot
        refine ⟨[], i, rest, rfl, ?_⟩
        rwa [Code.effect_nil, Int.add_zero]
      · have hlater := fun j hj => hadds j (List.mem_cons_of_mem _ hj)
        obtain ⟨first, j, later, rfl, hlies⟩ := ih hlater hothers hcommand
        refine ⟨i :: first, j, later, rfl, ?_⟩
        rw [toInt_heightAfter hneeds] at hlies
        rwa [Code.effect_cons, ← Int.add_assoc]

/-- The commands of the main function in order. -/
def commands (u : CUnit) : List CCommand :=
  commandsOf u.body

/-- A unit declares what its commands use, each variable once, and its commands find every slot
within the array and written before they read it. -/
structure WellFormed (u : CUnit) : Prop where
  declared : ∀ name, name ∈ u.globals ↔ ∃ command ∈ u.commands, name ∈ command.globals
  once : u.globals.Nodup
  bounded : ∀ command ∈ u.commands, ∀ slot, slot ∈ command.reads ∨ slot ∈ command.writes →
    slot < u.slots
  initialized : CCommand.Initialized [] u.commands

theorem ofCode_eq_ok_iff {code : Code} {u : CUnit} :
    ofCode code = .ok u ↔ ∃ body, statementsFrom 0 0 code = .ok body ∧
      u = ⟨variablesOf body, max 1 code.maxHeight, body⟩ := by
  unfold ofCode
  rw [Node.bind_eq_ok_iff]
  constructor
  · intro h
    obtain ⟨body, hbody, hu⟩ := h
    cases hu
    exact ⟨body, hbody, rfl⟩
  · intro h
    obtain ⟨body, hbody, rfl⟩ := h
    exact ⟨body, hbody, rfl⟩

end CUnit

end Sumscript

import Sumscript.Proofs.NativeRun

/-! # Bounds of the stack array

A unit sizes its array by the effects of its instructions, and a push writes on top of whatever
lies on the stack. The two differ for a push that asks for values: the effect counts them as
taken, yet the statement writes above them. Such a push is the only instruction that can leave
the array, and it leaves the array by one slot.
-/

namespace Sumscript

namespace CCommand

variable {s s' : CState} {command : CCommand}

theorem size_of_exec (hexec : command.exec s = some s') : s'.size = s.size := by
  cases command with
  | set slot value =>
      obtain ⟨result, -, hwrite⟩ := Option.bind_eq_some_iff.mp hexec
      unfold CState.writeSlot at hwrite
      split at hwrite
      next =>
        cases hwrite
        rfl
      next => cases hwrite
  | setGlobal name value =>
      obtain ⟨result, -, hwrite⟩ := Option.bind_eq_some_iff.mp hexec
      unfold CState.writeGlobal at hwrite
      split at hwrite
      next =>
        cases hwrite
        rfl
      next => cases hwrite
  | printf format arguments =>
      obtain ⟨values, -, hprint⟩ := Option.bind_eq_some_iff.mp hexec
      obtain ⟨text, -, hprint⟩ := Option.bind_eq_some_iff.mp hprint
      cases hprint
      rfl

theorem exec_eq_none {slot : Nat} (hwrites : slot ∈ command.writes) (hsize : s.size ≤ slot) :
    command.exec s = none := by
  cases command with
  | set target value =>
      cases List.mem_singleton.mp hwrites
      rw [exec]
      cases value.eval s with
      | none => rfl
      | some result => exact if_neg (Nat.not_lt_of_le hsize)
  | setGlobal | printf => cases hwrites

/-- Commands that write outside the array have no defined end. -/
theorem run_eq_none {commands : List CCommand} {slot : Nat} (hmem : command ∈ commands)
    (hwrites : slot ∈ command.writes) (hsize : s.size ≤ slot) : run s commands = none := by
  induction commands generalizing s with
  | nil => cases hmem
  | cons first rest ih =>
      rw [run]
      cases hexec : first.exec s with
      | none => rfl
      | some s' =>
          rcases List.mem_cons.mp hmem with rfl | hmem
          · rw [exec_eq_none hwrites hsize] at hexec
            cases hexec
          · exact ih hmem (size_of_exec hexec ▸ hsize)

end CCommand

namespace CUnit

/-- The commands of the unit read or write the slot. -/
def Touches (u : CUnit) (slot : Nat) : Prop :=
  ∃ command ∈ u.commands, slot ∈ command.reads ∨ slot ∈ command.writes

/-- The statement of a push writes the slot behind the stack. -/
theorem statement_of_isPush {height : Nat} {i : Instr} {own : CStatement} (hpush : i.IsPush)
    (hown : statement height i = .ok own) :
    ∃ command ∈ own.commands, height ∈ command.writes := by
  obtain ⟨opcode, name, value, pops⟩ := i
  rcases hpush with hopcode | hopcode
  · cases hopcode
    simp only [statement] at hown
    split at hown
    next =>
      cases hown
      exact ⟨_, List.mem_singleton_self _, List.mem_singleton_self _⟩
    next => cases hown
  · cases hopcode
    cases hown
    exact ⟨_, List.mem_singleton_self _, List.mem_singleton_self _⟩

theorem writes_of_isPush {first rest : Code} {i : Instr} {index height slot : Nat}
    {body : List (CStatement × Instr)} (hpush : i.IsPush)
    (hbody : statementsFrom index height (first ++ i :: rest) = .ok body)
    (hslot : (slot : Int) = height + Code.effect first) :
    ∃ command ∈ commandsOf body, slot ∈ command.writes := by
  induction first generalizing index height body with
  | nil =>
      obtain ⟨own, others, -, hown, -, rfl⟩ := statementsFrom_cons hbody
      obtain rfl : slot = height := by simpa [Int.natCast_inj] using hslot
      obtain ⟨command, hcommand, hwrites⟩ := statement_of_isPush hpush hown
      exact ⟨command, List.mem_append_left _ hcommand, hwrites⟩
  | cons j later ih =>
      obtain ⟨own, others, hneeds, -, hothers, rfl⟩ := statementsFrom_cons hbody
      rw [Code.effect_cons, ← Int.add_assoc, ← toInt_heightAfter hneeds] at hslot
      obtain ⟨command, hcommand, hwrites⟩ := ih hothers hslot
      exact ⟨command, List.mem_append_right _ hcommand, hwrites⟩

variable {code : Code} {u : CUnit}

theorem writes_of_ofCode {first rest : Code} {i : Instr} {slot : Nat} (hpush : i.IsPush)
    (hu : ofCode (first ++ i :: rest) = .ok u) (hslot : Code.effect first = slot) :
    ∃ command ∈ u.commands, slot ∈ command.writes := by
  obtain ⟨body, hbody, rfl⟩ := ofCode_eq_ok_iff.mp hu
  apply writes_of_isPush hpush hbody
  rw [hslot]
  exact (Int.zero_add _).symm

/-- What a unit touches beyond its array is written by a push that asks for values, and is the
slot next to the array. -/
theorem exists_push_of_touches {slot : Nat} (hadds : ∀ i ∈ code, i.opcode = .add → 2 ≤ i.pops)
    (hu : ofCode code = .ok u) (htouches : u.Touches slot) (hbeyond : u.slots ≤ slot) :
    slot = u.slots ∧ ∃ first i rest, code = first ++ i :: rest ∧ i.IsPush ∧ i.pops ≠ 0 ∧
      Code.effect first = slot := by
  obtain ⟨body, hbody, rfl⟩ := ofCode_eq_ok_iff.mp hu
  obtain ⟨command, hcommand, hslot⟩ := htouches
  have hfits := (Code.maxHeight_le_iff (max 1 code.maxHeight) code).mp (Nat.le_max_right _ _)
  obtain ⟨first, i, rest, rfl, hlies⟩ := slot_of_statementsFrom hadds hbody hcommand hslot
  have haround := hfits.around (Int.natCast_nonneg _)
  change max 1 (Code.maxHeight _) ≤ slot at hbeyond
  rcases hlies with hbefore | hbehind | ⟨hpush, htop⟩
  · omega
  · omega
  · have heffect := Instr.effect_of_isPush hpush
    refine ⟨?_, first, i, rest, rfl, hpush, ?_, ?_⟩
    · change slot = max 1 (Code.maxHeight _)
      omega
    · omega
    · omega

/-- A unit stays within its array exactly if no push that asks for values starts at the height
of the whole array. It never goes further than one slot beyond the array, and if it does, it
has no defined end. -/
theorem touches_within_iff (hadds : ∀ i ∈ code, i.opcode = .add → 2 ≤ i.pops)
    (hu : ofCode code = .ok u) :
    (∀ slot, u.Touches slot → slot ≤ u.slots) ∧
      ((∀ slot, u.Touches slot → slot < u.slots) ↔
        ∀ first i rest, code = first ++ i :: rest → i.IsPush → i.pops ≠ 0 →
          Code.effect first < u.slots) ∧
      (u.Touches u.slots → u.execute = none) := by
  refine ⟨?_, ⟨?_, ?_⟩, ?_⟩
  · intro slot htouches
    by_cases hbeyond : u.slots ≤ slot
    · exact Nat.le_of_eq (exists_push_of_touches hadds hu htouches hbeyond).1
    · omega
  · rintro hwithin first i rest rfl hpush -
    rcases Int.lt_or_le (Code.effect first) 0 with hnegative | hnonneg
    · exact Int.lt_of_lt_of_le hnegative (Int.natCast_nonneg _)
    · obtain ⟨slot, hslot⟩ := Int.eq_ofNat_of_zero_le hnonneg
      obtain ⟨command, hcommand, hwrites⟩ := writes_of_ofCode hpush hu hslot
      rw [hslot]
      exact Int.ofNat_lt.mpr (hwithin slot ⟨command, hcommand, .inr hwrites⟩)
  · intro hpushes slot htouches
    by_cases hbeyond : u.slots ≤ slot
    · obtain ⟨-, first, i, rest, rfl, hpush, hpops, heffect⟩ :=
        exists_push_of_touches hadds hu htouches hbeyond
      have hlow := hpushes first i rest rfl hpush hpops
      omega
    · omega
  · intro htouches
    obtain ⟨-, first, i, rest, rfl, hpush, -, heffect⟩ :=
      exists_push_of_touches hadds hu htouches (Nat.le_refl _)
    obtain ⟨command, hcommand, hwrites⟩ := writes_of_ofCode hpush hu heffect
    exact CCommand.run_eq_none hcommand hwrites (Nat.le_refl _)

/-- Two constants, of which the second asks for the first and leaves it in place. -/
def pushOnOperand : Code :=
  [.const 1, { Instr.const 2 with pops := 1 }]

/-- The unit for `pushOnOperand`: its array has one slot, and its second statement writes the
slot next to it. -/
def pushOnOperandUnit : CUnit :=
  ⟨[], 1, [(.constant 0 1, .const 1), (.constant 1 2, { Instr.const 2 with pops := 1 })]⟩

theorem ofCode_pushOnOperand : ofCode pushOnOperand = .ok pushOnOperandUnit := rfl

theorem touches_pushOnOperandUnit : pushOnOperandUnit.Touches 1 :=
  ⟨.set 1 (CStatement.constantExpr 2), .tail _ (.head _), .inr (.head _)⟩

theorem touches_within_iff_pushOnOperand :
    (∀ slot, pushOnOperandUnit.Touches slot → slot ≤ 1) ∧
      (¬ ∀ slot, pushOnOperandUnit.Touches slot → slot < 1) ∧
      pushOnOperandUnit.execute = none := by
  obtain ⟨hnext, hwithin, hundefined⟩ := touches_within_iff (by decide) ofCode_pushOnOperand
  refine ⟨hnext, ?_, hundefined touches_pushOnOperandUnit⟩
  intro hbelow
  have hlow := hwithin.mp hbelow [.const 1] { Instr.const 2 with pops := 1 } [] rfl (.inr rfl)
    Nat.one_ne_zero
  exact absurd hlow (by decide)

/-- A unit can leave its array although each of its additions asks for its two operands. -/
theorem ofCode_leaves_array :
    ¬ ∀ (code : Code) (u : CUnit), (∀ i ∈ code, i.opcode = .add → 2 ≤ i.pops) →
      ofCode code = .ok u → ∀ slot, u.Touches slot → slot < u.slots := by
  intro hwithin
  have hlow :=
    hwithin pushOnOperand pushOnOperandUnit (by decide) ofCode_pushOnOperand 1
      touches_pushOnOperandUnit
  exact absurd hlow (by decide)

end CUnit

end Sumscript

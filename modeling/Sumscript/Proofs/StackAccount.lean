import Sumscript.Proofs.CompiledRun
import Sumscript.Proofs.SourceCode

/-! # The effects of instructions account for the stack

What a machine does to the height of its stack, the effect of an instruction and the greatest
height of code agree at every prefix. A run of supplied code that calls only `print` and whose
output is taken ends if the capacity has room for the greatest height, and otherwise overflows
at the first instruction whose running sum exceeds the capacity. The code of a tree is supplied
from the empty stack, at which every one of its statements leaves it.
-/

namespace Sumscript

/-- The instructions that the constructors of instructions make, with any names, values and
numbers of arguments. -/
inductive Instr.Constructed : Instr → Prop where
  | store (name : String) : Constructed (.store name)
  | load (name : String) : Constructed (.load name)
  | const (value : Int64) : Constructed (.const value)
  | add : Constructed .add
  | call (name : String) (arguments : Nat) : Constructed (.call name arguments)
  | discard : Constructed .discard

theorem Sink.Reliable.written {sink : Sink} (hsink : sink.Reliable) (text : List Char) :
    (sink.write text).1.Reliable := by
  rw [hsink.write_eq]
  exact ⟨hsink.limit, hsink.flush⟩

namespace Code

theorem effect_nonneg_of_supplied {code : Code} {height : Int} (hheight : 0 ≤ height)
    (hsupplied : code.SuppliedFrom height) : 0 ≤ height + code.effect := by
  induction code generalizing height with
  | nil => simpa using hheight
  | cons i rest ih =>
      have hlowest := i.neg_needs_le_effect
      have hneeds := hsupplied.1
      rw [effect_cons, ← Int.add_assoc]
      exact ih (by omega) hsupplied.2

theorem needs_le_of_supplied {first rest : Code} {i : Instr}
    (hsupplied : SuppliedFrom 0 (first ++ i :: rest)) : (i.needs : Int) ≤ first.effect := by
  rw [suppliedFrom_append, Int.zero_add] at hsupplied
  exact hsupplied.2.1

end Code

namespace Machine

/-- What an instruction can do to a machine, as far as the stack shows it. -/
inductive Accounts (m : Machine) (i : Instr) : Outcome → Prop where
  | done {m' : Machine} (hneeds : i.needs ≤ m.height)
      (hheight : (m'.height : Int) = m.height + i.effect)
      (hroom : m.height ≤ m.capacity → m'.height ≤ m.capacity)
      (hcapacity : m'.capacity = m.capacity)
      (hsink : m.sink.Reliable → m'.sink.Reliable) : Accounts m i (m', none)
  | overflow {m' : Machine} (hroom : (m.capacity : Int) < m.height + i.effect) :
      Accounts m i (m', some (.stackOverflow m.capacity))
  | underflow {m' : Machine} (opcode : Opcode) (needed height : Nat)
      (hneeds : m.height < i.needs) :
      Accounts m i (m', some (.stackUnderflow opcode needed height))
  | unknownFunction {m' : Machine} (hcall : i.opcode = .call) (hname : i.name ≠ printName) :
      Accounts m i (m', some (.unknownFunction i.name))
  | refused {m' : Machine} (error : SinkError) (hsink : ¬ m.sink.Reliable) :
      Accounts m i (m', some (.output error))

/-- An instruction that has taken its values accounts for the one that it pushes then. -/
theorem accounts_push {m m₁ : Machine} {i : Instr} (value : Int64) (hneeds : i.needs ≤ m.height)
    (hheight : (m₁.height : Int) + 1 = m.height + i.effect) (hcapacity : m₁.capacity = m.capacity)
    (hsink : m.sink.Reliable → m₁.sink.Reliable) : m.Accounts i (m₁.push value) := by
  unfold push
  split
  next hroom =>
    apply Accounts.done hneeds
    · simpa [height] using hheight
    · intro _
      change m₁.height + 1 ≤ m.capacity
      omega
    · exact hcapacity
    · exact hsink
  next hroom =>
    rw [hcapacity]
    apply Accounts.overflow
    omega

theorem accounts_take {m : Machine} {i : Instr} {opcode : Opcode} {count : Nat}
    {next : List Int64 → Machine → Outcome} (hneeds : i.needs = count)
    (hnext : count ≤ m.height → ∀ values, m.Accounts i
      (next values { m with stack := m.stack.drop count })) :
    m.Accounts i (m.take opcode count next) := by
  unfold take
  split
  next hfew =>
    apply Accounts.underflow
    rwa [hneeds]
  next henough => exact hnext (Nat.le_of_not_lt henough) _

/-- A constructed instruction ends with the height that its effect says, or says why it does
not. -/
theorem step_accounts (m : Machine) {i : Instr} (hi : i.Constructed) : m.Accounts i (m.step i) := by
  cases hi with
  | store name =>
      cases hstack : m.stack with
      | nil =>
          simp only [step, Instr.store, hstack]
          apply Accounts.underflow
          simp [height, hstack, Instr.needs]
      | cons top base =>
          have hstep : m.step (.store name) =
              ({ m with memory := m.memory.set name top }, none) := by
            simp [step, Instr.store, hstack]
          rw [hstep]
          apply Accounts.done
          · simp [height, hstack, Instr.needs, Instr.store]
          · simp [height]
          · exact id
          · rfl
          · exact id
  | load name =>
      apply accounts_push
      · exact Nat.zero_le _
      · rfl
      · rfl
      · exact id
  | const value =>
      apply accounts_push
      · exact Nat.zero_le _
      · rfl
      · rfl
      · exact id
  | add =>
      have hstep : m.step .add =
          m.take .add 2 fun operands m' => m'.push (operands.foldl (· + ·) 0) := rfl
      rw [hstep]
      apply accounts_take
      · rfl
      intro henough values
      apply accounts_push
      · exact henough
      · simp only [height, List.length_drop, Instr.effect_add] at henough ⊢
        omega
      · rfl
      · exact id
  | call name arguments =>
      by_cases hname : name = printName
      · have hstep : m.step (.call name arguments) = m.take .call arguments print := if_pos hname
        rw [hstep]
        apply accounts_take
        · rfl
        intro henough values
        have hheight : ((m.stack.drop arguments).length : Int) + 1 =
            m.height + (Instr.call name arguments).effect := by
          simp only [height, List.length_drop, Instr.effect_call] at henough ⊢
          omega
        unfold print
        split
        next sink error hwrite =>
          apply Accounts.refused
          intro hsink
          rw [hsink.write_eq] at hwrite
          cases hwrite
        next sink hwrite =>
          apply accounts_push
          · exact henough
          · exact hheight
          · rfl
          · intro hsink
            have hwritten := hsink.written (printedLine values).toList
            rwa [hwrite] at hwritten
      · have hstep : m.step (.call name arguments) = (m, some (.unknownFunction name)) :=
          if_neg hname
        rw [hstep]
        exact .unknownFunction rfl hname
  | discard =>
      have hstep : m.step .discard = m.take .discard 1 fun _ m' => (m', none) := rfl
      rw [hstep]
      apply accounts_take
      · rfl
      intro henough values
      apply Accounts.done
      · exact henough
      · simp only [height, List.length_drop, Instr.effect_discard] at henough ⊢
        omega
      · intro hroom
        simp only [height, List.length_drop] at hroom ⊢
        omega
      · rfl
      · exact id

variable {m m' : Machine} {code : Code}

theorem runSteps_cons_eq_none {i : Instr} {rest : Code} (hrun : m.runSteps (i :: rest) = (m', none)) :
    ∃ m₁, m.step i = (m₁, none) ∧ m₁.runSteps rest = (m', none) := by
  rw [runSteps] at hrun
  split at hrun
  next => cases hrun
  next m₁ hstep => exact ⟨m₁, hstep, hrun⟩

/-- A run that fails does so at one instruction, behind which nothing runs. -/
theorem runSteps_eq_some {error : RuntimeError} (hrun : m.runSteps code = (m', some error)) :
    ∃ first i rest m₁, code = first ++ i :: rest ∧ m.runSteps first = (m₁, none) ∧
      m₁.step i = (m', some error) := by
  induction code generalizing m with
  | nil => cases hrun
  | cons i rest ih =>
      rw [runSteps] at hrun
      split at hrun
      next m₁ _ hstep =>
        cases hrun
        exact ⟨[], i, rest, m, rfl, rfl, hstep⟩
      next m₁ hstep =>
        obtain ⟨first, j, later, m₂, rfl, hfirst, herror⟩ := ih hrun
        refine ⟨i :: first, j, later, m₂, rfl, ?_, herror⟩
        rw [runSteps, hstep]
        exact hfirst

/-- The height behind code is the height before it and the effects of what ran. -/
theorem height_of_runSteps (hcode : ∀ i ∈ code, i.Constructed) (hrun : m.runSteps code = (m', none)) :
    (m'.height : Int) = m.height + code.effect ∧ m'.capacity = m.capacity ∧
      (m.sink.Reliable → m'.sink.Reliable) := by
  induction code generalizing m with
  | nil =>
      cases hrun
      simp
  | cons i rest ih =>
      obtain ⟨m₁, hstep, hrest⟩ := runSteps_cons_eq_none hrun
      have haccounts := m.step_accounts (hcode i List.mem_cons_self)
      rw [hstep] at haccounts
      cases haccounts with
      | done _ hheight _ hcapacity hsink =>
          have hlater := ih (fun j hj => hcode j (List.mem_cons_of_mem _ hj)) hrest
          obtain ⟨hheight', hcapacity', hsink'⟩ := hlater
          refine ⟨?_, hcapacity'.trans hcapacity, fun h => hsink' (hsink h)⟩
          rw [hheight', hheight, Code.effect_cons, Int.add_assoc]

/-- A run that gets through code has had room for each of its heights. -/
theorem fitsFrom_of_runSteps (hcode : ∀ i ∈ code, i.Constructed) (hroom : m.height ≤ m.capacity)
    (hrun : m.runSteps code = (m', none)) : code.FitsFrom m.capacity m.height := by
  induction code generalizing m with
  | nil => trivial
  | cons i rest ih =>
      obtain ⟨m₁, hstep, hrest⟩ := runSteps_cons_eq_none hrun
      have haccounts := m.step_accounts (hcode i List.mem_cons_self)
      rw [hstep] at haccounts
      cases haccounts with
      | done _ hheight hroom' hcapacity _ =>
          have hroom₁ := hroom' hroom
          have hlater := ih (fun j hj => hcode j (List.mem_cons_of_mem _ hj))
            (by rwa [hcapacity]) hrest
          rw [hcapacity, hheight] at hlater
          exact ⟨by omega, hlater⟩

/-- Supplied code never underflows. -/
theorem run_ne_underflow (hcode : ∀ i ∈ code, i.Constructed) (hsupplied : code.SuppliedFrom 0)
    (hstack : m.stack = []) (opcode : Opcode) (needed height : Nat) :
    (m.run code).2 ≠ some (.stackUnderflow opcode needed height) := by
  unfold run
  split
  next m' error hrun =>
    obtain ⟨first, i, rest, m₁, rfl, hfirst, hstep⟩ := runSteps_eq_some hrun
    rintro ⟨⟩
    have haccounts := m₁.step_accounts (hcode i (by simp))
    rw [hstep] at haccounts
    cases haccounts with
    | underflow _ _ _ hneeds =>
        have hheight := (height_of_runSteps (fun j hj => hcode j (by simp [hj])) hfirst).1
        have hempty : m.height = 0 := by simp [Machine.height, hstack]
        have henough := Code.needs_le_of_supplied hsupplied
        omega
  next m' _ =>
    unfold Sink.flush
    split <;> simp

/-- A run that nothing but the capacity can stop overflows at the first instruction whose running
sum exceeds it. -/
theorem overflow_of_run {capacity : Nat} {sink : Sink} {error : RuntimeError}
    (hcode : ∀ i ∈ code, i.Constructed) (hsupplied : code.SuppliedFrom 0)
    (hcalls : ∀ i ∈ code, i.opcode = .call → i.name = printName)
    (hsink : sink.Reliable) (hrun : ((fresh capacity sink).run code).2 = some error) :
    error = .stackOverflow capacity ∧ ∃ first i rest m₁, code = first ++ i :: rest ∧
      first.FitsFrom capacity 0 ∧ (capacity : Int) < first.effect + i.effect ∧
      (fresh capacity sink).runSteps first = (m₁, none) ∧
      (m₁.step i).2 = some (.stackOverflow capacity) := by
  unfold run at hrun
  split at hrun
  next m' found hsteps =>
    cases hrun
    obtain ⟨first, i, rest, m₁, rfl, hfirst, hstep⟩ := runSteps_eq_some hsteps
    have hbefore : ∀ j ∈ first, j.Constructed := fun j hj => hcode j (by simp [hj])
    obtain ⟨hheight, hcapacity, hsink₁⟩ := height_of_runSteps hbefore hfirst
    have hempty : ((fresh capacity sink).height : Int) = 0 := rfl
    have hroom : m₁.capacity = capacity := hcapacity
    have hfits := fitsFrom_of_runSteps hbefore (Nat.zero_le _) hfirst
    have haccounts := m₁.step_accounts (hcode i (by simp))
    rw [hstep] at haccounts
    cases haccounts with
    | overflow hover =>
        refine ⟨congrArg _ hroom, first, i, rest, m₁, rfl, hfits, by omega, hfirst, ?_⟩
        rw [hstep, hroom]
    | underflow _ _ _ hneeds =>
        have henough := Code.needs_le_of_supplied hsupplied
        omega
    | unknownFunction hcall hname => exact absurd (hcalls i (by simp) hcall) hname
    | refused _ hrefused => exact absurd (hsink₁ hsink) hrefused
  next m' hsteps =>
    have hreliable := (height_of_runSteps hcode hsteps).2.2 hsink
    simp [Sink.flush, hreliable.flush] at hrun

theorem run_eq_none_iff {capacity : Nat} {sink : Sink} (hcode : ∀ i ∈ code, i.Constructed)
    (hsupplied : code.SuppliedFrom 0)
    (hcalls : ∀ i ∈ code, i.opcode = .call → i.name = printName)
    (hsink : sink.Reliable) :
    ((fresh capacity sink).run code).2 = none ↔ code.maxHeight ≤ capacity := by
  rw [Code.maxHeight_le_iff]
  constructor
  · intro hrun
    unfold run at hrun
    split at hrun
    next => cases hrun
    next m' hsteps => exact fitsFrom_of_runSteps hcode (Nat.zero_le _) hsteps
  · intro hfits
    cases hrun : ((fresh capacity sink).run code).2 with
    | none => rfl
    | some error =>
        obtain ⟨-, first, i, rest, -, rfl, -, hover, -⟩ :=
          overflow_of_run hcode hsupplied hcalls hsink hrun
        rw [Code.fitsFrom_append, Int.zero_add] at hfits
        have hroom := hfits.2.1
        omega

end Machine

namespace Node

theorem constructed_of_lowered {node : Node} {code : Code} (hlowered : Lowered node code) :
    ∀ i ∈ code, i.Constructed := by
  induction hlowered using Lowered.rec
    (motive_2 := fun _ code _ => ∀ i ∈ code, i.Constructed) with
  | literal => simpa using .const _
  | «variable» => simpa using .load _
  | unop _ ih => exact ih
  | binop _ _ ihright ihleft =>
      intro i hi
      simp only [List.mem_append, List.mem_singleton] at hi
      obtain (hi | hi) | rfl := hi
      · exact ihright i hi
      · exact ihleft i hi
      · exact .add
  | assign _ _ ih =>
      intro i hi
      simp only [List.mem_append, List.mem_singleton] at hi
      obtain hi | rfl := hi
      · exact ih i hi
      · exact .store _
  | call _ ih =>
      intro i hi
      simp only [List.mem_append, List.mem_singleton] at hi
      obtain hi | rfl := hi
      · exact ih i hi
      · exact .call _ _
  | nil =>
      rename_i hi
      exact absurd hi List.not_mem_nil
  | cons _ _ ihlater ih =>
      rename_i i hi
      obtain hi | hi := List.mem_append.mp hi
      · exact ihlater i hi
      · exact ih i hi

theorem constructed_of_loweredStatements {statements : List Node} {code : Code}
    (hlowered : LoweredStatements statements code) : ∀ i ∈ code, i.Constructed := by
  induction hlowered with
  | nil => simp
  | cons hstatement _ ih =>
      intro i hi
      simp only [List.mem_append, List.mem_cons] at hi
      obtain hi | rfl | hi := hi
      · exact constructed_of_lowered hstatement i hi
      · exact .discard
      · exact ih i hi

/-- Code of statements is the code of the first ones and then the code of the others. -/
theorem statementsCode_append {first rest : List Node} {code : Code}
    (hcode : statementsCode (first ++ rest) = .ok code) :
    ∃ own others, statementsCode first = .ok own ∧ statementsCode rest = .ok others ∧
      code = own ++ others := by
  induction first generalizing code with
  | nil => exact ⟨[], code, rfl, hcode, rfl⟩
  | cons statement later ih =>
      simp only [List.cons_append, statementsCode, bind_eq_ok_iff] at hcode
      obtain ⟨statementCode, hstatement, laterCode, hlater, hcode⟩ := hcode
      obtain ⟨own, others, hown, hothers, rfl⟩ := ih hlater
      cases hcode
      refine ⟨statementCode ++ .discard :: own, others, ?_, hothers, by simp⟩
      rw [statementsCode, hstatement, hown]
      rfl

theorem effect_of_loweredStatements {statements : List Node} {code : Code}
    (hlowered : LoweredStatements statements code) : code.effect = 0 := by
  induction hlowered with
  | nil => rfl
  | cons hstatement _ ih => simp [effect_of_lowered hstatement, ih]

theorem getLast?_of_loweredStatements {statements : List Node} {code : Code}
    (hlowered : LoweredStatements statements code) (hsome : statements ≠ []) :
    code.getLast? = some .discard := by
  induction hlowered with
  | nil => exact absurd rfl hsome
  | @cons statement rest ownCode restCode _ hrest ih =>
      by_cases hlast : rest = []
      · subst hlast
        cases hrest
        simp
      · simp [List.getLast?_cons, ih hlast]

end Node

/-- The machine, the effects of instructions and the greatest height of code count the same
stack.

Behind every instruction that succeeds, the height is the sum of the effects of what has run.
Supplied code that calls only `print` ends on every capacity that has room for its greatest
height; on any other it overflows at the first instruction whose running sum exceeds the
capacity. The code of every tree is supplied, whatever its calls name: it never underflows, no
prefix of it has a negative sum, and the sum behind every statement is zero. -/
theorem heights_agree :
    (∀ code : Code, (∀ i ∈ code, i.Constructed) →
      (∀ (first rest : Code) (m m' : Machine), code = first ++ rest → m.stack = [] →
        m.runSteps first = (m', none) → (m'.height : Int) = first.effect) ∧
      (code.SuppliedFrom 0 →
        (∀ i ∈ code, i.opcode = .call → i.name = printName) →
        ∀ capacity sink, sink.Reliable →
          (((Machine.fresh capacity sink).run code).2 = none ↔ code.maxHeight ≤ capacity) ∧
          (capacity < code.maxHeight →
            ((Machine.fresh capacity sink).run code).2 = some (.stackOverflow capacity) ∧
            ∃ first i rest m, code = first ++ i :: rest ∧ first.FitsFrom capacity 0 ∧
              (capacity : Int) < first.effect + i.effect ∧
              (Machine.fresh capacity sink).runSteps first = (m, none) ∧
              (m.step i).2 = some (.stackOverflow capacity)))) ∧
    (∀ (program : Node) (code : Code), program.compile = .ok code →
      (∀ i ∈ code, i.Constructed) ∧ code.SuppliedFrom 0 ∧
      (∀ m : Machine, m.stack = [] → ∀ opcode needed height,
        (m.run code).2 ≠ some (.stackUnderflow opcode needed height)) ∧
      (∀ first rest, code = first ++ rest → 0 ≤ first.effect) ∧
      (∀ first rest, program.children = first ++ rest →
        ∃ own others, Node.statementsCode first = .ok own ∧
          Node.statementsCode rest = .ok others ∧ code = own ++ others ∧ own.effect = 0 ∧
          (first ≠ [] → own.getLast? = some .discard))) := by
  constructor
  · intro code hcode
    constructor
    · rintro first rest m m' rfl hstack hrun
      have hheight := (Machine.height_of_runSteps (fun i hi => hcode i (by simp [hi])) hrun).1
      have hempty : m.height = 0 := by simp [Machine.height, hstack]
      rw [hheight, hempty]
      simp
    · intro hsupplied hcalls capacity sink hsink
      have hends : ((Machine.fresh capacity sink).run code).2 = none ↔ code.maxHeight ≤ capacity :=
        Machine.run_eq_none_iff hcode hsupplied hcalls hsink
      refine ⟨hends, fun hover => ?_⟩
      cases hrun : ((Machine.fresh capacity sink).run code).2 with
      | none => exact absurd (hends.mp hrun) (Nat.not_le_of_lt hover)
      | some error =>
          obtain ⟨rfl, hfirst⟩ := Machine.overflow_of_run hcode hsupplied hcalls hsink hrun
          exact ⟨rfl, hfirst⟩
  · intro program code hcompile
    obtain ⟨hroot, hlowered⟩ := Node.loweredStatements_of_compile hcompile
    have hstatements : Node.statementsCode program.children = .ok code := by
      rwa [Node.compile, if_pos hroot] at hcompile
    have hcode := Node.constructed_of_loweredStatements hlowered
    have hsupplied := Node.supplied_of_loweredStatements hlowered
    refine ⟨hcode, hsupplied, ?_, ?_, ?_⟩
    · intro m hstack
      exact Machine.run_ne_underflow hcode hsupplied hstack
    · rintro first rest rfl
      have hfirst := ((Code.suppliedFrom_append 0 first rest).mp hsupplied).1
      have hnonneg := Code.effect_nonneg_of_supplied (Int.le_refl 0) hfirst
      rwa [Int.zero_add] at hnonneg
    · intro first rest hchildren
      rw [hchildren] at hstatements
      obtain ⟨own, others, hown, hothers, rfl⟩ := Node.statementsCode_append hstatements
      have hfirst := Node.loweredStatements_of_statementsCode hown
      exact ⟨own, others, hown, hothers, rfl, Node.effect_of_loweredStatements hfirst,
        Node.getLast?_of_loweredStatements hfirst⟩

theorem heights_agree_nestedEffects :
    Node.nestedEffects.compile = .ok Node.nestedEffectsCode ∧
      ((Machine.fresh 3 .unlimited).run Node.nestedEffectsCode).2 = none ∧
      ((Machine.fresh 2 .unlimited).run Node.nestedEffectsCode).2 = some (.stackOverflow 2) ∧
      ∀ m : Machine, m.stack = [] → ∀ opcode needed height,
        (m.run Node.nestedEffectsCode).2 ≠ some (.stackUnderflow opcode needed height) := by
  have hcompile : Node.nestedEffects.compile = .ok Node.nestedEffectsCode := rfl
  obtain ⟨hcode, hsupplied, hunderflow, -, -⟩ := heights_agree.2 _ _ hcompile
  have hruns := (heights_agree.1 _ hcode).2 hsupplied (by decide)
  exact ⟨hcompile, (hruns 3 .unlimited ⟨rfl, rfl⟩).1.mpr (by decide),
    ((hruns 2 .unlimited ⟨rfl, rfl⟩).2 (by decide)).1, hunderflow⟩

end Sumscript

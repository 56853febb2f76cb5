import Sumscript.Machine.Run
import Sumscript.Proofs.BoundedRuns
import Sumscript.Proofs.StackAccount

/-! # What failed steps leave behind

Stepping may go on after an error, so what a failed step leaves behind matters. A step that
finds no function, too few values or no room leaves the stack and the memory as they were; only
a step whose output is refused has lost its arguments. The numbers of values that instructions
claim to pop may be set to anything.

Such a step has printed nothing either, with one exception: a call of `print` without arguments
on a full stack prints its empty line before its result finds no room.
-/

namespace Sumscript

namespace Instr

/-- How many values an instruction takes or reads off the stack when it runs. Only a call goes by
the number that it claims to pop. -/
def operands (i : Instr) : Nat :=
  match i.opcode with
  | .store | .discard => 1
  | .load | .const => 0
  | .add => 2
  | .call => i.pops

/-- The instruction prints an empty line. -/
def PrintsBlank (i : Instr) : Prop :=
  i.opcode = .call ∧ i.name = printName ∧ i.pops = 0

instance (i : Instr) : Decidable i.PrintsBlank :=
  inferInstanceAs (Decidable (_ ∧ _ ∧ _))

/-- What an instruction has printed when it fails without a fault of the sink. -/
def strayOutput (i : Instr) : List Char :=
  if i.PrintsBlank then ['\n'] else []

end Instr

/-- An error that has nothing to do with the sink. -/
def RuntimeError.IsOwn (error : RuntimeError) : Prop :=
  ∀ reason, error ≠ .output reason

theorem Memory.isSome_get?_set {m : Memory} {name : String} (other : String) (value : Int64)
    (h : (m.get? name).isSome = true) : ((m.set other value).get? name).isSome = true := by
  rw [Memory.get?_set]
  split
  · rfl
  · exact h

/-- A write that succeeds keeps the whole text. -/
theorem Sink.write_of_none {sink : Sink} {text : List Char} (h : (sink.write text).2 = none) :
    (sink.write text).1 = { sink with written := sink.written ++ text } := by
  rw [write_eq_take] at h ⊢
  have hroom : text.length ≤ sink.room text := by
    refine Nat.le_of_not_lt fun hshort => ?_
    simp [hshort] at h
  simp only [List.take_of_length_le hroom]

namespace Machine

/-- A machine that stepping leads to, also past errors. After each step the sink may be any
other one, since what a sink takes and when it fails is its own affair. -/
inductive Steps (m : Machine) : Machine → Prop where
  | refl : Steps m m
  | step {m' : Machine} (h : Steps m m') (i : Instr) (sink : Sink) :
      Steps m { (m'.step i).1 with sink }

/-- How an instruction ends on a machine whose stack is within its capacity. -/
inductive Ends (m : Machine) (i : Instr) : Outcome → Prop where
  | done {m' : Machine} (hcapacity : m'.capacity = m.capacity) (hroom : m'.height ≤ m.capacity)
      (hstored : ∀ name, (m.memory.get? name).isSome = true → (m'.memory.get? name).isSome = true) :
      Ends m i (m', none)
  | unknownFunction (hcall : i.opcode = .call) (hname : i.name ≠ printName) :
      Ends m i (m, some (.unknownFunction i.name))
  | underflow (hfew : m.height < i.operands) :
      Ends m i (m, some (.stackUnderflow i.opcode i.operands m.height))
  | overflow (hfull : m.height = m.capacity) (hblank : ¬ i.PrintsBlank) :
      Ends m i (m, some (.stackOverflow m.capacity))
  | printed (hfull : m.height = m.capacity) (hblank : i.PrintsBlank) :
      Ends m i ({ m with sink := { m.sink with written := m.sink.written ++ ['\n'] } },
        some (.stackOverflow m.capacity))
  | refused (error : SinkError) (sink : Sink) :
      Ends m i ({ m with stack := m.stack.drop i.operands, sink }, some (.output error))

section Ends

variable {m : Machine} {i : Instr}

theorem ends_push (hroom : m.height ≤ m.capacity) (hcall : i.opcode ≠ .call) (value : Int64) :
    m.Ends i (m.push value) := by
  unfold push
  split
  next hfree => exact .done rfl hfree fun _ h => h
  next hfull => exact .overflow (by omega) fun hblank => hcall hblank.1

theorem ends_take {opcode : Opcode} {count : Nat} {next : List Int64 → Machine → Outcome}
    (hopcode : opcode = i.opcode) (hcount : count = i.operands)
    (hnext : count ≤ m.height → ∀ values,
      m.Ends i (next values { m with stack := m.stack.drop count })) :
    m.Ends i (m.take opcode count next) := by
  subst hopcode hcount
  unfold take
  split
  next hfew => exact .underflow hfew
  next henough => exact hnext (Nat.le_of_not_lt henough) _

/-- The result of a call has the room of an argument. Without arguments there may be none, and
then the line is already written. -/
theorem ends_print (hroom : m.height ≤ m.capacity) (hcall : i.opcode = .call)
    (hname : i.name = printName) (henough : i.pops ≤ m.height) (values : List Int64)
    (hvalues : values.length = i.pops) :
    m.Ends i (print values { m with stack := m.stack.drop i.pops }) := by
  have hoperands : i.operands = i.pops := by rw [Instr.operands, hcall]
  rw [print_eq]
  split
  next error _ =>
    rw [← hoperands]
    exact .refused error _
  next hwritten =>
    rw [Sink.write_of_none hwritten, push]
    split
    next hfree => exact .done rfl hfree fun _ h => h
    next hfull =>
      have hpops : i.pops = 0 := by
        simp only [height, List.length_drop] at hfull hroom henough
        omega
      have hline : (printedLine values).toList = ['\n'] := by
        rw [List.length_eq_zero_iff.mp (hvalues.trans hpops)]
        rfl
      rw [hpops] at hfull ⊢
      rw [hline]
      exact .printed (Nat.le_antisymm hroom (Nat.le_of_not_lt hfull)) ⟨hcall, hname, hpops⟩

/-- All that a step can do. -/
theorem step_ends (hroom : m.height ≤ m.capacity) (i : Instr) : m.Ends i (m.step i) := by
  unfold step
  split
  next hopcode =>
    refine ends_take rfl (by rw [Instr.operands, hopcode]) fun _ _ => ?_
    refine .done rfl ?_ fun _ h => h
    simp only [height, List.length_drop] at hroom ⊢
    omega
  next hopcode =>
    have hoperands : i.operands = 1 := by rw [Instr.operands, hopcode]
    split
    next hstack =>
      have hheight : m.height = 0 := by rw [height, hstack]; rfl
      have hend := Ends.underflow (m := m) (i := i) (by omega)
      rwa [hopcode, hoperands, hheight] at hend
    next top base _ =>
      exact .done rfl hroom fun _ h => Memory.isSome_get?_set _ _ h
  next hopcode => exact ends_push hroom (by rw [hopcode]; decide) _
  next hopcode => exact ends_push hroom (by rw [hopcode]; decide) _
  next hopcode =>
    refine ends_take rfl (by rw [Instr.operands, hopcode]) fun henough values => ?_
    -- The sum has the room of the values that it replaces.
    have hfree : ({ m with stack := m.stack.drop 2 } : Machine).height < m.capacity := by
      simp only [height, List.length_drop] at hroom henough ⊢
      omega
    rw [push_of_lt hfree]
    exact .done rfl hfree fun _ h => h
  next hopcode =>
    split
    next hname =>
      have hoperands : i.pops = i.operands := by rw [Instr.operands, hopcode]
      unfold take
      split
      next hfew =>
        rw [hoperands] at hfew ⊢
        exact .underflow hfew
      next henough =>
        have hlength : (m.stack.take i.pops).length = i.pops :=
          List.length_take_of_le (Nat.le_of_not_lt henough)
        exact ends_print hroom hopcode hname (Nat.le_of_not_lt henough) _ hlength
    next hname => exact .unknownFunction hopcode hname

theorem Ends.capacity {o : Outcome} (h : m.Ends i o) : o.1.capacity = m.capacity := by
  cases h with
  | done hcapacity _ _ => exact hcapacity
  | unknownFunction | underflow | overflow | printed | refused => rfl

theorem Ends.room {o : Outcome} (h : m.Ends i o) (hroom : m.height ≤ m.capacity) :
    o.1.height ≤ m.capacity := by
  cases h with
  | done _ hroom' _ => exact hroom'
  | unknownFunction | underflow | overflow | printed => exact hroom
  | refused =>
      simp only [height, List.length_drop] at hroom ⊢
      omega

theorem Ends.stored {o : Outcome} (h : m.Ends i o) {name : String}
    (hname : (m.memory.get? name).isSome = true) : (o.1.memory.get? name).isSome = true := by
  cases h with
  | done _ _ hstored => exact hstored name hname
  | unknownFunction | underflow | overflow | printed | refused => exact hname

end Ends

section Steps

variable {m m' : Machine}

theorem Steps.room (h : m.Steps m') (hroom : m.height ≤ m.capacity) :
    m'.capacity = m.capacity ∧ m'.height ≤ m'.capacity := by
  induction h with
  | refl => exact ⟨rfl, hroom⟩
  | step _ i _ ih =>
      have hends := step_ends ih.2 i
      refine ⟨hends.capacity.trans ih.1, ?_⟩
      exact Nat.le_trans (hends.room ih.2) (Nat.le_of_eq hends.capacity.symm)

theorem Steps.stored (h : m.Steps m') (hroom : m.height ≤ m.capacity) {name : String}
    (hname : (m.memory.get? name).isSome = true) : (m'.memory.get? name).isSome = true := by
  induction h with
  | refl => exact hname
  | step h i _ ih => exact (step_ends (h.room hroom).2 i).stored ih

theorem Steps.trans {m'' : Machine} (h : m.Steps m') (h' : m'.Steps m'') : m.Steps m'' := by
  induction h' with
  | refl => exact h
  | step _ i sink ih => exact .step ih i sink

theorem steps_step (m : Machine) (i : Instr) : m.Steps (m.step i).1 :=
  .step .refl i (m.step i).1.sink

/-- Stepping through code leads to the machine that its trace ends with. -/
theorem steps_trace (m : Machine) (code : Code) : m.Steps (m.trace code).2 := by
  induction code generalizing m with
  | nil => exact .refl
  | cons i rest ih => exact (steps_step m i).trans (ih (m.step i).1)

theorem steps_runSteps (m : Machine) (code : Code) : m.Steps (m.runSteps code).1 := by
  induction code generalizing m with
  | nil => exact .refl
  | cons i rest ih =>
      have hstep := steps_step m i
      rw [runSteps]
      split
      next hrun => rwa [hrun] at hstep
      next m₁ hrun =>
        rw [hrun] at hstep
        exact hstep.trans (ih m₁)

end Steps

section Stack

variable {capacity : Nat} {sink : Sink} {m : Machine} {i : Instr} {error : RuntimeError}

/-- Wherever stepping has led, the stack is within the capacity and every stored variable stays
stored. An error that is no fault of the sink leaves the stack and the memory as they were, and an
underflow tells how many values the instruction needs and how many there are. -/
theorem step_loses_nothing (hm : (fresh capacity sink).Steps m) (i : Instr) :
    m.height ≤ capacity ∧
    (∀ m' name, m.Steps m' → (m.memory.get? name).isSome = true →
      (m'.memory.get? name).isSome = true) ∧
    (∀ error, (m.step i).2 = some error → error.IsOwn →
      (m.step i).1.stack = m.stack ∧ (m.step i).1.memory = m.memory) ∧
    ∀ opcode needed height, (m.step i).2 = some (.stackUnderflow opcode needed height) →
      opcode = i.opcode ∧ needed = i.operands ∧ height = m.height ∧ height < needed := by
  obtain ⟨hcapacity, hroom⟩ := hm.room (Nat.zero_le _)
  have hends := step_ends hroom i
  refine ⟨Nat.le_trans hroom (Nat.le_of_eq hcapacity), fun m' name h hname => h.stored hroom hname,
    ?_⟩
  cases hstep : m.step i with
  | mk m' result =>
      rw [hstep] at hends
      refine ⟨fun error herror hown => ?_, fun opcode needed height herror => ?_⟩
      · cases hends with
        | done => cases herror
        | unknownFunction | underflow | overflow | printed => exact ⟨rfl, rfl⟩
        | refused reason _ =>
            cases herror
            exact absurd rfl (hown reason)
      · cases hends with
        | underflow hfew =>
            cases herror
            exact ⟨rfl, rfl, rfl, hfew⟩
        | done | unknownFunction | overflow | printed | refused => cases herror

/-- Code that stores a variable, pushes two values more and prints what is on the stack. -/
def refusedLine : Code :=
  [.const 5, .store "a", .const 7, .const 9, .call "print" 2]

/-- With room for two values and one character the third constant overflows and the call loses
both values, because its line is refused. An addition finds none then, whatever number it claims
to pop. -/
theorem step_loses_nothing_refusedLine :
    let m := ((fresh 2 (.ofLimit (some 1) false)).trace refusedLine).2
    (fresh 2 (.ofLimit (some 1) false)).Steps m ∧
    (m.step { Instr.add with pops := 9 }).2 = some (.stackUnderflow .add 2 0) ∧
    (m.step { Instr.add with pops := 9 }).1.stack = m.stack ∧
    (m.step { Instr.add with pops := 9 }).1.memory = m.memory ∧
    (m.memory.get? "a").isSome = true := by
  intro m
  have hm : (fresh 2 (.ofLimit (some 1) false)).Steps m := steps_trace _ _
  have herror : (m.step { Instr.add with pops := 9 }).2 = some (.stackUnderflow .add 2 0) := rfl
  obtain ⟨-, -, hkept, -⟩ := step_loses_nothing hm { Instr.add with pops := 9 }
  obtain ⟨hstack, hmemory⟩ := hkept _ herror fun _ h => nomatch h
  exact ⟨hm, herror, hstack, hmemory, rfl⟩

end Stack

section Output

variable {capacity : Nat} {sink : Sink} {m m' : Machine} {i : Instr} {error : RuntimeError}

theorem step_sink (hroom : m.height ≤ m.capacity) (hstep : m.step i = (m', some error))
    (hown : error.IsOwn) :
    m'.sink = { m.sink with written := m.sink.written ++ i.strayOutput } ∧
      (i.PrintsBlank → m.height = m.capacity ∧ error = .stackOverflow m.capacity) := by
  have hends := step_ends hroom i
  rw [hstep] at hends
  unfold Instr.strayOutput
  cases hends with
  | unknownFunction _ hname =>
      have hblank : ¬ i.PrintsBlank := fun hblank => hname hblank.2.1
      rw [if_neg hblank, List.append_nil]
      exact ⟨rfl, fun h => absurd h hblank⟩
  | underflow hfew =>
      -- A call without arguments finds enough values on every stack.
      have hblank : ¬ i.PrintsBlank := by
        rintro ⟨hcall, -, hpops⟩
        simp only [Instr.operands, hcall, hpops] at hfew
        exact Nat.not_lt_zero _ hfew
      rw [if_neg hblank, List.append_nil]
      exact ⟨rfl, fun h => absurd h hblank⟩
  | overflow _ hblank =>
      rw [if_neg hblank, List.append_nil]
      exact ⟨rfl, fun h => absurd h hblank⟩
  | printed hfull hblank =>
      rw [if_pos hblank]
      exact ⟨rfl, fun _ => ⟨hfull, rfl⟩⟩
  | refused reason => exact absurd rfl (hown reason)

theorem completed_of_runSteps {first rest : Code} (hfirst : m.runSteps first = (m', none))
    (hi : (m'.step i).2 = some error) : m.completed (first ++ i :: rest) = first := by
  induction first generalizing m with
  | nil =>
      cases hfirst
      rw [List.nil_append, completed]
      split
      next => rfl
      next hstep =>
        rw [hstep] at hi
        cases hi
  | cons j first ih =>
      obtain ⟨m₁, hstep, hrest⟩ := runSteps_cons_eq_none hfirst
      rw [List.cons_append, completed, hstep]
      exact congrArg (j :: ·) (ih hrest)

theorem Steps.step_sink (hm : (fresh capacity sink).Steps m)
    (herror : (m.step i).2 = some error) (hown : error.IsOwn) :
    (m.step i).1.sink = { m.sink with written := m.sink.written ++ i.strayOutput } ∧
      (i.PrintsBlank → m.height = capacity ∧ error = .stackOverflow capacity) := by
  obtain ⟨hcapacity, hroom⟩ := hm.room (Nat.zero_le _)
  have hcapacity : m.capacity = capacity := hcapacity
  have hfailed : m.step i = ((m.step i).1, some error) := by rw [← herror]
  have hsink := Machine.step_sink hroom hfailed hown
  rwa [hcapacity] at hsink

/-- A run that fails without a fault of the sink has printed what the completed instructions
print and what the failing one has printed astray. -/
theorem written_of_run {code : Code} (hrun : ((fresh capacity sink).run code).2 = some error)
    (hown : error.IsOwn) :
    ∃ i rest, code = (fresh capacity sink).completed code ++ i :: rest ∧
      ((fresh capacity sink).run code).1.sink.written =
        ((fresh capacity sink).runSteps ((fresh capacity sink).completed code)).1.sink.written ++
          i.strayOutput := by
  rw [run_machine]
  unfold run at hrun
  split at hrun
  next m' found hsteps =>
    cases hrun
    obtain ⟨first, i, rest, m₁, rfl, hfirst, hfailed⟩ := runSteps_eq_some hsteps
    have hcompleted : (fresh capacity sink).completed (first ++ i :: rest) = first :=
      completed_of_runSteps hfirst (by rw [hfailed])
    have hreached := steps_runSteps (fresh capacity sink) first
    rw [hfirst] at hreached
    have hsink := (hreached.step_sink (by rw [hfailed]) hown).1
    rw [hfailed] at hsink
    have hlast : m'.sink.written = m₁.sink.written ++ i.strayOutput := congrArg Sink.written hsink
    refine ⟨i, rest, by rw [hcompleted], ?_⟩
    rw [hsteps, hcompleted, hfirst, hlast]
  next m' _ =>
    -- A flush that fails is a fault of the sink.
    cases hflush : m'.sink.flush with
    | none =>
        rw [hflush] at hrun
        cases hrun
    | some reason =>
        rw [hflush] at hrun
        cases hrun
        exact absurd rfl (hown reason)

/-- A step that fails without a fault of the sink has printed nothing, unless it is a call of
`print` without arguments; that one fails only because the stack is full, and then its empty line
is printed. So a run that ends in such an error has printed what the instructions before the
failing one print, and an empty line more if that is such a call. -/
theorem failed_step_output (capacity : Nat) (sink : Sink) :
    (∀ m i error, (fresh capacity sink).Steps m → (m.step i).2 = some error → error.IsOwn →
      (m.step i).1.sink = { m.sink with written := m.sink.written ++ i.strayOutput } ∧
      (i.PrintsBlank → m.height = capacity ∧ error = .stackOverflow capacity)) ∧
    ∀ code error, ((fresh capacity sink).run code).2 = some error → error.IsOwn →
      ∃ i rest, code = (fresh capacity sink).completed code ++ i :: rest ∧
        ((fresh capacity sink).run code).1.sink.written =
          ((fresh capacity sink).runSteps ((fresh capacity sink).completed code)).1.sink.written ++
            i.strayOutput :=
  ⟨fun _ _ _ hm => hm.step_sink, fun _ _ => written_of_run⟩

/-- Of two calls without arguments the second finds the stack full, and both lines are printed. -/
theorem failed_step_output_fullStack :
    ((fresh 1 .unlimited).run [.call "print" 0, .call "print" 0]).2 = some (.stackOverflow 1) ∧
    ((fresh 1 .unlimited).run [.call "print" 0, .call "print" 0]).1.sink.written = ['\n', '\n'] := by
  have hrun : ((fresh 1 .unlimited).run [.call "print" 0, .call "print" 0]).2 =
      some (.stackOverflow 1) := rfl
  have hcompleted : (fresh 1 .unlimited).completed [.call "print" 0, .call "print" 0] =
      [.call "print" 0] := rfl
  obtain ⟨i, rest, hsplit, hwritten⟩ :=
    (failed_step_output 1 .unlimited).2 _ _ hrun fun _ h => nomatch h
  rw [hcompleted] at hsplit hwritten
  obtain ⟨rfl, -⟩ := List.cons.inj (List.cons.inj hsplit).2
  refine ⟨hrun, ?_⟩
  rw [hwritten]
  rfl

/-- A call of `print` without arguments fails on a stack without room and has printed a line. -/
theorem step_prints_and_fails : ¬ ∀ (capacity : Nat) (sink : Sink) (m : Machine) (i : Instr)
    (error : RuntimeError), (fresh capacity sink).Steps m → (m.step i).2 = some error →
      error.IsOwn → (m.step i).1.sink = m.sink := by
  intro hall
  have herror : ((fresh 0 .unlimited).step (.call "print" 0)).2 = some (.stackOverflow 0) := rfl
  have hsink := hall 0 .unlimited _ (.call "print" 0) _ .refl herror fun _ h => nomatch h
  have hwritten : ((fresh 0 .unlimited).step (.call "print" 0)).1.sink.written = ['\n'] := rfl
  rw [hsink] at hwritten
  cases hwritten

end Output

end Machine

end Sumscript

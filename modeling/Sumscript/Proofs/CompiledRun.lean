import Sumscript.Proofs.Evaluation
import Sumscript.Proofs.StackHeight

/-! # Compiled code runs as its tree evaluates

The machine follows an evaluation when it ends with the values of the evaluation on top of what
was on the stack and with the same variables and output, or stops at the same unknown function.
Compiled code follows its tree from every stack, as long as the capacity has room for the
greatest height of the code on top of the values that are there already.
-/

namespace Sumscript

/-- A sink that takes all output and can be flushed. -/
structure Sink.Reliable (sink : Sink) : Prop where
  limit : sink.limit = none
  flush : sink.flushFails = false

theorem Sink.Reliable.write_eq {sink : Sink} (hsink : sink.Reliable) (text : List Char) :
    sink.write text = ({ sink with written := sink.written ++ text }, none) := by
  simp [Sink.write, Sink.fitting, hsink.limit]

theorem Memory.get?_set (m : Memory) (name other : String) (value : Int64) :
    (m.set name value).get? other = if other = name then some value else m.get? other := by
  obtain ⟨entries⟩ := m
  change List.lookup other (setEntry name value entries) = if _ then _ else entries.lookup other
  induction entries with
  | nil =>
      rw [setEntry, List.lookup_cons]
      by_cases h : other = name
      · simp [h]
      · simp [h, beq_eq_false_iff_ne.mpr h]
  | cons entry rest ih =>
      obtain ⟨first, old⟩ := entry
      rw [setEntry, List.lookup_cons]
      by_cases hfirst : first = name
      · subst hfirst
        rw [if_pos rfl, List.lookup_cons]
        by_cases h : other = first
        · simp [h]
        · simp [h, beq_eq_false_iff_ne.mpr h]
      · rw [if_neg hfirst, List.lookup_cons]
        by_cases h : other = first
        · subst h
          simp [hfirst]
        · simpa only [beq_eq_false_iff_ne.mpr h] using ih

namespace Machine

/-- The variables and the output of a machine with a reliable sink are those of a world. -/
structure Shows (m : Machine) (w : World) : Prop where
  memory : ∀ name, m.memory.get? name = w.memory name
  output : m.sink.written = w.output
  reliable : m.sink.Reliable

/-- Code that starts on `m` ends as an evaluation does. A result leaves its values on the stack
`base`, and an unknown function leaves `base` below whatever else is on the stack then. -/
def Follows {α : Type} (values : α → List Int64) (base : List Int64) (m : Machine) (code : Code) :
    Evaluation α → Prop
  | .value result w => ∃ m', m.runSteps code = (m', none) ∧ m'.stack = values result ++ base ∧
      m'.capacity = m.capacity ∧ m'.Shows w
  | .unknownFunction name w => ∃ m', m.runSteps code = (m', some (.unknownFunction name)) ∧
      base <:+ m'.stack ∧ m'.Shows w
  | .meaningless => False

theorem runSteps_append (m : Machine) (first second : Code) :
    m.runSteps (first ++ second) =
      match m.runSteps first with
      | (m', none) => m'.runSteps second
      | (m', some error) => (m', some error) := by
  induction first generalizing m with
  | nil => rfl
  | cons i rest ih =>
      rw [List.cons_append, runSteps, runSteps]
      cases m.step i with
      | mk m' error =>
          cases error with
          | none => exact ih m'
          | some error => rfl

@[simp] theorem runSteps_singleton (m : Machine) (i : Instr) : m.runSteps [i] = m.step i := by
  rw [runSteps]
  cases m.step i with
  | mk m' error => cases error <;> rfl

/-- Code that follows an evaluation on every stack which leaves room for the heights of the
code, in every world that the machine shows. -/
def Delivers {α : Type} (values : α → List Int64) (code : Code) (e : World → Evaluation α) : Prop :=
  ∀ (m : Machine) (w : World), m.Shows w → code.FitsFrom m.capacity m.height →
    Follows values m.stack m code (e w)

/-- Two pieces of code follow one evaluation after another. -/
theorem Follows.append {α β : Type} {values : α → List Int64} {values' : β → List Int64}
    {base base' : List Int64} {m : Machine} {first second : Code} {e : Evaluation α}
    {next : α → World → Evaluation β} (hfirst : Follows values base' m first e)
    (hbase : base <:+ base')
    (hsecond : ∀ a w m', e = .value a w → m'.stack = values a ++ base' →
      m'.capacity = m.capacity → m'.Shows w → Follows values' base m' second (next a w)) :
    Follows values' base m (first ++ second) (e.andThen next) := by
  cases e with
  | value a w =>
      obtain ⟨m', hrun, hstack, hcapacity, hshows⟩ := hfirst
      have hnext := hsecond a w m' rfl hstack hcapacity hshows
      unfold Evaluation.andThen Follows at *
      simp only [runSteps_append, hrun, ← hcapacity]
      exact hnext
  | unknownFunction name w =>
      obtain ⟨m', hrun, hstack, hshows⟩ := hfirst
      refine ⟨m', ?_, hbase.trans hstack, hshows⟩
      rw [runSteps_append, hrun]
  | meaningless => exact hfirst

theorem push_of_lt {m : Machine} (hroom : m.height < m.capacity) (value : Int64) :
    m.push value = ({ m with stack := value :: m.stack }, none) := by
  rw [push, if_pos hroom]

theorem take_of_append {m : Machine} {values base : List Int64} (hstack : m.stack = values ++ base)
    (opcode : Opcode) (next : List Int64 → Machine → Outcome) :
    m.take opcode values.length next = next values { m with stack := base } := by
  have hheight : ¬ m.height < values.length := by simp [height, hstack]
  rw [take, if_neg hheight, hstack, List.take_left, List.drop_left]

theorem follows_push {m : Machine} {w : World} {i : Instr} {value : Int64}
    (hstep : m.step i = m.push value) (hshows : m.Shows w) (hroom : m.height < m.capacity) :
    Follows (fun v => [v]) m.stack m [i] (.value value w) := by
  refine ⟨{ m with stack := value :: m.stack }, ?_, rfl, rfl, hshows.memory, hshows.output,
    hshows.reliable⟩
  rw [runSteps_singleton, hstep, push_of_lt hroom]

theorem follows_store {m : Machine} {w : World} {base : List Int64} {name : String} {top : Int64}
    (hstack : m.stack = top :: base) (hshows : m.Shows w) :
    Follows (fun v => [v]) base m [.store name] (.value top (w.store name top)) := by
  refine ⟨{ m with memory := m.memory.set name top }, ?_, hstack, rfl, ?_, hshows.output,
    hshows.reliable⟩
  · rw [runSteps_singleton]
    simp [step, Instr.store, hstack]
  · intro other
    rw [Memory.get?_set, hshows.memory]
    rfl

theorem follows_discard {m : Machine} {w : World} {base : List Int64} {top : Int64}
    (hstack : m.stack = [top] ++ base) (hshows : m.Shows w) :
    Follows (fun _ => []) base m [.discard] (.value () w) := by
  refine ⟨{ m with stack := base }, ?_, rfl, rfl, hshows.memory, hshows.output, hshows.reliable⟩
  have hstep : m.step .discard = m.take .discard [top].length fun _ m' => (m', none) := rfl
  rw [runSteps_singleton, hstep, take_of_append hstack]

/-- The operand that was evaluated last lies on top. -/
theorem follows_add {m : Machine} {w : World} {base : List Int64} {left right : Int64}
    (hstack : m.stack = left :: right :: base) (hshows : m.Shows w)
    (hroom : base.length < m.capacity) :
    Follows (fun v => [v]) base m [.add] (.value (Int64.ofInt (left.toInt + right.toInt)) w) := by
  have hsum : [left, right].foldl (· + ·) 0 = Int64.ofInt (left.toInt + right.toInt) := by
    rw [Int64.ofInt_add, Int64.ofInt_toInt, Int64.ofInt_toInt]
    simp
  refine ⟨{ m with stack := Int64.ofInt (left.toInt + right.toInt) :: base }, ?_, rfl, rfl,
    hshows.memory, hshows.output, hshows.reliable⟩
  have hstep : m.step .add = m.take .add [left, right].length
      fun operands m' => m'.push (operands.foldl (· + ·) 0) := rfl
  rw [runSteps_singleton, hstep, take_of_append hstack, hsum]
  exact push_of_lt (m := { m with stack := base }) hroom _

/-- A call takes its arguments off the stack as they stand there, the first one on top. -/
theorem follows_call {m : Machine} {w : World} {base values : List Int64} (name : String)
    (hstack : m.stack = values ++ base) (hshows : m.Shows w) (hroom : base.length < m.capacity) :
    Follows (fun v => [v]) base m [.call name values.length] (Node.evalCall name values w) := by
  unfold Node.evalCall
  by_cases hname : name = printName
  · rw [if_pos (show name = "print" from hname)]
    let printed : Sink := { m.sink with written := m.sink.written ++ (printedLine values).toList }
    refine ⟨{ m with stack := 0 :: base, sink := printed }, ?_, rfl, rfl, hshows.memory, ?_,
      hshows.reliable.limit, hshows.reliable.flush⟩
    · have hstep : m.step (.call name values.length) = m.take .call values.length print :=
        if_pos hname
      rw [runSteps_singleton, hstep, take_of_append hstack, print, hshows.reliable.write_eq]
      exact push_of_lt (m := { m with stack := base, sink := printed }) hroom 0
    · change m.sink.written ++ _ = w.output ++ World.lineOf values
      rw [hshows.output, World.toList_printedLine]
  · rw [if_neg (show name ≠ "print" from hname)]
    refine ⟨m, ?_, ⟨values, hstack.symm⟩, hshows⟩
    rw [runSteps_singleton]
    simp [step, Instr.call, hname]

end Machine

namespace Node

open Machine

/-- Code of an expression puts its value on top of every stack. -/
theorem delivers_of_lowered {node : Node} {code : Code} (hlowered : Lowered node code) :
    Delivers (fun v => [v]) code node.eval := by
  induction hlowered using Lowered.rec
    (motive_2 := fun arguments code _ => Delivers id code (evalArguments arguments)) with
  | literal hvalue =>
      intro m w hshows hfits
      rw [eval, hvalue]
      have hroom := hfits.1
      rw [Instr.effect_const] at hroom
      exact follows_push rfl hshows (by omega)
  | @«variable» name =>
      intro m w hshows hfits
      have hread : m.memory.read name = w.read name := by
        rw [Memory.read, World.read, hshows.memory]
      have hroom := hfits.1
      rw [Instr.effect_load] at hroom
      rw [eval, ← hread]
      exact follows_push rfl hshows (by omega)
  | unop _ ih =>
      intro m w hshows hfits
      rw [eval, if_pos rfl]
      exact ih m w hshows hfits
  | binop hright hleft ihright ihleft =>
      intro m w hshows hfits
      rw [eval, if_pos rfl, List.append_assoc]
      rw [List.append_assoc, Code.fitsFrom_append, Code.fitsFrom_append, effect_of_lowered hright,
        effect_of_lowered hleft] at hfits
      obtain ⟨hfitsRight, hfitsLeft, hfitsAdd⟩ := hfits
      refine (ihright m w hshows hfitsRight).append (List.suffix_refl _) ?_
      intro r w₁ m₁ _ hstack₁ hcapacity₁ hshows₁
      have hheight₁ : (m₁.height : Int) = m.height + 1 := by simp [height, hstack₁]
      rw [← hheight₁, ← hcapacity₁] at hfitsLeft
      refine (ihleft m₁ w₁ hshows₁ hfitsLeft).append ⟨[r], hstack₁.symm⟩ ?_
      -- The right operand ran first and lies below the left one.
      intro l w₂ m₂ _ hstack₂ hcapacity₂ hshows₂
      have hroom := hfitsAdd.1
      rw [Instr.effect_add] at hroom
      refine follows_add (by rw [hstack₂, hstack₁]; rfl) hshows₂ ?_
      rw [hcapacity₂, hcapacity₁]
      change m.height < m.capacity
      omega
  | assign htarget hvalue ih =>
      intro m w hshows hfits
      rw [eval, if_pos htarget]
      rw [Code.fitsFrom_append] at hfits
      refine (ih m w hshows hfits.1).append (List.suffix_refl _) ?_
      exact fun v w₁ m₁ _ hstack₁ _ hshows₁ => follows_store hstack₁ hshows₁
  | @call name arguments code harguments ih =>
      intro m w hshows hfits
      rw [eval]
      rw [Code.fitsFrom_append, effect_of_loweredArguments harguments] at hfits
      refine (ih m w hshows hfits.1).append (List.suffix_refl _) ?_
      intro values w₁ m₁ heval hstack₁ hcapacity₁ hshows₁
      have hroom := hfits.2.1
      rw [Instr.effect_call] at hroom
      rw [← length_of_evalArguments heval]
      refine follows_call name hstack₁ hshows₁ ?_
      rw [hcapacity₁]
      change m.height < m.capacity
      omega
  | nil => exact fun m w hshows _ => ⟨m, rfl, rfl, rfl, hshows⟩
  | @cons argument later ownCode laterCode hlater hargument ihlater ih =>
      intro m w hshows hfits
      rw [evalArguments]
      rw [Code.fitsFrom_append, effect_of_loweredArguments hlater] at hfits
      refine (ihlater m w hshows hfits.1).append (List.suffix_refl _) ?_
      intro values w₁ m₁ heval hstack₁ hcapacity₁ hshows₁
      have hheight₁ : (m₁.height : Int) = m.height + values.length := by
        simp [height, hstack₁, Int.add_comm]
      rw [← length_of_evalArguments heval, ← hheight₁, ← hcapacity₁] at hfits
      -- The values of the later arguments are the stack on which this one is evaluated.
      rw [← List.append_nil ownCode]
      refine (ih m₁ w₁ hshows₁ hfits.2).append ⟨values, hstack₁.symm⟩ ?_
      intro value w₂ m₂ _ hstack₂ _ hshows₂
      exact ⟨m₂, rfl, by rw [hstack₂, hstack₁]; rfl, rfl, hshows₂⟩

/-- Code of statements leaves nothing on the stack. -/
theorem delivers_of_loweredStatements {statements : List Node} {code : Code}
    (hlowered : LoweredStatements statements code) :
    Delivers (fun _ => []) code (evalStatements statements) := by
  induction hlowered with
  | nil => exact fun m w hshows _ => ⟨m, rfl, rfl, rfl, hshows⟩
  | @cons statement rest ownCode restCode hstatement _ ih =>
      intro m w hshows hfits
      rw [evalStatements]
      rw [Code.fitsFrom_append, effect_of_lowered hstatement] at hfits
      refine (delivers_of_lowered hstatement m w hshows hfits.1).append (List.suffix_refl _) ?_
      intro value w₁ m₁ _ hstack₁ hcapacity₁ hshows₁
      -- The value of the statement is dropped before the next statement starts.
      change Follows _ _ _ ([.discard] ++ restCode)
        ((Evaluation.value () w₁).andThen fun _ => evalStatements rest)
      refine (follows_discard hstack₁ hshows₁).append (List.suffix_refl _) ?_
      intro _ w₂ m₂ hvalue hstack₂ hcapacity₂ hshows₂
      have hheight₂ : (m₂.height : Int) = m.height := by simp [height, hstack₂]
      have hfitsRest := hfits.2.2
      rw [Instr.effect_discard, Int.add_neg_cancel_right, ← hheight₂, ← hcapacity₁,
        ← hcapacity₂] at hfitsRest
      have hfollows := ih m₂ w₂ hshows₂ hfitsRest
      rwa [hstack₂] at hfollows

/-- Running the code of a program agrees with its evaluation, from every memory, above every
stack and behind every output, as long as the capacity has room for the greatest height of the
code on top of the stack. A program that ends leaves the stack as it was; a program that stops
at an unknown function leaves the variables and the output of that moment. -/
theorem run_eq_evalProgram {program : Node} {code : Code} (hcompile : program.compile = .ok code)
    (m : Machine) (hcapacity : m.height + code.maxHeight ≤ m.capacity)
    (hsink : m.sink.Reliable) :
    match program.evalProgram ⟨m.memory.get?, m.sink.written⟩ with
    | .value _ w => ∃ m', m.run code = (m', none) ∧ m'.stack = m.stack ∧
        m'.memory.get? = w.memory ∧ m'.sink.written = w.output
    | .unknownFunction name w => ∃ m', m.run code = (m', some (.unknownFunction name)) ∧
        m.stack <:+ m'.stack ∧ m'.memory.get? = w.memory ∧ m'.sink.written = w.output
    | .meaningless => False := by
  obtain ⟨hroot, hlowered⟩ := loweredStatements_of_compile hcompile
  have hshows : m.Shows ⟨m.memory.get?, m.sink.written⟩ := ⟨fun _ => rfl, rfl, hsink⟩
  have hfollows := delivers_of_loweredStatements hlowered m _ hshows
    (Code.fitsFrom_of_maxHeight_le hcapacity)
  rw [evalProgram, if_pos hroot]
  split
  next w heval =>
    rw [heval] at hfollows
    obtain ⟨m', hrun, hstack, _, hshows'⟩ := hfollows
    refine ⟨m', ?_, hstack, funext hshows'.memory, hshows'.output⟩
    rw [run, hrun]
    simp [Sink.flush, hshows'.reliable.flush]
  next name w heval =>
    rw [heval] at hfollows
    obtain ⟨m', hrun, hstack, hshows'⟩ := hfollows
    refine ⟨m', ?_, hstack, funext hshows'.memory, hshows'.output⟩
    rw [run, hrun]
  next heval =>
    rw [heval] at hfollows
    exact hfollows

/-- The program `print(x = x + 1, print(2) + x)`, whose operands store and print. -/
def nestedEffects : Node :=
  ⟨.root, "", [⟨.call, "print",
    [⟨.assign, "", [leaf .variable "x", ⟨.binop, "+", [leaf .variable "x", leaf .literal "1"]⟩]⟩,
      ⟨.binop, "+", [⟨.call, "print", [leaf .literal "2"]⟩, leaf .variable "x"]⟩]⟩]⟩

def nestedEffectsCode : Code :=
  [.load "x", .const 2, .call "print" 1, .add, .const 1, .load "x", .add, .store "x",
    .call "print" 2, .discard]

theorem run_nestedEffects : nestedEffects.compile = .ok nestedEffectsCode ∧
    ∃ m', (Machine.mk [9] 4 ⟨[("x", 41)]⟩ .unlimited).run nestedEffectsCode = (m', none) ∧
      m'.stack = [9] ∧ m'.memory.get? "x" = some 42 ∧ m'.sink.written = "2\n42 41\n".toList := by
  have hcompile : nestedEffects.compile = .ok nestedEffectsCode := rfl
  obtain ⟨m', hrun, hstack, hmemory, houtput⟩ := run_eq_evalProgram hcompile
    ⟨[9], 4, ⟨[("x", 41)]⟩, .unlimited⟩ (by decide) ⟨rfl, rfl⟩
  exact ⟨hcompile, m', hrun, hstack, congrFun hmemory "x", houtput⟩

end Node

end Sumscript

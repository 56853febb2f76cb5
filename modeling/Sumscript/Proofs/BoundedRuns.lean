import Sumscript.Proofs.Evaluation

/-! # Runs under tighter bounds

A capacity and a room for output bound a run. A run under tighter bounds goes step by step with
the same run under wider ones, up to the step at which a bound of its own stops it. Until then
nothing tells the two apart; what it leaves in its sink is a beginning of what the other run
prints, cut in the middle of a line if need be.
-/

namespace Sumscript

/-- What a machine has room for: values on its stack, and characters in its sink if they are
limited. -/
structure Bounds where
  capacity : Nat
  limit : Option Nat

/-- Bounds that allow no more than others. -/
structure Bounds.Within (b b' : Bounds) : Prop where
  capacity : b.capacity ≤ b'.capacity
  limit : ∀ n', b'.limit = some n' → ∃ n, b.limit = some n ∧ n ≤ n'

namespace Sink

/-- A sink holds no more than it has room for. -/
def Kept (sink : Sink) : Prop :=
  ∀ n, sink.limit = some n → sink.written.length ≤ n

/-- How many characters of a text a sink still takes. -/
def room (sink : Sink) (text : List Char) : Nat :=
  match sink.limit with
  | none => text.length
  | some n => min (n - sink.written.length) text.length

section Write

variable {sink sink' : Sink} {text : List Char}

theorem room_of_none (h : sink.limit = none) : sink.room text = text.length := by
  rw [room, h]

theorem room_of_some {n : Nat} (h : sink.limit = some n) :
    sink.room text = min (n - sink.written.length) text.length := by
  rw [room, h]

theorem room_le_length (sink : Sink) (text : List Char) : sink.room text ≤ text.length := by
  cases h : sink.limit with
  | none => exact Nat.le_of_eq (room_of_none h)
  | some n => exact Nat.le_trans (Nat.le_of_eq (room_of_some h)) (Nat.min_le_right _ _)

theorem fitting_eq_take (sink : Sink) (text : List Char) :
    sink.fitting text = text.take (sink.room text) := by
  unfold fitting
  cases h : sink.limit with
  | none => rw [room_of_none h, List.take_length]
  | some n => rw [room_of_some h, ← List.take_eq_take_min]

theorem write_eq_take (sink : Sink) (text : List Char) : sink.write text =
    ({ sink with written := sink.written ++ text.take (sink.room text) },
      if sink.room text < text.length then some .full else none) := by
  rw [write, fitting_eq_take, List.length_take_of_le (sink.room_le_length text)]

theorem Kept.write (h : sink.Kept) (text : List Char) : (sink.write text).1.Kept := by
  intro n hlimit
  have hkept := h n hlimit
  have hroom : sink.room text = min (n - sink.written.length) text.length := room_of_some hlimit
  rw [write_eq_take, List.length_append, List.length_take]
  omega

/-- Of two sinks with the same contents the one with less room takes the same, or fails when it
is full with the beginning of what the other one holds then. -/
theorem write_cases (text : List Char) (hsame : sink.written = sink'.written) (hkept : sink.Kept)
    (hlimit : ∀ n', sink'.limit = some n' → ∃ n, sink.limit = some n ∧ n ≤ n') :
    ((sink.write text).1.written = (sink'.write text).1.written ∧
      (sink.write text).2 = (sink'.write text).2) ∨
    ∃ n, sink.limit = some n ∧ n < (sink'.write text).1.written.length ∧
      (sink.write text).1.written = (sink'.write text).1.written.take n ∧
      (sink.write text).2 = some .full := by
  have hle' := sink'.room_le_length text
  have hle : sink.room text ≤ sink'.room text := by
    cases hn' : sink'.limit with
    | none =>
        rw [room_of_none hn']
        exact sink.room_le_length text
    | some n' =>
        obtain ⟨n, hn, hnn'⟩ := hlimit n' hn'
        rw [room_of_some hn, room_of_some hn', hsame]
        omega
  rw [write_eq_take, write_eq_take]
  rcases Nat.eq_or_lt_of_le hle with heq | hlt
  · rw [heq, hsame]
    exact .inl ⟨rfl, rfl⟩
  · refine .inr ?_
    -- The smaller room is what is left of a limit.
    have hshort := Nat.lt_of_lt_of_le hlt hle'
    cases hn : sink.limit with
    | none =>
        rw [room_of_none hn] at hshort
        exact absurd hshort (Nat.lt_irrefl _)
    | some n =>
        have hroom := hkept n hn
        have hrest : sink.room text = n - sink'.written.length := by
          rw [room_of_some hn, hsame] at hshort ⊢
          omega
        rw [hsame] at hroom
        refine ⟨n, rfl, ?_, ?_, if_pos hshort⟩
        · rw [List.length_append, List.length_take]
          omega
        · rw [List.take_append, List.take_take, ← hrest, Nat.min_eq_left hle,
            List.take_of_length_le hroom, hsame]

end Write

end Sink

namespace Machine

/-- The instructions of code that run without a failure, up to the first one that fails. -/
def completed (m : Machine) : Code → Code
  | [] => []
  | i :: rest =>
    match m.step i with
    | (_, some _) => []
    | (m', none) => i :: m'.completed rest

/-- What bounds the runs of a machine. -/
def bounds (m : Machine) : Bounds :=
  ⟨m.capacity, m.sink.limit⟩

/-- An outcome has only added ASCII characters to the output of a machine. -/
def Prints (m : Machine) (o : Outcome) : Prop :=
  ∃ text, o.1.sink = { m.sink with written := m.sink.written ++ text } ∧
    ∀ c ∈ text, c.toNat < 128

section Prints

variable {m m' : Machine} {o : Outcome}

theorem prints_of_eq (h : o.1.sink = m.sink) : m.Prints o :=
  ⟨[], by rw [h, List.append_nil], List.forall_mem_nil _⟩

theorem Prints.trans {result : Option RuntimeError} (h : m.Prints (m', result))
    (h' : m'.Prints o) : m.Prints o := by
  obtain ⟨text, hsink, hascii⟩ := h
  obtain ⟨text', hsink', hascii'⟩ := h'
  have hall := List.forall_mem_append.mpr ⟨hascii, hascii'⟩
  exact ⟨text ++ text', by rw [hsink', hsink, ← List.append_assoc], hall⟩

theorem Prints.written_le (h : m.Prints o) : m.sink.written <+: o.1.sink.written := by
  obtain ⟨text, hsink, -⟩ := h
  exact ⟨text, by rw [hsink]⟩

theorem push_sink (m : Machine) (value : Int64) : (m.push value).1.sink = m.sink := by
  unfold push
  split <;> rfl

theorem prints_push (m : Machine) (value : Int64) : m.Prints (m.push value) :=
  prints_of_eq (push_sink m value)

theorem prints_take (m : Machine) (opcode : Opcode) (count : Nat)
    {next : List Int64 → Machine → Outcome}
    (hnext : ∀ values (m' : Machine), m'.Prints (next values m')) : m.Prints (m.take opcode count next) := by
  unfold take
  split
  · exact prints_of_eq rfl
  · exact hnext _ _

theorem ascii_repr (n : Nat) : ∀ c ∈ n.repr.toList, c.toNat < 128 := by
  intro c hc
  rw [Nat.repr, String.toList_ofList] at hc
  have hdigit := Nat.isDigit_of_mem_toDigits (by decide) (by decide) hc
  simp only [Char.isDigit, Bool.and_eq_true, decide_eq_true_eq] at hdigit
  have hle : c.toNat ≤ 57 := hdigit.2
  omega

theorem ascii_toString (n : Int) : ∀ c ∈ (toString n).toList, c.toNat < 128 := by
  cases n with
  | ofNat m => exact ascii_repr m
  | negSucc m =>
      change ∀ c ∈ ("-" ++ (m + 1).repr).toList, _
      rw [String.toList_append, List.forall_mem_append]
      exact ⟨by simp, ascii_repr _⟩

theorem ascii_printedLine (values : List Int64) :
    ∀ c ∈ (printedLine values).toList, c.toNat < 128 := by
  rw [World.toList_printedLine]
  induction values using World.lineOf.induct with
  | case1 => exact List.forall_mem_singleton.mpr (by decide)
  | case2 value =>
      rw [World.lineOf]
      exact List.forall_mem_append.mpr
        ⟨ascii_toString _, List.forall_mem_singleton.mpr (by decide)⟩
  | case3 value rest hrest ih =>
      rw [World.lineOf]
      · refine List.forall_mem_append.mpr ⟨ascii_toString _, ?_⟩
        exact List.forall_mem_cons.mpr ⟨by decide, ih⟩
      · exact hrest

theorem print_eq (values : List Int64) (m : Machine) : print values m =
    match (m.sink.write (printedLine values).toList).2 with
    | some error =>
      ({ m with sink := (m.sink.write (printedLine values).toList).1 }, some (.output error))
    | none => { m with sink := (m.sink.write (printedLine values).toList).1 }.push 0 := by
  unfold print
  cases m.sink.write (printedLine values).toList with
  | mk sink error => cases error <;> rfl

theorem print_sink (values : List Int64) (m : Machine) :
    (print values m).1.sink = (m.sink.write (printedLine values).toList).1 := by
  rw [print_eq]
  split
  · rfl
  · exact push_sink _ _

theorem prints_print (values : List Int64) (m : Machine) : m.Prints (print values m) := by
  refine ⟨_, by rw [print_sink, Sink.write_eq_take], fun c hc => ?_⟩
  exact ascii_printedLine values c (List.mem_of_mem_take hc)

theorem prints_step (m : Machine) (i : Instr) : m.Prints (m.step i) := by
  unfold step
  split
  · exact prints_take m _ _ fun _ _ => prints_of_eq rfl
  · split
    · exact prints_of_eq rfl
    · exact prints_of_eq rfl
  · exact prints_push m _
  · exact prints_push m _
  · exact prints_take m _ _ fun _ m' => prints_push m' _
  · split
    · exact prints_take m _ _ prints_print
    · exact prints_of_eq rfl

theorem prints_runSteps (m : Machine) (code : Code) : m.Prints (m.runSteps code) := by
  induction code generalizing m with
  | nil => exact prints_of_eq rfl
  | cons i rest ih =>
      have hstep := prints_step m i
      rw [runSteps]
      split
      next m' error hrun => rwa [hrun] at hstep
      next m' hrun =>
        rw [hrun] at hstep
        exact hstep.trans (ih m')

end Prints

/-- Two machines that differ in nothing but their bounds. -/
structure Tracks (b b' : Bounds) (m m' : Machine) : Prop where
  bounds : m.bounds = b
  bounds' : m'.bounds = b'
  kept : m.sink.Kept
  stack : m.stack = m'.stack
  memory : m.memory = m'.memory
  written : m.sink.written = m'.sink.written

/-- A machine was stopped by a bound of its own, where a machine with wider bounds has printed a
text. -/
inductive Stopped (b b' : Bounds) (m : Machine) (text : List Char) : RuntimeError → Prop where
  | overflow (hlt : b.capacity < b'.capacity) (hwritten : m.sink.written <+: text) :
      Stopped b b' m text (.stackOverflow b.capacity)
  | full {n} (hlimit : b.limit = some n) (hlong : n < text.length)
      (hwritten : m.sink.written = text.take n) : Stopped b b' m text (.output .full)

/-- An outcome under tighter bounds is that under wider bounds, unless a bound stopped it. -/
inductive Truncates (b b' : Bounds) : Outcome → Outcome → Prop where
  | agree {m m'} (hsame : Tracks b b' m m') (result : Option RuntimeError) :
      Truncates b b' (m, result) (m', result)
  | stopped {m m' error} (hstopped : Stopped b b' m m'.sink.written error)
      (result : Option RuntimeError) : Truncates b b' (m, some error) (m', result)

section Truncates

variable {b b' : Bounds} {m m' : Machine} {error : RuntimeError}

theorem Stopped.mono {text text' : List Char} (h : Stopped b b' m text error)
    (hle : text <+: text') : Stopped b b' m text' error := by
  cases h with
  | overflow hlt hwritten => exact .overflow hlt (hwritten.trans hle)
  | full hlimit hlong hwritten =>
      obtain ⟨more, rfl⟩ := hle
      refine .full hlimit ?_ ?_
      · rw [List.length_append]
        omega
      · rw [List.take_append_of_le_length (Nat.le_of_lt hlong), hwritten]

theorem truncates_of_stopped {o : Outcome} (h : Stopped b b' m o.1.sink.written error) :
    Truncates b b' (m, some error) o :=
  .stopped h o.2

theorem truncates_push (hb : b.Within b') (h : Tracks b b' m m') (value : Int64) :
    Truncates b b' (m.push value) (m'.push value) := by
  have hcapacity : m.capacity = b.capacity := congrArg Bounds.capacity h.bounds
  have hcapacity' : m'.capacity = b'.capacity := congrArg Bounds.capacity h.bounds'
  have hheight : m.height = m'.height := congrArg List.length h.stack
  have hle := hb.capacity
  unfold push
  by_cases hroom : m.height < m.capacity
  · rw [if_pos hroom, if_pos (by omega)]
    refine .agree ?_ none
    exact { h with stack := congrArg (value :: ·) h.stack }
  · rw [if_neg hroom, hcapacity]
    by_cases hroom' : m'.height < m'.capacity
    · rw [if_pos hroom']
      exact .stopped (.overflow (by omega) (h.written ▸ List.prefix_refl _)) none
    · rw [if_neg hroom', hcapacity']
      rcases Nat.eq_or_lt_of_le hle with heq | hlt
      · rw [← heq]
        exact .agree h _
      · exact .stopped (.overflow hlt (h.written ▸ List.prefix_refl _)) _

theorem truncates_take (h : Tracks b b' m m') (opcode : Opcode) (count : Nat)
    {next : List Int64 → Machine → Outcome}
    (hnext : ∀ values m m', Tracks b b' m m' → Truncates b b' (next values m) (next values m')) :
    Truncates b b' (m.take opcode count next) (m'.take opcode count next) := by
  have hheight : m.height = m'.height := congrArg List.length h.stack
  unfold take
  rw [← hheight, ← h.stack]
  split
  · exact .agree h _
  · apply hnext
    exact { h with stack := rfl }

theorem truncates_print (hb : b.Within b') (values : List Int64) (m m' : Machine)
    (h : Tracks b b' m m') : Truncates b b' (print values m) (print values m') := by
  have hlimit : m.sink.limit = b.limit := congrArg Bounds.limit h.bounds
  have hlimit' : m'.sink.limit = b'.limit := congrArg Bounds.limit h.bounds'
  have hprinted := Sink.write_cases (printedLine values).toList h.written h.kept
    (by rw [hlimit, hlimit']; exact hb.limit)
  rw [print_eq]
  rcases hprinted with ⟨hwritten, herror⟩ | ⟨n, hn, hlong, hcut, hfull⟩
  · have hsame : Tracks b b' { m with sink := (m.sink.write (printedLine values).toList).1 }
        { m' with sink := (m'.sink.write (printedLine values).toList).1 } :=
      ⟨h.bounds, h.bounds', h.kept.write _, h.stack, h.memory, hwritten⟩
    rw [print_eq, herror]
    split
    · exact .agree hsame _
    · exact truncates_push hb hsame 0
  · rw [hfull]
    apply truncates_of_stopped
    rw [print_sink]
    exact .full (hlimit ▸ hn) hlong hcut

theorem truncates_step (hb : b.Within b') (h : Tracks b b' m m') (i : Instr) :
    Truncates b b' (m.step i) (m'.step i) := by
  unfold step
  split
  · exact truncates_take h _ _ fun _ _ _ h => .agree h none
  · rw [← h.stack]
    split
    · exact .agree h _
    · refine .agree ?_ none
      exact { h with stack := rfl, memory := by rw [h.memory] }
  · rw [Memory.read, Memory.read, h.memory]
    exact truncates_push hb h _
  · exact truncates_push hb h _
  · exact truncates_take h _ _ fun _ _ _ h => truncates_push hb h _
  · split
    · exact truncates_take h _ _ (truncates_print hb)
    · exact .agree h _

theorem Truncates.written_le {o o' : Outcome} (h : Truncates b b' o o') :
    o.1.sink.written <+: o'.1.sink.written := by
  cases h with
  | agree hsame => exact hsame.written ▸ List.prefix_refl _
  | stopped hstopped =>
      cases hstopped with
      | overflow hlt hwritten => exact hwritten
      | full hlimit hlong hwritten =>
          rw [hwritten]
          exact List.take_prefix _ _

theorem Truncates.tracks {o o' : Outcome} (h : Truncates b b' o o') (hnone : o.2 = none) :
    Tracks b b' o.1 o'.1 := by
  cases h with
  | agree hsame => exact hsame
  | stopped => cases hnone

/-- What a limit on the output changes if there is no other difference. -/
theorem Truncates.of_limit {capacity n : Nat} {o o' : Outcome}
    (h : Truncates ⟨capacity, some n⟩ ⟨capacity, none⟩ o o') :
    o.1.sink.written = o'.1.sink.written.take n ∧
    (n < o'.1.sink.written.length → o.2 = some (.output .full)) ∧
    (o'.1.sink.written.length ≤ n → o.2 = o'.2 ∧ o.1.stack = o'.1.stack ∧
      o.1.memory = o'.1.memory) := by
  cases h with
  | agree hsame =>
      have hfits := hsame.kept n (congrArg Bounds.limit hsame.bounds)
      rw [hsame.written] at hfits
      refine ⟨?_, fun hlong => absurd hlong (Nat.not_lt.mpr hfits),
        fun _ => ⟨rfl, hsame.stack, hsame.memory⟩⟩
      rw [List.take_of_length_le hfits, hsame.written]
  | stopped hstopped =>
      cases hstopped with
      | overflow hlt => exact absurd hlt (Nat.lt_irrefl _)
      | full hlimit hlong hwritten =>
          cases hlimit
          exact ⟨hwritten, fun _ => rfl, fun hfits => absurd hlong (Nat.not_lt.mpr hfits)⟩

/-- Code runs alike on two machines until a bound stops the first one. -/
theorem truncates_runSteps (hb : b.Within b') (h : Tracks b b' m m') (code : Code) :
    Truncates b b' (m.runSteps code) (m'.runSteps code) := by
  induction code generalizing m m' with
  | nil => exact .agree h none
  | cons i rest ih =>
      have hstep := truncates_step hb h i
      rw [runSteps, runSteps]
      cases hrun : m.step i with
      | mk m₁ result =>
          cases hrun' : m'.step i with
          | mk m₁' result' =>
              rw [hrun, hrun'] at hstep
              cases hstep with
              | agree hsame =>
                  cases result with
                  | none => exact ih hsame
                  | some error => exact .agree hsame _
              | stopped hstopped =>
                  cases result' with
                  | some error' => exact .stopped hstopped _
                  | none => exact .stopped (hstopped.mono (prints_runSteps m₁' rest).written_le) _

theorem completed_prefix (hb : b.Within b') (h : Tracks b b' m m') (code : Code) :
    m.completed code <+: m'.completed code := by
  induction code generalizing m m' with
  | nil => exact List.prefix_refl _
  | cons i rest ih =>
      have hstep := truncates_step hb h i
      rw [completed, completed]
      cases hrun : m.step i with
      | mk m₁ result =>
          cases hrun' : m'.step i with
          | mk m₁' result' =>
              rw [hrun, hrun'] at hstep
              cases result with
              | some error => exact List.nil_prefix
              | none =>
                  cases hstep with
                  | agree hsame => exact List.cons_prefix_cons.mpr ⟨rfl, ih hsame⟩

end Truncates

theorem completed_eq_self_iff (m : Machine) (code : Code) :
    m.completed code = code ↔ (m.runSteps code).2 = none := by
  induction code generalizing m with
  | nil => exact iff_of_true rfl rfl
  | cons i rest ih =>
      rw [completed, runSteps]
      cases hrun : m.step i with
      | mk m₁ result =>
          cases result with
          | none => simpa using ih m₁
          | some error => simp

theorem run_machine (m : Machine) (code : Code) : (m.run code).1 = (m.runSteps code).1 := by
  unfold run
  cases m.runSteps code with
  | mk m' result => cases result <;> rfl

/-- A sink that can be flushed leaves the outcome of a run as it is. -/
theorem run_eq_runSteps (m : Machine) (code : Code) (hflush : m.sink.flushFails = false) :
    m.run code = m.runSteps code := by
  obtain ⟨text, hsink, -⟩ := prints_runSteps m code
  unfold run
  cases hrun : m.runSteps code with
  | mk m' result =>
      cases result with
      | some error => rfl
      | none =>
          rw [hrun] at hsink
          have hflush' : m'.sink.flushFails = false := by
            rw [show m'.sink = _ from hsink]
            exact hflush
          simp [Sink.flush, hflush']

/-- Fresh machines differ in nothing but their bounds. -/
theorem tracks_fresh (capacity capacity' n : Nat) (limit' : Option Nat)
    (flushFails flushFails' : Bool) :
    Tracks ⟨capacity, some n⟩ ⟨capacity', limit'⟩ (fresh capacity (.ofLimit (some n) flushFails))
      (fresh capacity' (.ofLimit limit' flushFails')) :=
  ⟨rfl, rfl, fun _ _ => Nat.zero_le _, rfl, rfl, rfl⟩

/-- Of two runs of code the one with the smaller capacity and the smaller room for output prints
a beginning of what the other one prints and completes a beginning of what that completes. If it
completes all, the machines end alike. Beside the run without a limit, a limit cuts the output
at its place and is the reason for a failure exactly if the output is longer; otherwise it
changes nothing. All output is ASCII, so a character is a byte. -/
theorem run_truncated (code : Code) (capacity capacity' n n' : Nat) (flushFails flushFails' : Bool)
    (hcapacity : capacity ≤ capacity') (hlimit : n ≤ n') :
    let first := fresh capacity (.ofLimit (some n) flushFails)
    let second := fresh capacity' (.ofLimit (some n') flushFails')
    let limited := (fresh capacity (.ofLimit (some n) false)).run code
    let full := (fresh capacity .unlimited).run code
    (first.run code).1.sink.written <+: (second.run code).1.sink.written ∧
    first.completed code <+: second.completed code ∧
    (first.completed code = code → (first.run code).1.stack = (second.run code).1.stack ∧
      (first.run code).1.memory = (second.run code).1.memory ∧
      (first.run code).1.sink.written = (second.run code).1.sink.written) ∧
    limited.1.sink.written = full.1.sink.written.take n ∧
    (n < full.1.sink.written.length → limited.2 = some (.output .full)) ∧
    (full.1.sink.written.length ≤ n → limited.2 = full.2 ∧ limited.1.stack = full.1.stack ∧
      limited.1.memory = full.1.memory) ∧
    ∀ c ∈ full.1.sink.written, c.toNat < 128 := by
  intro first second limited full
  have hwithin : Bounds.Within ⟨capacity, some n⟩ ⟨capacity', some n'⟩ := by
    refine ⟨hcapacity, fun m hm => ?_⟩
    cases hm
    exact ⟨n, rfl, hlimit⟩
  have htracks := tracks_fresh capacity capacity' n (some n') flushFails flushFails'
  have hboth := truncates_runSteps hwithin htracks code
  have hunlimited : Bounds.Within ⟨capacity, some n⟩ ⟨capacity, none⟩ :=
    ⟨Nat.le_refl _, fun _ hm => nomatch hm⟩
  have hcut : Truncates ⟨capacity, some n⟩ ⟨capacity, none⟩ limited full := by
    have hsteps := truncates_runSteps hunlimited
      (tracks_fresh capacity capacity n none false false) code
    change Truncates _ _ (run _ _) (run _ _)
    rw [run_eq_runSteps _ _ rfl, run_eq_runSteps _ _ rfl]
    exact hsteps
  obtain ⟨text, hsink, hascii⟩ := prints_runSteps (fresh capacity .unlimited) code
  obtain ⟨hwritten, hlong, hshort⟩ := hcut.of_limit
  simp only [run_machine]
  refine ⟨hboth.written_le, completed_prefix hwithin htracks code, fun hall => ?_, ?_, ?_, ?_, ?_⟩
  · have hsame := hboth.tracks ((completed_eq_self_iff _ _).mp hall)
    exact ⟨hsame.stack, hsame.memory, hsame.written⟩
  · exact hwritten
  · exact hlong
  · exact hshort
  · change ∀ c ∈ ((fresh capacity .unlimited).run code).1.sink.written, c.toNat < 128
    rw [run_machine, hsink]
    exact hascii

/-- The code of `print(12); print(345, 6)`. -/
def twoLines : Code :=
  [.const 12, .call "print" 1, .discard, .const 6, .const 345, .call "print" 2, .discard]

/-- With room for one value the second line is never reached; with room for six characters it is
cut inside a number. -/
theorem run_truncated_twoLines : 1 ≤ 2 ∧ 4 ≤ 6 ∧
    ((fresh 1 (.ofLimit (some 4) true)).run twoLines).2 = some (.stackOverflow 1) ∧
    ((fresh 1 (.ofLimit (some 4) true)).run twoLines).1.sink.written <+:
      ((fresh 2 (.ofLimit (some 6) false)).run twoLines).1.sink.written ∧
    ((fresh 2 (.ofLimit (some 6) false)).run twoLines).1.sink.written = "12\n345".toList ∧
    ((fresh 2 (.ofLimit (some 6) false)).run twoLines).2 = some (.output .full) := by
  have hoverflow : ((fresh 1 (.ofLimit (some 4) true)).run twoLines).2 =
      some (.stackOverflow 1) := by decide +kernel
  have hfull : ((fresh 2 .unlimited).run twoLines).1.sink.written = "12\n345 6\n".toList := by
    decide +kernel
  have hfirst := run_truncated twoLines 1 2 4 6 true false (by decide) (by decide)
  have hsecond := run_truncated twoLines 2 2 6 6 false false (by decide) (by decide)
  obtain ⟨-, -, -, hwritten, hlong, -⟩ := hsecond
  rw [hfull] at hwritten hlong
  exact ⟨by decide, by decide, hoverflow, hfirst.1, hwritten, hlong (by decide)⟩

end Machine

end Sumscript

/-
ChipEight/Proofs/Executions.lean

The instructions of a run.  `m.Does i n` says that the machine `m` does the instruction `i` and
is `n` behind it, whether the instruction was handed to it or the next cycle came upon it, and
`m.Yields i P` that this goes well and leads to a machine with the property `P`.  What an
instruction does is then told once for both.

`s.history cs` lists the instructions that some commands bring about, each with the machine
before and after it.  The list follows the loops of the commands that run cycles, and holds
nothing else: a cycle that waits, or fails, or steps over a word has no entry.

    s.history (c :: cs) = s.executed c ++ (s.perform c).session.history cs

Main statements: `Does.effect`, and `does_of_mem_history`, every entry was done.
-/
import ChipEight.Proofs.Run
import ChipEight.Proofs.Schedule

namespace ChipEight

namespace Machine

/-- The machine does the instruction and becomes `n`: the instruction is handed to it, or its
next cycle comes upon it, and it goes well. -/
def Does (m : Machine) (i : Instruction) (n : Machine) : Prop :=
  (∃ signal, m.execute i = (.ok signal, n)) ∨ m.Executes i ∧ n = m.cycle.2

/-- The instruction goes well on the machine, tells the host nothing and leads to what `P` says,
whether it is handed in or the next cycle comes upon it. -/
def Yields (m : Machine) (i : Instruction) (P : Machine → Prop) : Prop :=
  (∃ n, m.execute i = (.ok .quiet, n) ∧ P n) ∧
    (m.IsAt i → ∃ n, m.cycle = (.ok .quiet, n) ∧ P n)

variable {m n : Machine} {i : Instruction} {e : Effect}

/-! ### One instruction -/

/-- What is done is an effect, settled; the word that was read takes no part in it. -/
theorem Does.effect (h : m.Does i n) :
    ∃ w e, { m with word := w }.effect i = .ok e ∧ n = e.settle := by
  rcases h with ⟨signal, hrun⟩ | ⟨hexec, rfl⟩
  · rcases he : m.effect i with fault | e
    · rw [execute_of_fault he] at hrun
      cases hrun
    · rw [execute_of_effect he] at hrun
      cases hrun
      exact ⟨m.word, e, he, rfl⟩
  · obtain ⟨w, e, he, hcycle⟩ := hexec.effect
    exact ⟨w, e, he, by rw [hcycle]⟩

/-- An instruction yields what its effect leads to, whatever the word that was read. -/
theorem yields_of_effect {P : Machine → Prop}
    (h : ∀ w, ∃ e, { m with word := w }.effect i = .ok e ∧ e.signal = .quiet ∧ P e.settle) :
    m.Yields i P := by
  constructor
  · obtain ⟨e, he, hquiet, hP⟩ := h m.word
    refine ⟨e.settle, ?_, hP⟩
    rw [← hquiet]
    exact execute_of_effect he
  · rintro ⟨hm, w, hf, hi⟩
    obtain ⟨e, he, hquiet, hP⟩ := h w
    refine ⟨e.settle, ?_, hP⟩
    rw [cycle_of_fetch hm hf, runWord_of_effect hi he, hquiet]

/-- What is done leaves every part outside the footprint alone. -/
theorem Does.agree {p : Part} (h : m.Does i n) (hp : p ∉ [.word, .counter])
    (hi : p ∉ i.changes) : m.Agree n p := by
  have hword : p ≠ .word := by
    rintro rfl
    exact hp (by decide)
  have hcounter : p ≠ .counter := by
    rintro rfl
    exact hp (by decide)
  obtain ⟨w, e, he, rfl⟩ := h.effect
  apply (agree_withWord m w hword).trans
  apply (agree_of_effect he hi).trans
  exact agree_settle e hcounter

/-- The instruction that the next cycle comes upon, if it comes upon one. -/
def nextInstruction? (m : Machine) : Option Instruction :=
  match m.mode with
  | .awaitingKey _ => none
  | .running =>
    match m.memory.fetch m.counter with
    | .ok w => Instruction.ofWord? w
    | .error _ => none

theorem nextInstruction?_eq_some_iff : m.nextInstruction? = some i ↔ m.IsAt i := by
  unfold nextInstruction? IsAt
  rcases hm : m.mode with - | x
  · rcases hf : m.memory.fetch m.counter with cause | w <;> simp
  · simp

end Machine

/-! ### Lists of executions -/

/-- An instruction that was done, with the machine before and after it. -/
structure Execution where
  before : Machine
  instruction : Instruction
  after : Machine

namespace Machine

/-- What the next cycle executes, if it executes something. -/
def executed (m : Machine) : List Execution :=
  match m.nextInstruction?, m.cycle with
  | some i, (.ok _, after) => [⟨m, i, after⟩]
  | _, _ => []

/-- What is executed of an instruction that is handed in. -/
def executedAlone (m : Machine) (i : Instruction) : List Execution :=
  match m.execute i with
  | (.ok _, after) => [⟨m, i, after⟩]
  | (.error _, _) => []

/-- What so many cycles execute. -/
def executedInCycles : Nat → Machine → List Execution
  | 0, _ => []
  | n + 1, m =>
    m.executed ++
      match m.cycle with
      | (.ok _, after) => executedInCycles n after
      | (.error _, _) => []

/-- What the cycles of a frame execute. -/
def executedInBurst (skipUnknown : Bool) : Nat → Machine → List Execution
  | 0, _ => []
  | n + 1, m =>
    m.executed ++
      if goesOn skipUnknown m.cycle.1 then executedInBurst skipUnknown n (turn skipUnknown m)
      else []

variable {m n : Machine} {i : Instruction} {x : Execution} {skipUnknown : Bool}

theorem executed_of_executes (h : m.Executes i) : m.executed = [⟨m, i, m.cycle.2⟩] := by
  obtain ⟨hat, signal, hok⟩ := h
  unfold executed
  rw [nextInstruction?_eq_some_iff.2 hat]
  generalize m.cycle = r at hok
  obtain ⟨result, after⟩ := r
  cases hok
  rfl

theorem executed_of_idle (h : ∀ i, ¬ m.Executes i) : m.executed = [] := by
  unfold executed
  split
  · rename_i i signal after hi hcycle
    have hexec : m.Executes i := ⟨nextInstruction?_eq_some_iff.1 hi, signal, by rw [hcycle]⟩
    exact absurd hexec (h i)
  · rfl

theorem does_of_mem_executed (h : x ∈ m.executed) : x.before.Does x.instruction x.after := by
  by_cases hexec : ∃ i, m.Executes i
  · obtain ⟨i, hi⟩ := hexec
    rw [executed_of_executes hi] at h
    obtain rfl := List.mem_singleton.1 h
    exact .inr ⟨hi, rfl⟩
  · rw [executed_of_idle fun i hi => hexec ⟨i, hi⟩] at h
    cases h

theorem does_of_mem_executedAlone (h : x ∈ m.executedAlone i) :
    x.before.Does x.instruction x.after := by
  unfold executedAlone at h
  rcases he : m.execute i with ⟨fault | signal, after⟩ <;> rw [he] at h
  · cases h
  · obtain rfl := List.mem_singleton.1 h
    exact .inl ⟨signal, he⟩

theorem does_of_mem_executedInCycles {count : Nat} (h : x ∈ executedInCycles count m) :
    x.before.Does x.instruction x.after := by
  induction count generalizing m with
  | zero => cases h
  | succ count ih =>
    unfold executedInCycles at h
    rcases List.mem_append.1 h with hfirst | hlater
    · exact does_of_mem_executed hfirst
    · generalize m.cycle = r at hlater
      rcases r with ⟨fault | signal, after⟩
      · cases hlater
      · exact ih hlater

theorem does_of_mem_executedInBurst {count : Nat} (h : x ∈ executedInBurst skipUnknown count m) :
    x.before.Does x.instruction x.after := by
  induction count generalizing m with
  | zero => cases h
  | succ count ih =>
    unfold executedInBurst at h
    rcases List.mem_append.1 h with hfirst | hlater
    · exact does_of_mem_executed hfirst
    · split at hlater
      · exact ih hlater
      · cases hlater

end Machine

namespace Session

/-- What a command executes. -/
def executed (s : Session) : Command → List Execution
  | .cycle => s.machine.executed
  | .cycles count => Machine.executedInCycles count s.machine
  | .executeWord word =>
    match Instruction.ofWord? word with
    | none => []
    | some i => s.machine.executedAlone i
  | .execute i => s.machine.executedAlone i
  | .frame keys? =>
    Machine.executedInBurst s.pacing.skipUnknown s.pacing.cyclesPerTick
      { s.machine with keypad := keys?.getD s.hostKeys }
  | _ => []

/-- What some commands execute, carried out one after the other. -/
def history (s : Session) : List Command → List Execution
  | [] => []
  | c :: rest => s.executed c ++ (s.perform c).session.history rest

variable {s : Session} {c : Command} {cs : List Command} {x : Execution}

theorem does_of_mem_command (h : x ∈ s.executed c) : x.before.Does x.instruction x.after := by
  cases c with
  | cycle => exact Machine.does_of_mem_executed h
  | cycles count => exact Machine.does_of_mem_executedInCycles h
  | executeWord word =>
    simp only [executed] at h
    rcases hi : Instruction.ofWord? word with - | i <;> rw [hi] at h
    · cases h
    · exact Machine.does_of_mem_executedAlone h
  | execute i => exact Machine.does_of_mem_executedAlone h
  | frame keys? => exact Machine.does_of_mem_executedInBurst h
  | _ => cases h

/-- Every entry of a history was done. -/
theorem does_of_mem_history (h : x ∈ s.history cs) : x.before.Does x.instruction x.after := by
  induction cs generalizing s with
  | nil => cases h
  | cons c rest ih =>
    rcases List.mem_append.1 h with hfirst | hlater
    · exact does_of_mem_command hfirst
    · exact ih hlater

end Session

end ChipEight

/-
ChipEight/Machine/Cycle.lean

A cycle.  A running machine reads the word at its program counter, keeps it, reads it as an
instruction and carries that out; a waiting machine reads nothing and looks for a key.

`cycles` runs several cycles and keeps what each of them came to.

Main statements: one equation for each way a cycle can go, by mode (`cycle_of_awaiting`,
`cycle_of_no_register`), by what is read (`cycle_of_fetch_error`, `cycle_of_fetch`) and by
what comes of the word (`runWord_of_unknown`, `runWord_of_fault`, `runWord_of_effect`).  They
show that a cycle that fails changes nothing but the word it read, so the program counter
stays at the instruction at fault.
-/
import ChipEight.Instruction.Code
import ChipEight.Machine.Handlers

namespace ChipEight.Machine

/-- Read the word at the program counter and keep it. -/
def fetchWord : Action Unit := do
  let m ← get
  let w ← settled (m.memory.fetch m.counter)
  modify ({ · with word := w })

/-- Carry out the instruction that a word stands for. -/
def carryOutWord (w : Word) : Action Signal :=
  match Instruction.ofWord? w with
  | some i => carryOut i
  | none => throw (.word (.unknown w))

/-- Read a word and carry out its instruction. -/
def fetchAndCarryOut : Action Signal := do
  fetchWord
  carryOutWord (← get).word

/-- What a cycle does, by the mode of the machine. -/
def next : Action Signal := do
  match (← get).mode with
  | .awaitingKey register => awaitKey register
  | .running => fetchAndCarryOut

/-- Run a word on a machine. -/
def runWord (m : Machine) (w : Word) : Except Fault Signal × Machine :=
  m.run (carryOutWord w)

/-- One cycle: what it came to, and the machine after it. -/
def cycle (m : Machine) : Except Fault Signal × Machine :=
  m.run next

/-! ### Several cycles -/

/-- What several cycles came to: the program counter and the signal after each cycle that
went well, in order, why the last one failed, if it did, and the machine after it. -/
structure Trace where
  steps : List (Nat × Signal)
  fault? : Option Fault
  machine : Machine

/-- Run so many cycles, or up to the first that fails. -/
def cycles : Nat → Machine → Trace
  | 0, m => ⟨[], none, m⟩
  | n + 1, m =>
    match m.cycle with
    | (.ok signal, after) =>
      let later := cycles n after
      { later with steps := (after.counter, signal) :: later.steps }
    | (.error fault, after) => ⟨[], some fault, after⟩

/-! ### The ways of a cycle -/

variable {m : Machine} {w : Word} {i : Instruction} {fault : Fault}

theorem cycle_of_awaiting {x : Register} (h : m.mode = .awaitingKey x.val) :
    m.cycle = (.ok (m.takeKey x).signal, (m.takeKey x).settle) := by
  rw [cycle, next, run_get_bind, h]
  exact run_awaitKey x

/-- A machine that waits for a key to put into a register that does not exist goes on waiting,
and crashes on the first key. -/
theorem cycle_of_no_register {register : Nat} (h : m.mode = .awaitingKey register)
    (hregister : 16 ≤ register) :
    m.cycle = (if m.keypad.lowestDown.isSome then .error .crash else .ok .wait, m) := by
  rw [cycle, next, run_get_bind, h]
  exact run_awaitKey_of_le hregister h

theorem cycle_of_running (h : m.mode = .running) : m.cycle = m.run fetchAndCarryOut := by
  rw [cycle, next, run_get_bind, h]

theorem cycle_of_fetch_error (h : m.mode = .running)
    (hf : m.memory.fetch m.counter = .error fault) : m.cycle = (.error fault, m) := by
  rw [cycle_of_running h]
  simp only [fetchAndCarryOut, fetchWord, run_bind, run_get, run_settled, hf]

theorem cycle_of_fetch (h : m.mode = .running) (hf : m.memory.fetch m.counter = .ok w) :
    m.cycle = { m with word := w }.runWord w := by
  rw [cycle_of_running h]
  simp only [fetchAndCarryOut, fetchWord, run_bind, run_get, run_settled, run_modify, hf]
  rfl

theorem runWord_of_unknown (h : Instruction.ofWord? w = none) :
    m.runWord w = (.error (.word (.unknown w)), m) := by
  rw [runWord, carryOutWord, h]
  rfl

theorem runWord_of_some (h : Instruction.ofWord? w = some i) : m.runWord w = m.execute i := by
  rw [runWord, carryOutWord, h]
  rfl

theorem runWord_of_fault (h : Instruction.ofWord? w = some i) (he : m.effect i = .error fault) :
    m.runWord w = (.error fault, m) := by
  rw [runWord_of_some h, execute_of_fault he]

theorem runWord_of_effect {e : Effect} (h : Instruction.ofWord? w = some i)
    (he : m.effect i = .ok e) : m.runWord w = (.ok e.signal, e.settle) := by
  rw [runWord_of_some h, execute_of_effect he]

end ChipEight.Machine

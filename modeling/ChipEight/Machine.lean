/-
ChipEight/Machine.lean

The machine at one moment: the memory with the font at its start, sixteen data registers of
which the last also holds flags, the index and the program counter, the call stack, two
timers, the screen, the keypad, the source of random bytes, and whether it runs or waits
for a key.

Here are the state, the state a machine starts in, and what the host does to it from
outside: loading a program, resetting, ticking the timers.  How instructions are carried out
is in `ChipEight.Machine.Handlers` and what a cycle does in `ChipEight.Machine.Cycle`.

The index, the program counter and the open calls are plain numbers, since nothing keeps them
inside the memory.  The number of the register that waits for a key is a plain number as
well: the registers named by instructions exist by their type, but nothing in the state says
so of this one.

Main statement: `reset_eq_powerOn`, a reset leads to the state a machine starts in, except
that the source of random bytes stays where it is.
-/
import ChipEight.Advance
import ChipEight.ByteSource
import ChipEight.CallStack
import ChipEight.Keypad
import ChipEight.Memory.Font
import ChipEight.Program
import ChipEight.Screen
import ChipEight.Sound

namespace ChipEight

/-- The values of the sixteen data registers. -/
abbrev Registers := Vector UInt8 16

/-- What a machine does in its next cycle: run the instruction at the program counter, or
look for a key to put into the register of a number. -/
inductive Mode where
  | running
  | awaitingKey (register : Nat)
  deriving DecidableEq, Repr

/-- What a cycle tells the host. -/
inductive Signal where
  | quiet
  | wait
  | redraw
  | tone (edge : Tone)
  deriving DecidableEq, Repr

/-- The state of a machine.  The word is the one that was read last. -/
structure Machine where
  word : Word
  memory : Memory
  registers : Registers
  index : Nat
  counter : Nat
  stack : CallStack
  delay : UInt8
  sound : UInt8
  screen : Screen
  keypad : Keypad
  source : ByteSource
  mode : Mode

namespace Machine

def registerCount : Nat := 16

/-- The register that also holds flags. -/
def flagRegister : Register := Fin.last 15

/-! ### Starting and resetting -/

/-- A machine as it is switched on, without a program. -/
def powerOn (source : ByteSource) : Machine where
  word := 0
  memory := Font.install Memory.blank
  registers := Vector.replicate 16 0
  index := 0
  counter := Memory.programStart
  stack := CallStack.empty
  delay := 0
  sound := 0
  screen := Screen.blank
  keypad := Keypad.idle
  source := source
  mode := .running

/-- Clear every part of the machine but the source of random bytes. -/
def reset (m : Machine) : Machine :=
  { m with
    word := 0
    memory := Font.install m.memory.clear
    registers := m.registers.map fun _ => 0
    index := 0
    counter := Memory.programStart
    stack := CallStack.empty
    delay := 0
    sound := 0
    screen := m.screen.clear
    keypad := m.keypad.release
    mode := .running }

/-- Place the bytes of a program, or refuse them if they do not fit. -/
def load (m : Machine) (data : List UInt8) : Except LoadFault Machine :=
  if data.length ≤ Memory.programRoom then
    .ok { m with memory := m.memory.overwrite Memory.programStart data }
  else
    .error ⟨data.length, Memory.programRoom⟩

def loadProgram (m : Machine) (program : Program) : Except LoadFault Machine :=
  m.load program.data

/-- A machine that is switched on with a program in place. -/
def withProgram (source : ByteSource) (program : Program) : Except LoadFault Machine :=
  (powerOn source).loadProgram program

/-! ### From outside -/

def advance (m : Machine) (move : Advance) : Machine :=
  { m with counter := move.apply m.counter }

/-- Step over the instruction at the program counter. -/
def stepOver (m : Machine) : Machine := m.advance .next

/-- Count both timers down, and report the end of a tone. -/
def tick (m : Machine) : Option Tone × Machine :=
  (if m.sound = 1 then some .stop else none,
    { m with delay := countDown m.delay, sound := countDown m.sound })

/-- Whether the beeper sounds. -/
def soundActive (m : Machine) : Bool := m.sound != 0

/-- Whether the screen changed since the host last showed it. -/
def needsRedraw (m : Machine) : Bool := m.screen.changed

/-- Take the screen as shown. -/
def markShown (m : Machine) : Machine := { m with screen := m.screen.markShown }

/-! ### A reset clears -/

/-- A reset leads to the starting state of a machine with the same source. -/
theorem reset_eq_powerOn (m : Machine) : m.reset = powerOn m.source := by
  have hr : (m.registers.map fun _ => (0 : UInt8)) = Vector.replicate 16 0 := by
    ext i h
    simp
  simp only [reset, powerOn, Memory.clear_eq_blank, Screen.clear_eq_blank,
    Keypad.release_eq_idle, hr]

end Machine

end ChipEight

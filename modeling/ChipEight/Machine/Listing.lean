/-
ChipEight/Machine/Listing.lean

The machine as text: the counters and the word that was read last, the timers and the mode,
the registers eight to a line, the call stack from the earliest call to the latest, and the
memory.  Addresses and words have four digits or more and bytes two; a number too large for
that is shown whole.
-/
import ChipEight.Machine
import ChipEight.Memory.Dump

namespace ChipEight

/-- The mode by name, with the register that waits for a key. -/
def Mode.text : Mode → String
  | running => "Running"
  | awaitingKey register => "AwaitingKey \x7b register: " ++ register.repr ++ " \x7d"

namespace Machine

def countersLine (m : Machine) : String :=
  "PC: " ++ Numeral.hex 4 m.counter ++ "  I: " ++ Numeral.hex 4 m.index ++
    "  SP: " ++ Numeral.hex 2 m.stack.depth ++ "  opcode: " ++ Numeral.hex 4 m.word.toNat ++
    "\n"

def timersLine (m : Machine) : String :=
  "delay timer: " ++ m.delay.toNat.repr ++ "  sound timer: " ++ m.sound.toNat.repr ++
    "  state: " ++ m.mode.text ++ "\n"

/-- A register by name with its value, and what parts it from the next one. -/
def registerText (number : Nat) (value : UInt8) : String :=
  "V" ++ Numeral.bareHex 0 number ++ ": " ++ Numeral.hex 2 value.toNat ++
    (if number % 8 = 7 then "\n" else " ")

def registerLines (m : Machine) : String :=
  String.join (m.registers.toList.zipIdx.map fun (value, number) => registerText number value)

def stackLine (m : Machine) : String :=
  "stack:" ++ String.join (m.stack.oldestFirst.map fun entry => " " ++ Numeral.hex 4 entry) ++
    "\n"

/-- Everything but the memory. -/
def summary (m : Machine) : String :=
  m.countersLine ++ m.timersLine ++ m.registerLines ++ m.stackLine

def listing (m : Machine) : String :=
  m.summary ++ "memory (" ++ Memory.capacity.repr ++ " bytes):\n" ++
    Dump.text 1 m.memory.toList

end Machine

end ChipEight

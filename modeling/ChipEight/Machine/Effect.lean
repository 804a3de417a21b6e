/-
ChipEight/Machine/Effect.lean

What comes of an instruction, in one expression each: the machine with everything but the
program counter brought up to date, the move that the counter is to make, and what the host
is told.  An instruction that fails has no effect at all.

A cycle does not run an effect but the statements of `ChipEight.Machine.Handlers`; that they
come to this is `execute_eq`.
-/
import ChipEight.Instruction
import ChipEight.Machine
import ChipEight.Screen.Sprite

namespace ChipEight

/-- What comes of an instruction; the program counter of the machine is still at it. -/
structure Effect where
  machine : Machine
  move : Advance
  signal : Signal

namespace Effect

/-- Go on to the next instruction and tell the host nothing. -/
def proceed (m : Machine) : Effect := ⟨m, .next, .quiet⟩

/-- Go on to the next instruction and tell the host about the screen. -/
def shown (m : Machine) : Effect := ⟨m, .next, .redraw⟩

/-- Move as told and change nothing else. -/
def go (m : Machine) (move : Advance) : Effect := ⟨m, move, .quiet⟩

/-- The machine after the move. -/
def settle (e : Effect) : Machine := e.machine.advance e.move

end Effect

namespace Machine

/-! ### Registers -/

/-- Put a byte into a register. -/
def put (m : Machine) (x : Register) (byte : UInt8) : Machine :=
  { m with registers := m.registers.set x byte }

/-- Put a flag, if there is one, into the flag register. -/
def putFlag? (m : Machine) : Option UInt8 → Machine
  | some flag => m.put flagRegister flag
  | none => m

/-- The values of the registers up to `x`. -/
def valuesUpTo (m : Machine) (x : Register) : List UInt8 :=
  m.registers.toList.take (x.val + 1)

theorem length_valuesUpTo {m : Machine} (x : Register) :
    (m.valuesUpTo x).length = x.val + 1 := by
  have := x.isLt
  simp only [valuesUpTo, List.length_take, Vector.length_toList]
  omega

/-- Put bytes into the registers from the first one on. -/
def fill (m : Machine) (bytes : List UInt8) : Machine :=
  { m with registers := Vector.ofFn fun i => bytes[i.val]?.getD m.registers[i] }

/-- The key that the value of a register names. -/
def keyIn (m : Machine) (x : Register) : Key :=
  ⟨m.registers[x].toNat % 16, Nat.mod_lt _ (by decide)⟩

/-- The last three decimal digits of a byte. -/
def decimalDigits (byte : UInt8) : List UInt8 :=
  [byte / 100, byte / 10 % 10, byte % 10]

theorem length_decimalDigits (byte : UInt8) : (decimalDigits byte).length = 3 := rfl

/-! ### Effects -/

/-- Look for a key that is held down: put the lowest one into the register and run on, or
wait. -/
def takeKey (m : Machine) (x : Register) : Effect :=
  match m.keypad.lowestDown with
  | some key => .proceed { m.put x (UInt8.ofNat key.val) with mode := .running }
  | none => ⟨{ m with mode := .awaitingKey x.val }, .hold, .wait⟩

/-- Draw the sprite at the index; the flag tells of a collision. -/
def drawSprite (m : Machine) (x y : Register) (rows : List UInt8) : Effect :=
  let drawn := m.screen.draw m.registers[x].toNat m.registers[y].toNat rows
  .shown ({ m with screen := drawn.2 }.put flagRegister drawn.1.toUInt8)

/-- Set the sound timer and report the edge. -/
def changeSound (m : Machine) (value : UInt8) : Effect :=
  ⟨{ m with sound := value }, .next,
    match Tone.edge? m.sound value with
    | some edge => .tone edge
    | none => .quiet⟩

/-- Move the index on within twelve bits; the flag tells of a wrap-around. -/
def moveIndex (m : Machine) (distance : Nat) : Machine :=
  let sum := m.index + distance
  { m.put flagRegister (decide (4096 ≤ sum)).toUInt8 with index := sum % 4096 }

/-- The effect of an instruction on a machine, or the reason why it fails. -/
def effect (m : Machine) : Instruction → Except Fault Effect
  | .clearScreen => .ok (.shown { m with screen := m.screen.clear })
  | .ret =>
    match m.stack.pop with
    | .ok (caller, stack) => .ok (.go { m with stack } (.jump (Advance.next.apply caller)))
    | .error cause => .error (.stack cause)
  | .jump target => .ok (.go m (.jump target))
  | .call target =>
    match m.stack.push m.counter with
    | .ok stack => .ok (.go { m with stack } (.jump target))
    | .error cause => .error (.stack cause)
  | .skipIfByte x byte => .ok (.go m (.skipIf (m.registers[x] == byte)))
  | .skipUnlessByte x byte => .ok (.go m (.skipIf (m.registers[x] != byte)))
  | .skipIfSame x y => .ok (.go m (.skipIf (m.registers[x] == m.registers[y])))
  | .setByte x byte => .ok (.proceed (m.put x byte))
  | .addByte x byte => .ok (.proceed (m.put x (m.registers[x] + byte)))
  | .combine op x y =>
    let a := m.registers[x]
    let b := m.registers[y]
    .ok (.proceed ((m.putFlag? (op.flag? a b)).put x (op.result a b)))
  | .skipUnlessSame x y => .ok (.go m (.skipIf (m.registers[x] != m.registers[y])))
  | .setIndex target => .ok (.proceed { m with index := target })
  | .jumpOffset target =>
    .ok (.go m (.jump ((m.registers[0].toNat + target) % 4096)))
  | .random x mask =>
    .ok (.proceed ({ m with source := m.source.rest }.put x (mask &&& m.source.byte)))
  | .draw x y height =>
    match m.memory.block m.index height with
    | .ok rows => .ok (m.drawSprite x y rows)
    | .error fault => .error fault
  | .skipIfKey x => .ok (.go m (.skipIf (m.keypad.isDown (m.keyIn x))))
  | .skipUnlessKey x => .ok (.go m (.skipIf (!m.keypad.isDown (m.keyIn x))))
  | .readDelay x => .ok (.proceed (m.put x m.delay))
  | .awaitKey x => .ok (m.takeKey x)
  | .setDelay x => .ok (.proceed { m with delay := m.registers[x] })
  | .setSound x => .ok (m.changeSound m.registers[x])
  | .addToIndex x => .ok (.proceed (m.moveIndex m.registers[x].toNat))
  | .pointToGlyph x => .ok (.proceed { m with index := Font.address m.registers[x] })
  | .storeDecimal x =>
    match m.memory.store m.index (decimalDigits m.registers[x]) with
    | .ok memory => .ok (.proceed { m with memory })
    | .error fault => .error fault
  | .storeRegisters x =>
    match m.memory.store m.index (m.valuesUpTo x) with
    | .ok memory => .ok (.proceed { m with memory, index := m.index + (x.val + 1) })
    | .error fault => .error fault
  | .fillRegisters x =>
    match m.memory.block m.index (x.val + 1) with
    | .ok bytes => .ok (.proceed { m.fill bytes with index := m.index + (x.val + 1) })
    | .error fault => .error fault

end Machine

end ChipEight

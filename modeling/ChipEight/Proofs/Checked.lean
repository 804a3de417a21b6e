/-
ChipEight/Proofs/Checked.lean

The machine once more, with every index checked.  The machine itself hides some of its
indices: a byte past the end of the memory reads as zero, an instruction names registers that
exist by their type, and so does a call stack with its room for sixteen.  Here memory,
registers, keys, open calls and cells of the screen are looked up by plain numbers, addresses
are added in sixteen bits, and a step comes to nothing, `none`, as soon as an index is out of
range or a sum does not fit:

    effect?, cycle?, burst?, frame?, Session.perform?.

What is found there is not checked: a register holds a byte, and a key or a cell is on or off,
by their types.  That the checks never fire where the host behaves is shown in
`ChipEight.Proofs.Safety`.
-/
import ChipEight.Session

namespace ChipEight

namespace Checked

variable {α : Type} {n : Nat}

/-! ### Addresses and cells -/

/-- The sum of two addresses, if it fits into sixteen bits. -/
def sum? (a b : Nat) : Option Nat :=
  if a + b < 65536 then some (a + b) else none

/-- Put a value at an index, if there is such an index. -/
def set? (v : Vector α n) (i : Nat) (a : α) : Option (Vector α n) :=
  if h : i < n then some (v.set i a) else none

/-- The values from an index on, if there are so many. -/
def read? (v : Vector α n) (start length : Nat) : Option (List α) := do
  let stop ← sum? start length
  if stop ≤ n then some ((v.toList.drop start).take length) else none

/-- Put values one after the other, if there are indices for all of them. -/
def write? (v : Vector α n) (start : Nat) : List α → Option (Vector α n)
  | [] => some v
  | a :: rest => do
    let next ← sum? start 1
    let w ← set? v start a
    write? w next rest

end Checked

open Checked

namespace Memory

/-- Read the word at an address, or refuse it if it leaves the memory. -/
def fetch? (m : Memory) (address : Nat) : Option (Except Fault Word) := do
  let following ← sum? address 1
  if following < 4096 then
    let high ← m[address]?
    let low ← m[following]?
    some (.ok (Word.ofBytes high low))
  else
    some (.error (.word (.outside address 4096)))

/-- Read a block, or refuse it if it leaves the memory. -/
def block? (m : Memory) (address length : Nat) : Option (Except Fault (List UInt8)) := do
  let stop ← sum? address length
  if stop ≤ 4096 then
    let bytes ← read? m address length
    some (.ok bytes)
  else
    some (.error (.access ⟨address, length⟩))

/-- Write a block, or refuse it if it leaves the memory. -/
def store? (m : Memory) (address : Nat) (bytes : List UInt8) :
    Option (Except Fault Memory) := do
  let stop ← sum? address bytes.length
  if stop ≤ 4096 then
    let after ← write? m address bytes
    some (.ok after)
  else
    some (.error (.access ⟨address, bytes.length⟩))

end Memory

/-- Open a call at the address, unless the stack is full. -/
def CallStack.push? (s : CallStack) (address : Nat) : Option (Except StackFault CallStack) :=
  if s.depth = capacity then some (.error .full)
  else if h : s.entries.length < 16 then some (.ok ⟨address :: s.entries, h⟩)
  else none

namespace Screen

/-- Turn over the cell where a column and a row lead to. -/
def flip? (s : Screen) (x y : Nat) : Option (Bool × Screen) := do
  let on ← s.cells[y % 32 * 64 + x % 64]?
  let cells ← set? s.cells (y % 32 * 64 + x % 64) (!on)
  some (on, ⟨cells, true⟩)

/-- Flip the cells at these positions in turn. -/
def flipAll? (s : Screen) : List (Nat × Nat) → Option (Bool × Screen)
  | [] => some (false, s)
  | (x, y) :: rest => do
    let first ← s.flip? x y
    let others ← first.2.flipAll? rest
    some (first.1 || others.1, others.2)

/-- Draw a sprite with its top left corner at a column and a row. -/
def draw? (s : Screen) (x y : Nat) (rows : List UInt8) : Option (Bool × Screen) := do
  let drawn ← s.flipAll? ((Sprite.points rows).map fun (j, i) => (x + j, y + i))
  some (drawn.1, drawn.2.markChanged)

end Screen

namespace Machine

/-! ### Instructions -/

/-- The value of a register. -/
def value? (m : Machine) (x : Nat) : Option UInt8 := m.registers[x]?

/-- Put a byte into a register. -/
def put? (m : Machine) (x : Nat) (byte : UInt8) : Option Machine := do
  let registers ← set? m.registers x byte
  some { m with registers }

/-- Whether the key is held down that a register names. -/
def keyDown? (m : Machine) (x : Nat) : Option Bool := do
  let value ← m.value? x
  m.keypad.keys[value.toNat % 16]?

/-- Look for a key that is held down. -/
def takeKey? (m : Machine) (x : Nat) : Option Effect :=
  match m.keypad.lowestDown with
  | some key => do
    let taken ← m.put? x (UInt8.ofNat key.val)
    some (.proceed { taken with mode := .running })
  | none => some ⟨{ m with mode := .awaitingKey x }, .hold, .wait⟩

/-- Draw the sprite at the index. -/
def drawSprite? (m : Machine) (x y : Nat) (rows : List UInt8) : Option Effect := do
  let column ← m.value? x
  let row ← m.value? y
  let drawn ← m.screen.draw? column.toNat row.toNat rows
  let flagged ← put? { m with screen := drawn.2 } 15 drawn.1.toUInt8
  some (.shown flagged)

/-- The effect of an instruction.  Clearing the screen, jumping and pointing the index
somewhere index nothing. -/
def effect? (m : Machine) : Instruction → Option (Except Fault Effect)
  | .clearScreen => some (m.effect .clearScreen)
  | .jump target => some (m.effect (.jump target))
  | .setIndex target => some (m.effect (.setIndex target))
  | .call target => do
    match ← m.stack.push? m.counter with
    | .ok stack => some (.ok (.go { m with stack } (.jump target)))
    | .error cause => some (.error (.stack cause))
  | .ret =>
    match m.stack.pop with
    | .ok (caller, stack) => do
      let target ← sum? caller 2
      some (.ok (.go { m with stack } (.jump target)))
    | .error cause => some (.error (.stack cause))
  | .skipIfByte x byte => do
    let a ← m.value? x
    some (.ok (.go m (.skipIf (a == byte))))
  | .skipUnlessByte x byte => do
    let a ← m.value? x
    some (.ok (.go m (.skipIf (a != byte))))
  | .skipIfSame x y => do
    let a ← m.value? x
    let b ← m.value? y
    some (.ok (.go m (.skipIf (a == b))))
  | .skipUnlessSame x y => do
    let a ← m.value? x
    let b ← m.value? y
    some (.ok (.go m (.skipIf (a != b))))
  | .setByte x byte => do
    let after ← m.put? x byte
    some (.ok (.proceed after))
  | .addByte x byte => do
    let a ← m.value? x
    let after ← m.put? x (a + byte)
    some (.ok (.proceed after))
  | .combine op x y => do
    let a ← m.value? x
    let b ← m.value? y
    let flagged ← match op.flag? a b with
      | some flag => m.put? 15 flag
      | none => some m
    let after ← flagged.put? x (op.result a b)
    some (.ok (.proceed after))
  | .jumpOffset target => do
    let a ← m.value? 0
    let sum ← sum? a.toNat target
    some (.ok (.go m (.jump (sum % 4096))))
  | .random x mask => do
    let after ← put? { m with source := m.source.rest } x (mask &&& m.source.byte)
    some (.ok (.proceed after))
  | .draw x y height => do
    match ← m.memory.block? m.index height with
    | .ok rows =>
      let drawn ← m.drawSprite? x y rows
      some (.ok drawn)
    | .error fault => some (.error fault)
  | .skipIfKey x => do
    let down ← m.keyDown? x
    some (.ok (.go m (.skipIf down)))
  | .skipUnlessKey x => do
    let down ← m.keyDown? x
    some (.ok (.go m (.skipIf (!down))))
  | .readDelay x => do
    let after ← m.put? x m.delay
    some (.ok (.proceed after))
  | .awaitKey x => do
    let taken ← m.takeKey? x
    some (.ok taken)
  | .setDelay x => do
    let a ← m.value? x
    some (.ok (.proceed { m with delay := a }))
  | .setSound x => do
    let a ← m.value? x
    some (.ok (m.changeSound a))
  | .addToIndex x => do
    let a ← m.value? x
    let sum ← sum? m.index a.toNat
    let flagged ← m.put? 15 (decide (4096 ≤ sum)).toUInt8
    some (.ok (.proceed { flagged with index := sum % 4096 }))
  | .pointToGlyph x => do
    let a ← m.value? x
    let index ← sum? Font.location (Font.glyphSize * a.toNat)
    some (.ok (.proceed { m with index }))
  | .storeDecimal x => do
    let a ← m.value? x
    match ← m.memory.store? m.index (decimalDigits a) with
    | .ok memory => some (.ok (.proceed { m with memory }))
    | .error fault => some (.error fault)
  | .storeRegisters x => do
    let values ← read? m.registers 0 (x.val + 1)
    match ← m.memory.store? m.index values with
    | .ok memory =>
      let index ← sum? m.index (x.val + 1)
      some (.ok (.proceed { m with memory, index }))
    | .error fault => some (.error fault)
  | .fillRegisters x => do
    match ← m.memory.block? m.index (x.val + 1) with
    | .ok bytes =>
      let registers ← write? m.registers 0 bytes
      let index ← sum? m.index (x.val + 1)
      some (.ok (.proceed { m with registers, index }))
    | .error fault => some (.error fault)

/-! ### Cycles and frames -/

/-- Move the program counter. -/
def advance? (m : Machine) : Advance → Option Machine
  | .jump target => some { m with counter := target }
  | relative => do
    let counter ← sum? m.counter relative.extent
    some { m with counter }

/-- Run the word that was read. -/
def runWord? (m : Machine) (w : Word) : Option (Except Fault Signal × Machine) :=
  match Instruction.ofWord? w with
  | none => some (.error (.word (.unknown w)), m)
  | some i => do
    match ← m.effect? i with
    | .ok e =>
      let after ← e.machine.advance? e.move
      some (.ok e.signal, after)
    | .error fault => some (.error fault, m)

/-- One cycle. -/
def cycle? (m : Machine) : Option (Except Fault Signal × Machine) :=
  match m.mode with
  | .awaitingKey x => do
    let e ← m.takeKey? x
    let after ← e.machine.advance? e.move
    some (.ok e.signal, after)
  | .running => do
    match ← m.memory.fetch? m.counter with
    | .ok w => runWord? { m with word := w } w
    | .error fault => some (.error fault, m)

/-- Run up to so many cycles, ending when the machine waits or a cycle fails. -/
def burst? (skipUnknown : Bool) : Nat → Machine → Option Burst
  | 0, m => some ⟨none, [], m⟩
  | n + 1, m => do
    match ← m.cycle? with
    | (.ok .wait, after) => some ⟨none, [], after⟩
    | (.ok (.tone edge), after) =>
      let later ← burst? skipUnknown n after
      some { later with edges := edge :: later.edges }
    | (.ok .quiet, after) => burst? skipUnknown n after
    | (.ok .redraw, after) => burst? skipUnknown n after
    | (.error fault, after) =>
      match fault, skipUnknown with
      | .word (.unknown _), true =>
        let past ← after.advance? .next
        burst? skipUnknown n past
      | _, _ => some ⟨some fault, [], after⟩

/-- Run one frame, with these keys held down on the host. -/
def frame? (pacing : Pacing) (keys : Keypad) (m : Machine) : Option FrameReport := do
  let b ← burst? pacing.skipUnknown pacing.cyclesPerTick { m with keypad := keys }
  match b.fault? with
  | some fault => some ⟨some fault, .readKeypad :: b.edges.map .tone, b.machine⟩
  | none =>
    let ticked := b.machine.markShown.tick
    some ⟨none,
      .readKeypad :: (b.edges.map .tone ++ b.machine.pictureCall ++ ticked.1.toList.map .tone),
      ticked.2⟩

/-- Place the bytes of a program, or refuse them if they do not fit. -/
def load? (m : Machine) (data : List UInt8) : Option (Except LoadFault Machine) := do
  if data.length ≤ Memory.programRoom then
    let memory ← write? m.memory Memory.programStart data
    some (.ok { m with memory })
  else
    some (.error ⟨data.length, Memory.programRoom⟩)

end Machine

namespace Session

/-- Carry out a command.  A number that is no key's and a list of other than sixteen keys
are indices out of range, and commands that hand in an instruction or a move of their own
are left out. -/
def perform? (s : Session) : Command → Option Outcome
  | .load data => do
    match ← s.machine.load? data with
    | .ok after => some (s.become .done after)
    | .error fault => some (s.refuse (.tooLong fault))
  | .loadNamed name data =>
    match Program.make name data with
    | .error fault => some (s.refuse (.tooLong fault))
    | .ok program => do
      match ← s.machine.load? program.data with
      | .ok after => some (s.become .done after)
      | .error fault => some (s.refuse (.tooLong fault))
  | .cycle => do
    let r ← s.machine.cycle?
    some (s.report r)
  | .stepOver => do
    let after ← s.machine.advance? .next
    some (s.become .done after)
  | .reset => do
    let memory ← write? s.machine.memory.clear Font.location Font.glyphs
    some (s.become .done { s.machine.reset with memory })
  | .markShown => some (s.perform .markShown)
  | .tick => some (s.perform .tick)
  | .setSource source => some (s.perform (.setSource source))
  | .setKey number down => do
    let keys ← set? s.machine.keypad.keys number down
    some (s.become .done { s.machine with keypad := ⟨keys⟩ })
  | .toggleKey number => do
    let down ← s.machine.keypad.keys[number]?
    let keys ← set? s.machine.keypad.keys number (!down)
    some (s.become .done { s.machine with keypad := ⟨keys⟩ })
  | .setKeys keys => do
    if keys.length = 16 then
      let after ← write? s.machine.keypad.keys 0 keys
      some (s.become .done { s.machine with keypad := ⟨after⟩ })
    else
      none
  | .frame keys? => do
    let keys := keys?.getD s.hostKeys
    let r ← Machine.frame? s.pacing keys s.machine
    some ⟨match r.fault? with
      | none => .done
      | some fault => .failed fault,
      r.calls, { s with machine := r.machine, hostKeys := keys }⟩
  | .cycles _ | .executeWord _ | .execute _ | .advance _ => none

end Session

end ChipEight

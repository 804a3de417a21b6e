/-
ChipEight/Machine/Handlers.lean

How instructions are carried out, statement by statement.  An action runs on a machine, may
fail, and hands the machine back in either case, as it is at that point: what was written
before a failure stays written.  That failures come before the first write is therefore not
built in.

`handle` carries out an instruction up to the program counter, and `carryOut` moves that as
well.  Waiting for a key moves it on its own as soon as a key is held down, since the cycles
that wait are not instructions.

Main statement: `execute_eq`, carrying out an instruction leads to its effect, with the move
made, and where it fails, nothing has been written: the machine is handed back as it was.

    m.execute i = (.ok e.signal, e.settle)   if  m.effect i = .ok e
    m.execute i = (.error fault, m)          if  m.effect i = .error fault
-/
import ChipEight.Machine.Effect

namespace ChipEight

/-- What runs on a machine and may fail. -/
abbrev Action := ExceptT Fault (StateM Machine)

namespace Machine

variable {α β : Type}

/-- What an action comes to on a machine, and the machine after it. -/
def run (m : Machine) (action : Action α) : Except Fault α × Machine :=
  Id.run (StateT.run (ExceptT.run action) m)

/-! ### Steps that handlers share -/

/-- Go on with a value, or fail. -/
def settled : Except Fault α → Action α
  | .ok value => pure value
  | .error fault => throw fault

def step (move : Advance) : Action Unit := modify (·.advance move)

/-- Open a call at the address. -/
def pushStack (address : Nat) : Action Unit := do
  match (← get).stack.push address with
  | .ok stack => modify ({ · with stack })
  | .error cause => throw (.stack cause)

/-- Close the latest call and give its address. -/
def popStack : Action Nat := do
  match (← get).stack.pop with
  | .ok (caller, stack) =>
    modify ({ · with stack })
    return caller
  | .error cause => throw (.stack cause)

/-- Look for a key that is held down: put the lowest one into the register and run on behind
the current instruction, or wait. -/
def awaitKey (register : Nat) : Action Signal := do
  match (← get).keypad.lowestDown with
  | some key =>
    if h : register < 16 then
      modify (·.put ⟨register, h⟩ (UInt8.ofNat key.val))
      modify ({ · with mode := .running })
      step .next
      return .quiet
    else throw .crash
  | none =>
    modify ({ · with mode := .awaitingKey register })
    return .wait

/-! ### Instructions -/

/-- Carry out an instruction, all but the move of the program counter and what the host is
told, which it gives. -/
def handle : Instruction → Action (Advance × Signal)
  | .clearScreen => do
    modify fun m => { m with screen := m.screen.clear }
    return (.next, .redraw)
  | .ret => do
    let caller ← popStack
    return (.jump (Advance.next.apply caller), .quiet)
  | .jump target => return (.jump target, .quiet)
  | .call target => do
    pushStack (← get).counter
    return (.jump target, .quiet)
  | .skipIfByte x byte => return (.skipIf ((← get).registers.get x == byte), .quiet)
  | .skipUnlessByte x byte => return (.skipIf ((← get).registers.get x != byte), .quiet)
  | .skipIfSame x y => do
    let m ← get
    return (.skipIf (m.registers.get x == m.registers.get y), .quiet)
  | .setByte x byte => do
    modify (·.put x byte)
    return (.next, .quiet)
  | .addByte x byte => do
    modify fun m => m.put x (m.registers.get x + byte)
    return (.next, .quiet)
  | .combine op x y => do
    let m ← get
    let a := m.registers.get x
    let b := m.registers.get y
    -- the flag comes first, so the result wins in the flag register
    modify (·.putFlag? (op.flag? a b))
    modify (·.put x (op.result a b))
    return (.next, .quiet)
  | .skipUnlessSame x y => do
    let m ← get
    return (.skipIf (m.registers.get x != m.registers.get y), .quiet)
  | .setIndex target => do
    modify ({ · with index := target })
    return (.next, .quiet)
  | .jumpOffset target => do
    let offset := (← get).registers.get ⟨0, Nat.zero_lt_succ 15⟩
    return (.jump ((offset.toNat + target) % 4096), .quiet)
  | .random x mask => do
    let byte := (← get).source.byte
    modify fun m => { m with source := m.source.rest }
    modify (·.put x (mask &&& byte))
    return (.next, .quiet)
  | .draw x y height => do
    let m ← get
    settled (Memory.check m.index height)
    let drawn := m.screen.draw (m.registers.get x).toNat (m.registers.get y).toNat
      (m.memory.slice m.index height)
    modify ({ · with screen := drawn.2 })
    modify (·.put flagRegister drawn.1.toUInt8)
    return (.next, .redraw)
  | .skipIfKey x => do
    let m ← get
    return (.skipIf (m.keypad.isDown (m.keyIn x)), .quiet)
  | .skipUnlessKey x => do
    let m ← get
    return (.skipIf (!m.keypad.isDown (m.keyIn x)), .quiet)
  | .readDelay x => do
    modify fun m => m.put x m.delay
    return (.next, .quiet)
  | .awaitKey x => return (.hold, ← awaitKey x.val)
  | .setDelay x => do
    modify fun m => { m with delay := m.registers.get x }
    return (.next, .quiet)
  | .setSound x => do
    let m ← get
    modify ({ · with sound := m.registers.get x })
    match Tone.edge? m.sound (m.registers.get x) with
    | some edge => return (.next, .tone edge)
    | none => return (.next, .quiet)
  | .addToIndex x => do
    let m ← get
    let sum := m.index + (m.registers.get x).toNat
    modify (·.put flagRegister (decide (4096 ≤ sum)).toUInt8)
    modify ({ · with index := sum % 4096 })
    return (.next, .quiet)
  | .pointToGlyph x => do
    modify fun m => { m with index := Font.address (m.registers.get x) }
    return (.next, .quiet)
  | .storeDecimal x => do
    settled (Memory.check (← get).index 3)
    modify fun m =>
      { m with memory := m.memory.overwrite m.index (decimalDigits (m.registers.get x)) }
    return (.next, .quiet)
  | .storeRegisters x => do
    settled (Memory.check (← get).index (x.val + 1))
    modify fun m => { m with memory := m.memory.overwrite m.index (m.valuesUpTo x) }
    modify fun m => { m with index := m.index + (x.val + 1) }
    return (.next, .quiet)
  | .fillRegisters x => do
    settled (Memory.check (← get).index (x.val + 1))
    modify fun m => m.fill (m.memory.slice m.index (x.val + 1))
    modify fun m => { m with index := m.index + (x.val + 1) }
    return (.next, .quiet)

/-- Carry out an instruction and move the program counter. -/
def carryOut (i : Instruction) : Action Signal := do
  let (move, signal) ← handle i
  step move
  return signal

/-- Carry out an instruction on a machine. -/
def execute (m : Machine) (i : Instruction) : Except Fault Signal × Machine :=
  m.run (carryOut i)

/-! ### Running actions -/

variable {m : Machine}

/-- One action after another: the second one runs on what the first one leaves. -/
theorem run_bind (action : Action α) (next : α → Action β) :
    m.run (action >>= next) =
      match m.run action with
      | (.ok value, n) => n.run (next value)
      | (.error fault, n) => (.error fault, n) := by
  rcases h : m.run action with ⟨fault | value, n⟩
  all_goals
    simp only [run, bind, ExceptT.bind, StateT.bind, ExceptT.run, ExceptT.mk, StateT.run,
      Id.run] at h ⊢
    rw [h]
    rfl

theorem run_get_bind (next : Machine → Action α) : m.run (get >>= next) = m.run (next m) := rfl

theorem run_get : m.run get = (.ok m, m) := rfl

theorem run_modify (f : Machine → Machine) : m.run (modify f) = (.ok ⟨⟩, f m) := rfl

theorem run_settled (result : Except Fault α) : m.run (settled result) = (result, m) := by
  cases result <;> rfl

theorem run_pushStack (address : Nat) :
    m.run (pushStack address) =
      match m.stack.push address with
      | .ok stack => (.ok ⟨⟩, { m with stack })
      | .error cause => (.error (.stack cause), m) := by
  rw [pushStack, run_get_bind]
  rcases m.stack.push address with cause | stack <;> rfl

theorem run_popStack :
    m.run popStack =
      match m.stack.pop with
      | .ok (caller, stack) => (.ok caller, { m with stack })
      | .error cause => (.error (.stack cause), m) := by
  rw [popStack, run_get_bind]
  rcases m.stack.pop with cause | ⟨caller, stack⟩ <;> rfl

theorem run_awaitKey (x : Register) :
    m.run (awaitKey x.val) = (.ok (m.takeKey x).signal, (m.takeKey x).settle) := by
  rw [awaitKey, run_get_bind, takeKey]
  rcases m.keypad.lowestDown with - | key
  · rfl
  · simp only [dif_pos x.isLt]
    rfl

/-- A machine that waits for a key to put into a register that does not exist goes on waiting,
and crashes on the first key. -/
theorem run_awaitKey_of_le {register : Nat} (h : 16 ≤ register)
    (hm : m.mode = .awaitingKey register) :
    m.run (awaitKey register) =
      (if m.keypad.lowestDown.isSome then .error .crash else .ok .wait, m) := by
  rw [awaitKey, run_get_bind]
  rcases m.keypad.lowestDown with - | key
  · rw [← hm]
    rfl
  · simp only [dif_neg (Nat.not_lt.2 h)]
    rfl

/-! ### Carrying out -/

/-- **Carrying out an instruction leads to its effect**, and where it fails, the machine is
handed back as it was. -/
theorem execute_eq (m : Machine) (i : Instruction) :
    m.execute i =
      match m.effect i with
      | .ok e => (.ok e.signal, e.settle)
      | .error fault => (.error fault, m) := by
  rw [execute, carryOut, run_bind]
  cases i with
  | ret =>
    rw [handle, run_bind, run_popStack, effect]
    rcases m.stack.pop with cause | ⟨caller, stack⟩ <;> rfl
  | call target =>
    rw [handle, run_get_bind, run_bind, run_pushStack, effect]
    rcases m.stack.push m.counter with cause | stack <;> rfl
  | draw x y height =>
    rw [handle, run_get_bind, run_bind, run_settled, effect, Memory.block]
    rcases Memory.check m.index height with fault | - <;> rfl
  | awaitKey x =>
    rw [handle, run_bind, run_awaitKey]
    rfl
  | setSound x =>
    rw [handle, run_get_bind, effect, changeSound]
    rcases Tone.edge? m.sound m.registers[x] with - | edge <;> rfl
  | storeDecimal x =>
    rw [handle, run_get_bind, run_bind, run_settled, effect, Memory.store, length_decimalDigits]
    rcases Memory.check m.index 3 with fault | - <;> rfl
  | storeRegisters x =>
    rw [handle, run_get_bind, run_bind, run_settled, effect, Memory.store, length_valuesUpTo]
    rcases Memory.check m.index (x.val + 1) with fault | - <;> rfl
  | fillRegisters x =>
    rw [handle, run_get_bind, run_bind, run_settled, effect, Memory.block]
    rcases Memory.check m.index (x.val + 1) with fault | - <;> rfl
  | _ => rfl

theorem execute_of_effect {i : Instruction} {e : Effect} (h : m.effect i = .ok e) :
    m.execute i = (.ok e.signal, e.settle) := by
  rw [execute_eq, h]

theorem execute_of_fault {i : Instruction} {fault : Fault} (h : m.effect i = .error fault) :
    m.execute i = (.error fault, m) := by
  rw [execute_eq, h]

/-- An instruction that is carried out and fails leaves the machine as it was. -/
theorem eq_of_execute_error {n : Machine} {i : Instruction} {fault : Fault}
    (h : m.execute i = (.error fault, n)) : n = m := by
  rw [execute_eq] at h
  rcases he : m.effect i with other | e <;> rw [he] at h <;> cases h
  rfl

end Machine

end ChipEight

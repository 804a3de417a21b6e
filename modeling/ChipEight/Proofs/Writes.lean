/-
ChipEight/Proofs/Writes.lean

What a cycle writes, down to the single register and the single byte.  The footprint of an
instruction names whole parts of the machine; here it is made finer where a part is large:

    a register that changed was put there by an instruction that `Puts` to it,
    a byte that changed was stored by `FX33` or `FX55` at an address of their block,

and the bytes that are stored, and the draw of a random byte, are told exactly.  `Written m n`
collects all of it, part by part, with the instructions that a part can change by.

A run, then, has no other way to change a byte than a cycle that stores there, whatever the
program makes of itself (`exists_store_of_memory_ne`).

Main statement: `cycle_writes_only`.
-/
import ChipEight.Proofs.Obstacle
import ChipEight.Proofs.Run

namespace ChipEight

/-- The operations that set the flag register. -/
def Alu.SetsFlag : Alu → Prop
  | add | subtract | shiftRight | subtractFrom | shiftLeft => True
  | copy | or | and | xor => False

/-- The instruction may put a byte into the register.  `FX0A` is left out: it does so only if
it finds a key. -/
def Instruction.Puts (r : Register) : Instruction → Prop
  | setByte x _ | addByte x _ | random x _ | readDelay x => r = x
  | combine op x _ => r = x ∨ r = Machine.flagRegister ∧ op.SetsFlag
  | draw .. | addToIndex _ => r = Machine.flagRegister
  | fillRegisters x => r ≤ x
  | _ => False

namespace Machine

/-- The bytes that an instruction stores, from the index on. -/
def stored (m : Machine) : Instruction → List UInt8
  | .storeDecimal x => decimalDigits (m.registers.get x)
  | .storeRegisters x => m.valuesUpTo x
  | _ => []

/-- The next cycle looks for a key to put into the register: the machine waits with it, or
executes the `FX0A` that asks for it. -/
def Asks (m : Machine) (x : Register) : Prop :=
  m.mode = .awaitingKey x.val ∨ m.Executes (.awaitKey x)

/-- The next cycle stores a byte at the address, by `FX33` or by `FX55`. -/
def StoresAt (m : Machine) (address : Nat) : Prop :=
  (∃ x, m.Executes (.storeDecimal x) ∧ m.index ≤ address ∧ address < m.index + 3) ∨
  ∃ x, m.Executes (.storeRegisters x) ∧ m.index ≤ address ∧ address ≤ m.index + x.val

/-- `Written m n`: the machine `n` differs from `m` in the word, in the counter, and otherwise
only in what the next cycle of `m` writes. -/
structure Written (m n : Machine) : Prop where
  keypad : n.keypad = m.keypad
  memory : ∀ address (_ : address < 4096), n.memory[address] ≠ m.memory[address] →
    m.StoresAt address
  decimal : ∀ x, m.Executes (.storeDecimal x) → ∃ hundreds tens units,
    n.memory[m.index]? = some hundreds ∧ n.memory[m.index + 1]? = some tens ∧
      n.memory[m.index + 2]? = some units ∧ hundreds ≤ 9 ∧ tens ≤ 9 ∧ units ≤ 9 ∧
      100 * hundreds.toNat + 10 * tens.toNat + units.toNat = (m.registers.get x).toNat
  block : ∀ x, m.Executes (.storeRegisters x) → ∀ r ≤ x,
    n.memory[m.index + r.val]? = some (m.registers.get r)
  screen : n.screen ≠ m.screen →
    m.Executes .clearScreen ∨ ∃ x y height, m.Executes (.draw x y height)
  stack : n.stack ≠ m.stack → m.Executes .ret ∨ ∃ target, m.Executes (.call target)
  index : n.index ≠ m.index →
    (∃ target, m.Executes (.setIndex target)) ∨
      ∃ x, m.Executes (.addToIndex x) ∨ m.Executes (.pointToGlyph x) ∨
        m.Executes (.storeRegisters x) ∨ m.Executes (.fillRegisters x)
  delay : n.delay ≠ m.delay → ∃ x, m.Executes (.setDelay x)
  sound : n.sound ≠ m.sound → ∃ x, m.Executes (.setSound x)
  source : n.source ≠ m.source → ∃ x mask, m.Executes (.random x mask)
  byte : ∀ x mask, m.Executes (.random x mask) → n.source = m.source.rest
  mode : n.mode ≠ m.mode → ∃ x, m.Asks x
  registers : ∀ r : Register, n.registers.get r ≠ m.registers.get r →
    (∃ i, m.Executes i ∧ i.Puts r) ∨ m.Asks r ∧ ∃ key, m.keypad.isDown key = true

variable {m : Machine} {i : Instruction} {e : Effect} {r x : Register}

/-! ### Registers -/

theorem get_put (m : Machine) (x r : Register) (byte : UInt8) :
    (m.put x byte).registers.get r = if x = r then byte else m.registers.get r := by
  show (m.put x byte).registers[r] = if x = r then byte else m.registers[r]
  simp [put, Vector.getElem_set, Fin.ext_iff]

theorem get_put_self (m : Machine) (x : Register) (byte : UInt8) :
    (m.put x byte).registers.get x = byte := by
  rw [get_put, if_pos rfl]

theorem get_put_of_ne (h : r ≠ x) (m : Machine) (byte : UInt8) :
    (m.put x byte).registers.get r = m.registers.get r := by
  rw [get_put, if_neg h.symm]

/-- Setting the flag register or not leaves the others alone. -/
theorem get_putFlag?_of_ne {flag? : Option UInt8} (h : flag? = none ∨ r ≠ flagRegister)
    (m : Machine) : (m.putFlag? flag?).registers.get r = m.registers.get r := by
  cases flag? with
  | none => rfl
  | some flag => exact get_put_of_ne (h.resolve_left nofun) m flag

theorem flag?_eq_none {op : Alu} (h : ¬ op.SetsFlag) (a b : UInt8) : op.flag? a b = none := by
  cases op <;> first | rfl | exact absurd trivial h

/-- Filling stops where the bytes end. -/
theorem get_fill_of_le {bytes : List UInt8} (h : bytes.length ≤ r.val) (m : Machine) :
    (m.fill bytes).registers.get r = m.registers.get r := by
  show (m.fill bytes).registers[r] = m.registers[r]
  simp [fill, List.getElem?_eq_none h]

/-- Whoever looks for a key changes its own register only, and only if there is a key. -/
theorem eq_of_get_takeKey_ne
    (h : (m.takeKey x).machine.registers.get r ≠ m.registers.get r) :
    r = x ∧ ∃ key, m.keypad.isDown key = true := by
  unfold takeKey at h
  rcases hk : m.keypad.lowestDown with - | key <;> rw [hk] at h
  · exact absurd rfl h
  · refine ⟨Decidable.byContradiction fun hx => h (get_put_of_ne hx m _), key, ?_⟩
    exact (Keypad.lowestDown_eq_some_iff.1 hk).1

/-- An instruction leaves a register alone that it does not put a byte into. -/
theorem get_of_effect (h : m.effect i = .ok e) (hawait : ∀ x, i ≠ .awaitKey x)
    (hr : ¬ i.Puts r) : e.machine.registers.get r = m.registers.get r := by
  cases i with
  | awaitKey x => exact absurd rfl (hawait x)
  | setByte x byte | addByte x byte | readDelay x =>
    cases h
    exact get_put_of_ne hr m _
  | random x mask =>
    cases h
    exact get_put_of_ne hr { m with source := m.source.rest } _
  | combine op x y =>
    cases h
    obtain ⟨hx, hflag⟩ := not_or.1 hr
    have hf : op.flag? m.registers[x] m.registers[y] = none ∨ r ≠ flagRegister := by
      by_cases hop : op.SetsFlag
      · exact .inr fun hr' => hflag ⟨hr', hop⟩
      · exact .inl (flag?_eq_none hop _ _)
    exact (get_put_of_ne hx _ _).trans (get_putFlag?_of_ne hf m)
  | draw x y height =>
    simp only [effect] at h
    split at h <;> cases h
    exact get_put_of_ne hr _ _
  | addToIndex x =>
    cases h
    exact get_put_of_ne hr m _
  | fillRegisters x =>
    simp only [effect] at h
    rcases hb : m.memory.block m.index (x.val + 1) with fault | bytes <;> rw [hb] at h <;> cases h
    -- the block has as many bytes as there are registers up to `x`
    have hlength := Memory.length_of_block hb
    have hlt : x.val < r.val := Nat.lt_of_not_le hr
    exact get_fill_of_le (by omega) m
  | _ =>
    have hsame : e.machine.registers = m.registers :=
      agree_of_effect (p := .registers) h (by simp [Instruction.changes])
    rw [hsame]

/-! ### Memory -/

/-- The memory after an instruction holds what the instruction stored. -/
theorem memory_of_effect (h : m.effect i = .ok e) :
    e.machine.memory = m.memory.overwrite m.index (m.stored i) := by
  cases i with
  | storeDecimal x | storeRegisters x =>
    simp only [effect] at h
    split at h <;> cases h
    rename_i hs
    exact (Memory.eq_overwrite_of_store hs).2
  | _ =>
    exact agree_of_effect (p := .memory) h (by simp [Instruction.changes])

theorem memory_of_executes (h : m.Executes i) :
    m.cycle.2.memory = m.memory.overwrite m.index (m.stored i) := by
  obtain ⟨w, e, he, hcycle⟩ := h.effect
  rw [hcycle]
  have hmemory := memory_of_effect he
  -- what is stored does not depend on the word that was read
  cases i <;> exact hmemory

/-- What is stored ends inside the memory. -/
theorem stored_fits (h : m.Executes i) (hs : m.stored i ≠ []) :
    m.index + (m.stored i).length ≤ 4096 := by
  obtain ⟨w, e, he, -⟩ := h.effect
  -- a block that goes past the end would have been in the way
  have ho := obstacle?_of_effect he
  rw [obstacle?_word] at ho
  cases i with
  | storeDecimal x =>
    rw [stored, length_decimalDigits]
    exact pastEnd?_eq_none_iff.1 ho
  | storeRegisters x =>
    rw [stored, length_valuesUpTo]
    exact pastEnd?_eq_none_iff.1 ho
  | _ => exact absurd rfl hs

/-- A byte of what was stored is found where it was stored. -/
theorem getElem?_of_executes (h : m.Executes i) (offset : Nat)
    (ho : offset < (m.stored i).length) :
    m.cycle.2.memory[m.index + offset]? = some (m.stored i)[offset] := by
  have hfits := stored_fits h (List.ne_nil_of_length_pos (by omega))
  rw [memory_of_executes h, Vector.getElem?_eq_getElem (by omega),
    Memory.getElem_overwrite _ _ _ (by omega), if_pos (by omega), Nat.add_sub_cancel_left,
    List.getElem?_eq_getElem ho, Option.getD_some]

/-- A byte that is not the same after a cycle was stored by it. -/
theorem storesAt_of_memory_ne {address : Nat} (ha : address < 4096)
    (h : m.cycle.2.memory[address] ≠ m.memory[address]) : m.StoresAt address := by
  have hchanged : ¬ m.Agree m.cycle.2 .memory := fun hsame => by
    have hmemory : m.cycle.2.memory = m.memory := hsame
    exact h (by rw [hmemory])
  obtain ⟨i, hi, hpart⟩ := executed_of_changed (by decide) hchanged
  simp only [memory_of_executes hi, Memory.getElem_overwrite _ _ _ ha] at h
  -- beside what was stored the byte is the old one
  have hinside : m.index ≤ address ∧ address < m.index + (m.stored i).length :=
    Decidable.byContradiction fun houtside => h (if_neg houtside)
  cases i with
  | storeDecimal x => exact .inl ⟨x, hi, hinside⟩
  | storeRegisters x =>
    rw [stored, length_valuesUpTo] at hinside
    exact .inr ⟨x, hi, hinside.1, by omega⟩
  | _ => simp [Instruction.changes] at hpart

/-- The three decimal digits make up the byte. -/
theorem decimalDigits_value (byte : UInt8) :
    byte / 100 ≤ 9 ∧ byte / 10 % 10 ≤ 9 ∧ byte % 10 ≤ 9 ∧
      100 * (byte / 100).toNat + 10 * (byte / 10 % 10).toNat + (byte % 10).toNat =
        byte.toNat := by
  have hlt := byte.toNat_lt
  simp only [UInt8.le_iff_toNat_le, UInt8.toNat_div, UInt8.toNat_mod, UInt8.reduceToNat]
  omega

/-! ### One cycle -/

/-- A register that is not the same after a cycle was put there by it. -/
theorem puts_of_register_ne (h : m.cycle.2.registers.get r ≠ m.registers.get r) :
    (∃ i, m.Executes i ∧ i.Puts r) ∨ m.Asks r ∧ ∃ key, m.keypad.isDown key = true := by
  have hchanged : ¬ m.Agree m.cycle.2 .registers := fun hsame => by
    have hregisters : m.cycle.2.registers = m.registers := hsame
    exact h (by rw [hregisters])
  obtain ⟨i, hi, -⟩ | ⟨x, hx, -⟩ := changed_by_cycle (by decide) (by decide) hchanged
  · obtain ⟨w, e, he, hcycle⟩ := hi.effect
    -- `FX0A` is not among those that put a byte, since it needs a key for that
    by_cases hawait : ∃ x, i = .awaitKey x
    · obtain ⟨x, rfl⟩ := hawait
      cases he
      rw [hcycle] at h
      obtain ⟨rfl, hkey⟩ := eq_of_get_takeKey_ne (m := { m with word := w }) h
      exact .inr ⟨.inr hi, hkey⟩
    · have hne : ∀ x, i ≠ .awaitKey x := fun x hx => hawait ⟨x, hx⟩
      refine .inl ⟨i, hi, Classical.byContradiction fun hputs => h ?_⟩
      rw [hcycle]
      exact get_of_effect (m := { m with word := w }) he hne hputs
  · rw [cycle_of_awaiting hx] at h
    obtain ⟨rfl, hkey⟩ := eq_of_get_takeKey_ne h
    exact .inr ⟨.inl hx, hkey⟩

/-- A cycle writes what it is said to write. -/
theorem written_cycle (m : Machine) : m.Written m.cycle.2 where
  keypad := m.keypad_cycle
  memory := fun _ => storesAt_of_memory_ne
  registers := fun _ => puts_of_register_ne
  decimal := fun x h => by
    have hlength : (m.stored (.storeDecimal x)).length = 3 := rfl
    exact ⟨_, _, _, getElem?_of_executes h 0 (by omega), getElem?_of_executes h 1 (by omega),
      getElem?_of_executes h 2 (by omega), decimalDigits_value (m.registers.get x)⟩
  block := fun x h r hr => by
    have hlength : (m.stored (.storeRegisters x)).length = x.val + 1 := length_valuesUpTo x
    have hle : r.val ≤ x.val := hr
    rw [getElem?_of_executes h r.val (by omega)]
    show _ = some m.registers[r]
    simp [stored, valuesUpTo]
  screen := fun h => by
    obtain ⟨i, hi, hpart⟩ := executed_of_changed (p := .screen) (by decide) h
    cases i with
    | clearScreen => exact .inl hi
    | draw x y height => exact .inr ⟨x, y, height, hi⟩
    | _ => simp [Instruction.changes] at hpart
  stack := fun h => by
    obtain ⟨i, hi, hpart⟩ := executed_of_changed (p := .stack) (by decide) h
    cases i with
    | ret => exact .inl hi
    | call target => exact .inr ⟨target, hi⟩
    | _ => simp [Instruction.changes] at hpart
  index := fun h => by
    obtain ⟨i, hi, hpart⟩ := executed_of_changed (p := .index) (by decide) h
    cases i with
    | setIndex target => exact .inl ⟨target, hi⟩
    | addToIndex x => exact .inr ⟨x, .inl hi⟩
    | pointToGlyph x => exact .inr ⟨x, .inr (.inl hi)⟩
    | storeRegisters x => exact .inr ⟨x, .inr (.inr (.inl hi))⟩
    | fillRegisters x => exact .inr ⟨x, .inr (.inr (.inr hi))⟩
    | _ => simp [Instruction.changes] at hpart
  delay := fun h => by
    obtain ⟨i, hi, hpart⟩ := executed_of_changed (p := .delay) (by decide) h
    cases i with
    | setDelay x => exact ⟨x, hi⟩
    | _ => simp [Instruction.changes] at hpart
  sound := fun h => by
    obtain ⟨i, hi, hpart⟩ := executed_of_changed (p := .sound) (by decide) h
    cases i with
    | setSound x => exact ⟨x, hi⟩
    | _ => simp [Instruction.changes] at hpart
  source := fun h => by
    obtain ⟨i, hi, hpart⟩ := executed_of_changed (p := .source) (by decide) h
    cases i with
    | random x mask => exact ⟨x, mask, hi⟩
    | _ => simp [Instruction.changes] at hpart
  byte := fun x mask h => by
    obtain ⟨w, e, he, hcycle⟩ := h.effect
    cases he
    rw [hcycle]
    rfl
  mode := fun h => by
    obtain ⟨i, hi, hpart⟩ | ⟨x, hx, -⟩ :=
      changed_by_cycle (p := .mode) (by decide) (by decide) h
    · cases i with
      | awaitKey x => exact ⟨x, .inr hi⟩
      | _ => simp [Instruction.changes] at hpart
    · exact ⟨x, .inl hx⟩

end Machine

/-! ### Whole runs -/

namespace Session

variable {s : Session}

/-- A byte that a run of cycles has changed, with whatever the host does in between, was
stored by one of the cycles. -/
theorem exists_store_of_memory_ne {cs : List Command} (hcs : ∀ c ∈ cs, c.IsPlain)
    {address : Nat} (ha : address < 4096)
    (h : (s.after cs).machine.memory[address] ≠ s.machine.memory[address]) :
    ∃ before later, cs = before ++ .cycle :: later ∧
      (s.after before).machine.StoresAt address := by
  induction cs generalizing s with
  | nil => exact absurd rfl h
  | cons c rest ih =>
    have hc : c.IsPlain := hcs c List.mem_cons_self
    by_cases hsame : (s.perform c).session.machine.memory[address] = s.machine.memory[address]
    · rw [← hsame] at h
      obtain ⟨before, later, rfl, hstore⟩ :=
        ih (fun d hd => hcs d (List.mem_cons_of_mem c hd)) h
      exact ⟨c :: before, later, rfl, hstore⟩
    · -- the host does not reach the memory, so this is a cycle, and the one that stored
      by_cases hcycle : c = .cycle
      · subst hcycle
        rw [perform_cycle] at hsame
        exact ⟨[], rest, rfl, Machine.storesAt_of_memory_ne ha hsame⟩
      · have hmemory : (s.perform c).session.machine.memory = s.machine.memory :=
          agree_perform_plain (p := .memory) hc hcycle (by decide)
        exact absurd (by rw [hmemory]) hsame

/-- **A cycle writes nothing else.**  After a cycle the machine differs, but for the word and
the counter, in what the cycle is said to write and in nothing else; so a byte that any cycles
have changed, in whatever order with ticks and keys, was stored by one of them. -/
theorem cycle_writes_only :
    (∀ m : Machine, m.Written m.cycle.2) ∧
    ∀ (s : Session) (cs : List Command), (∀ c ∈ cs, c.IsPlain) →
      ∀ address (_ : address < 4096),
        (s.after cs).machine.memory[address] ≠ s.machine.memory[address] →
          ∃ before later, cs = before ++ .cycle :: later ∧
            (s.after before).machine.StoresAt address :=
  ⟨Machine.written_cycle, fun _ _ hcs _ ha h => exists_store_of_memory_ne hcs ha h⟩

/-- A program that stores `V0` over its own first byte: one of its cycles is found to store
there. -/
theorem cycle_writes_only_self_overwrite :
    let s := (start (Machine.powerOn ByteSource.zeros) Pacing.usual).after
      [.load [0x60, 0x12, 0xA2, 0x00, 0xF0, 0x55]]
    let cs : List Command := [.cycle, .tick, .cycle, .cycle]
    s.machine.memory[0x200] = 0x60 ∧ (s.after cs).machine.memory[0x200] = 0x12 ∧
      ∃ before later, cs = before ++ .cycle :: later ∧
        (s.after before).machine.StoresAt 0x200 := by
  intro s cs
  have hbytes : s.machine.memory[0x200] = 0x60 ∧ (s.after cs).machine.memory[0x200] = 0x12 := by
    decide +kernel
  refine ⟨hbytes.1, hbytes.2, cycle_writes_only.2 s cs (by decide) 0x200 (by decide) ?_⟩
  rw [hbytes.1, hbytes.2]
  decide

end Session

end ChipEight

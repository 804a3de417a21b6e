/-
ChipEight/Proofs/Safety.lean

No index out of range.  In bounds the checked machine of `ChipEight.Proofs.Checked` comes to
what the machine comes to:

    m.InBounds  →  m.cycle? = some m.cycle,

and so do its frames and every proper command.  The checks that the machine makes by itself
are not enough for this: whether the block at the index is inside the memory is decided by a
sum, and the sum has to fit first.

Main statement: `Reachable.safe`, for every session that the host can get to.
-/
import ChipEight.Proofs.Bounds
import ChipEight.Proofs.Checked

namespace ChipEight

namespace Checked

variable {α : Type} {n : Nat}

/-! ### Addresses and cells -/

theorem sum?_eq {a b : Nat} (h : a + b < 65536) : sum? a b = some (a + b) :=
  if_pos h

theorem set?_eq {v : Vector α n} {i : Nat} (h : i < n) (a : α) :
    set? v i a = some (v.set i a) :=
  dif_pos h

/-- Values inside the vector are read. -/
theorem read?_eq {v : Vector α n} {start length : Nat} (hn : n < 65536)
    (h : start + length ≤ n) :
    read? v start length = some ((v.toList.drop start).take length) := by
  unfold read?
  rw [sum?_eq (by omega)]
  exact if_pos h

/-- Values written inside the vector take the place of those that were there. -/
theorem write?_eq {v : Vector α n} {start : Nat} {as : List α} (hn : n < 65536)
    (h : start + as.length ≤ n) :
    write? v start as = some (Vector.ofFn fun i =>
      if start ≤ i.val then as[i.val - start]?.getD v[i] else v[i]) := by
  induction as generalizing v start with
  | nil =>
    refine congrArg some (Vector.ext fun i hi => ?_)
    simp
  | cons a rest ih =>
    rw [List.length_cons] at h
    have hlt : start < n := by omega
    have hrest : start + 1 + rest.length ≤ n := by omega
    unfold write?
    rw [sum?_eq (by omega), set?_eq hlt]
    refine (ih hrest).trans (congrArg some (Vector.ext fun i hi => ?_))
    simp only [Vector.getElem_ofFn, Fin.getElem_fin, Vector.getElem_set]
    rcases Nat.lt_trichotomy i start with hbelow | rfl | habove
    · rw [if_neg (by omega), if_neg (by omega), if_neg (by omega)]
    · rw [if_neg (by omega), if_pos rfl, if_pos (Nat.le_refl i), Nat.sub_self]
      rfl
    · have hsub : i - start = i - (start + 1) + 1 := by omega
      rw [if_pos (by omega), if_neg (by omega), if_pos (by omega), hsub,
        List.getElem?_cons_succ]

end Checked

open Checked

/-! ### Memory -/

namespace Memory

variable {m : Memory} {address length : Nat} {bytes : List UInt8}

theorem read?_eq_slice (h : address + length ≤ 4096) :
    read? m address length = some (m.slice address length) := by
  rw [read?_eq (by decide) h]
  refine congrArg some (List.ext_getElem ?_ fun i h₁ h₂ => ?_)
  · simp only [List.length_take, List.length_drop, Vector.length_toList, length_slice]
    omega
  · have hi : address + i < 4096 := by
      rw [length_slice] at h₂
      omega
    rw [getElem_slice, Vector.getElem?_eq_getElem hi]
    simp

theorem write?_eq_overwrite (h : address + bytes.length ≤ 4096) :
    write? m address bytes = some (m.overwrite address bytes) := by
  rw [write?_eq (by decide) h]
  refine congrArg some (Vector.ext fun i hi => ?_)
  rw [Vector.getElem_ofFn, getElem_overwrite _ _ _ hi]
  by_cases hstart : address ≤ i
  · by_cases hstop : i < address + bytes.length
    · have hin : i - address < bytes.length := by omega
      rw [if_pos hstart, if_pos ⟨hstart, hstop⟩, List.getElem?_eq_getElem hin]
      rfl
    · have hout : bytes.length ≤ i - address := by omega
      rw [if_pos hstart, if_neg fun h => hstop h.2, List.getElem?_eq_none hout]
      rfl
  · rw [if_neg hstart, if_neg fun h => hstart h.1]
    rfl

theorem fetch?_eq (h : address ≤ 0x1002) : m.fetch? address = some (m.fetch address) := by
  have hsum : address + 1 < 65536 := by omega
  have hcrash : ¬ UInt64.size ≤ address + 1 := Nat.not_le_of_lt (lt_size_of_lt hsum)
  unfold fetch? fetch wordAt
  rw [sum?_eq hsum, if_neg hcrash]
  by_cases hin : address + 1 < 4096
  · have hlow : address < 4096 := by omega
    simp [hin, hlow]
  · simp [hin]

/-- A block whose end fits into sixteen bits is refused only if it leaves the memory. -/
theorem check_eq (h : address + length < 65536) :
    check address length =
      if address + length ≤ 4096 then .ok () else .error (.access ⟨address, length⟩) := by
  have hcrash : ¬ UInt64.size ≤ address + length := Nat.not_le_of_lt (lt_size_of_lt h)
  rw [check, if_neg hcrash]
  by_cases hin : address + length ≤ 4096
  · rw [if_neg (by omega), if_pos hin]
  · rw [if_pos (by omega), if_neg hin]

theorem block?_eq (h : address + length < 65536) :
    m.block? address length = some (m.block address length) := by
  unfold block? block
  rw [sum?_eq h, check_eq h]
  by_cases hin : address + length ≤ 4096
  · simp [hin, read?_eq_slice hin, Except.map]
  · simp [hin, Except.map]

theorem store?_eq (h : address + bytes.length < 65536) :
    m.store? address bytes = some (m.store address bytes) := by
  unfold store? store
  rw [sum?_eq h, check_eq h]
  by_cases hin : address + bytes.length ≤ 4096
  · simp [hin, write?_eq_overwrite hin, Except.map]
  · simp [hin, Except.map]

end Memory

theorem CallStack.push?_eq (s : CallStack) (address : Nat) :
    s.push? address = some (s.push address) := by
  have hroom := s.length_le
  unfold push? push depth capacity
  by_cases hfull : s.entries.length = 16
  · rw [if_pos hfull, dif_neg (by omega)]
  · rw [if_neg hfull, dif_pos (by omega), dif_pos (by omega)]

/-! ### The screen -/

namespace Screen

theorem flip?_eq (s : Screen) (x y : Nat) : s.flip? x y = some (s.flip x y) := by
  have hplace : y % 32 * 64 + x % 64 < 2048 := by omega
  unfold flip?
  simp only [Vector.getElem?_eq_getElem hplace, set?_eq hplace, Option.bind_eq_bind,
    Option.bind_some]
  rfl

theorem flipAll?_eq (s : Screen) (places : List (Nat × Nat)) :
    s.flipAll? places = some (s.flipAll places) := by
  induction places generalizing s with
  | nil => rfl
  | cons place rest ih =>
    obtain ⟨x, y⟩ := place
    unfold flipAll?
    rw [flip?_eq]
    simp only [Option.bind_eq_bind, Option.bind_some, ih]
    rfl

theorem draw?_eq (s : Screen) (x y : Nat) (rows : List UInt8) :
    s.draw? x y rows = some (s.draw x y rows) := by
  unfold draw?
  rw [flipAll?_eq]
  rfl

end Screen

/-! ### Instructions -/

namespace Machine

variable {m : Machine} {e : Effect}

theorem value?_eq (m : Machine) (x : Register) :
    m.value? x = some (getElem m.registers x x.isLt) :=
  Vector.getElem?_eq_getElem x.isLt

theorem put?_eq (m : Machine) (x : Register) (byte : UInt8) :
    m.put? x byte = some (m.put x byte) := by
  unfold put?
  rw [set?_eq x.isLt]
  rfl

/-- The flag register by its number. -/
theorem put?_flag (m : Machine) (byte : UInt8) :
    m.put? 15 byte = some (m.put flagRegister byte) :=
  put?_eq m flagRegister byte

theorem keyDown?_eq (m : Machine) (x : Register) :
    m.keyDown? x = some (m.keypad.isDown (m.keyIn x)) := by
  unfold keyDown?
  rw [value?_eq]
  exact Vector.getElem?_eq_getElem (m.keyIn x).isLt

theorem takeKey?_eq (m : Machine) (x : Register) : m.takeKey? x = some (m.takeKey x) := by
  unfold takeKey? takeKey
  rcases m.keypad.lowestDown with - | key
  · rfl
  · simp only [put?_eq, Option.bind_eq_bind, Option.bind_some]

theorem drawSprite?_eq (m : Machine) (x y : Register) (rows : List UInt8) :
    m.drawSprite? x y rows = some (m.drawSprite x y rows) := by
  unfold drawSprite?
  simp only [value?_eq, Screen.draw?_eq, put?_flag, Option.bind_eq_bind, Option.bind_some]
  rfl

theorem read?_registers (m : Machine) (x : Register) :
    read? m.registers 0 (x.val + 1) = some (m.valuesUpTo x) := by
  rw [read?_eq (by decide) (by omega)]
  rfl

theorem write?_registers (m : Machine) {bytes : List UInt8} (h : bytes.length ≤ 16) :
    write? m.registers 0 bytes = some (m.fill bytes).registers := by
  rw [write?_eq (by decide) (by omega)]
  rfl

/-- In bounds the checked effect of an instruction in range is its effect. -/
theorem effect?_eq {i : Instruction} (h : m.InBounds) (hi : i.InRange) :
    m.effect? i = some (m.effect i) := by
  have hindex := h.index
  cases i with
  | clearScreen | jump target | setIndex target => rfl
  | call target =>
    simp only [effect?, effect, CallStack.push?_eq, Option.bind_eq_bind, Option.bind_some]
    rcases m.stack.push m.counter with cause | stack <;> rfl
  | ret =>
    rcases hs : m.stack.pop with cause | ⟨caller, stack⟩
    · simp only [effect?, effect, hs]
    · have hmem : caller ∈ m.stack.entries := by
        rw [CallStack.entries_of_pop hs]
        exact List.mem_cons_self
      have hcaller := h.entries caller hmem
      have hsum : caller + 2 < 65536 := by omega
      simp only [effect?, effect, hs, sum?_eq hsum, Option.bind_eq_bind, Option.bind_some]
      rfl
  | combine op x y =>
    simp only [effect?, effect, value?_eq, Option.bind_eq_bind, Option.bind_some]
    rcases op.flag? m.registers[x] m.registers[y] with - | flag <;>
      simp only [put?_flag, put?_eq, Option.bind_some, putFlag?]
  | jumpOffset target =>
    have ht : target < 4096 := hi
    have hv : m.value? 0 = some m.registers[0] := value?_eq m 0
    have hsum : m.registers[0].toNat + target < 65536 := by
      have := m.registers[0].toNat_lt
      omega
    simp only [effect?, effect, hv, sum?_eq hsum, Option.bind_eq_bind, Option.bind_some]
  | draw x y height =>
    have hh : height < 16 := hi
    have hsum : m.index + height < 65536 := by omega
    -- the sum fits, so a sprite past the end is refused and not read
    simp only [effect?, effect, Memory.block?_eq hsum, Option.bind_eq_bind, Option.bind_some]
    rcases m.memory.block m.index height with cause | rows
    · rfl
    · simp only [drawSprite?_eq, Option.bind_some]
  | addToIndex x =>
    have hsum : m.index + m.registers[x].toNat < 65536 := by
      have := m.registers[x].toNat_lt
      omega
    simp only [effect?, effect, value?_eq, sum?_eq hsum, put?_flag, Option.bind_eq_bind,
      Option.bind_some, moveIndex]
  | pointToGlyph x =>
    have hsum : Font.location + Font.glyphSize * m.registers[x].toNat < 65536 := by
      have := m.registers[x].toNat_lt
      show 0 + 5 * _ < 65536
      omega
    simp only [effect?, effect, value?_eq, sum?_eq hsum, Option.bind_eq_bind, Option.bind_some]
    rfl
  | storeDecimal x =>
    have hsum : m.index + (decimalDigits m.registers[x]).length < 65536 := by
      rw [length_decimalDigits]
      omega
    simp only [effect?, effect, value?_eq, Memory.store?_eq hsum, Option.bind_eq_bind,
      Option.bind_some]
    rcases m.memory.store m.index (decimalDigits m.registers[x]) with cause | memory <;> rfl
  | storeRegisters x =>
    have hsum : m.index + (m.valuesUpTo x).length < 65536 := by
      rw [length_valuesUpTo]
      omega
    have hend : m.index + (x.val + 1) < 65536 := by omega
    simp only [effect?, effect, read?_registers, Memory.store?_eq hsum, sum?_eq hend,
      Option.bind_eq_bind, Option.bind_some]
    rcases m.memory.store m.index (m.valuesUpTo x) with cause | memory <;> rfl
  | fillRegisters x =>
    have hend : m.index + (x.val + 1) < 65536 := by omega
    simp only [effect?, effect, Memory.block?_eq hend, Option.bind_eq_bind, Option.bind_some]
    rcases hb : m.memory.block m.index (x.val + 1) with cause | bytes
    · rfl
    · -- the block that was read has a byte for each register that is filled
      have hlength : bytes.length ≤ 16 := by
        have hlt := x.isLt
        rw [Memory.length_of_block hb]
        omega
      simp only [write?_registers m hlength, sum?_eq hend, Option.bind_some]
      rfl
  | _ =>
    simp only [effect?, effect, value?_eq, put?_eq, keyDown?_eq, takeKey?_eq,
      Option.bind_eq_bind, Option.bind_some]

/-! ### Cycles and frames -/

theorem advance?_eq (hc : m.counter ≤ 0x1002) (move : Advance) :
    m.advance? move = some (m.advance move) := by
  have hsum : ∀ move : Advance, move.extent ≤ 4 →
      sum? m.counter move.extent = some (m.counter + move.extent) := fun move hmove =>
    sum?_eq (by omega)
  cases move with
  | jump target => rfl
  | hold =>
    simp only [advance?, hsum .hold (by decide)]
    rfl
  | next =>
    simp only [advance?, hsum .next (by decide)]
    rfl
  | skip =>
    simp only [advance?, hsum .skip (by decide)]
    rfl

/-- In bounds a checked word is run as a word. -/
theorem runWord?_eq (h : m.InBounds) (w : Word) : m.runWord? w = some (m.runWord w) := by
  unfold runWord?
  rcases hi : Instruction.ofWord? w with - | i
  · rw [runWord_of_unknown hi]
  · simp only [effect?_eq h (Instruction.inRange_of_ofWord? hi), Option.bind_eq_bind,
      Option.bind_some]
    rcases he : m.effect i with fault | e
    · rw [runWord_of_fault hi he]
    · have hc : e.machine.counter ≤ 0x1002 := by
        rw [counter_of_effect he]
        exact h.counter
      rw [runWord_of_effect hi he]
      simp only [advance?_eq hc, Option.bind_some]
      rfl

/-- In bounds a checked cycle is a cycle. -/
theorem cycle?_eq (h : m.InBounds) : m.cycle? = some m.cycle := by
  unfold cycle?
  rcases hm : m.mode with - | x
  · simp only [Memory.fetch?_eq h.counter, Option.bind_eq_bind, Option.bind_some]
    rcases hf : m.memory.fetch m.counter with fault | w
    · rw [cycle_of_fetch_error hm hf]
    · have hrun := runWord?_eq (h.withWord w) w
      simp only [hm] at hrun
      rw [cycle_of_fetch hm hf]
      simp only [hm, hrun]
  · have hx : x < 16 := (h.waiting x hm).1
    have hkey : m.takeKey? x = some (m.takeKey ⟨x, hx⟩) := takeKey?_eq m ⟨x, hx⟩
    have hc : (m.takeKey ⟨x, hx⟩).machine.counter ≤ 0x1002 := by
      rw [counter_of_effect (m := m) (i := .awaitKey ⟨x, hx⟩) rfl]
      exact h.counter
    simp only [hkey, advance?_eq hc, Option.bind_eq_bind, Option.bind_some]
    rw [cycle_of_awaiting (x := ⟨x, hx⟩) hm]
    rfl

theorem burst?_eq (skipUnknown : Bool) (count : Nat) (h : m.InBounds) :
    burst? skipUnknown count m = some (burst skipUnknown count m) := by
  induction count generalizing m with
  | zero => rfl
  | succ count ih =>
    have hnext : m.cycle.2.InBounds := inBounds_cycle h
    have hover := fun w => inBounds_stepOver (w := w) h
    unfold burst? burst
    rw [cycle?_eq h]
    generalize m.cycle = r at hnext hover ⊢
    rcases r with ⟨fault | signal, after⟩
    · rcases fault with (w | ⟨pointer, size⟩) | cause | cause | -
      · cases skipUnknown with
        | false => rfl
        | true =>
          -- the word that is stepped over was in memory, so the move adds up
          have hc : after.counter ≤ 0x1002 := InBounds.counter hnext
          simp only [Option.bind_eq_bind, Option.bind_some, advance?_eq hc]
          exact ih (hover w rfl)
      · rfl
      · rfl
      · rfl
      · rfl
    · cases signal with
      | wait => rfl
      | tone edge =>
        simp only [Option.bind_eq_bind, Option.bind_some, ih hnext]
      | quiet | redraw => exact ih hnext

theorem frame?_eq (pacing : Pacing) (keys : Keypad) (h : m.InBounds) :
    frame? pacing keys m = some (frame pacing keys m) := by
  have hkeys : { m with keypad := keys }.InBounds := ⟨h.entries, h.counter, h.index, h.waiting⟩
  unfold frame? frame
  rw [burst?_eq pacing.skipUnknown pacing.cyclesPerTick hkeys]
  simp only [Option.bind_eq_bind, Option.bind_some]
  generalize burst pacing.skipUnknown pacing.cyclesPerTick { m with keypad := keys } = b
  rcases hb : b.fault? with - | fault <;> rfl

/-! ### Commands -/

theorem load?_eq (m : Machine) (data : List UInt8) : m.load? data = some (m.load data) := by
  unfold load? load
  by_cases hfits : data.length ≤ Memory.programRoom
  · have hin : Memory.programStart + data.length ≤ 4096 := by
      have : data.length ≤ 4096 - 0x200 := hfits
      show 0x200 + data.length ≤ 4096
      omega
    simp [hfits, Memory.write?_eq_overwrite hin]
  · simp [hfits]

theorem write?_font (m : Machine) :
    write? m.memory.clear Font.location Font.glyphs = some m.reset.memory :=
  Memory.write?_eq_overwrite (by decide)

end Machine

namespace Keypad

/-- Sixteen keys written over sixteen keys are the keypad of the former. -/
theorem write?_keys (k : Keypad) {keys : List Bool} (h : keys.length = 16) :
    write? k.keys 0 keys = some ⟨keys.toArray, h⟩ := by
  rw [write?_eq (by decide) (by omega)]
  refine congrArg some (Vector.ext fun i hi => ?_)
  have hin : i < keys.length := by omega
  rw [Vector.getElem_ofFn, if_pos (Nat.zero_le i)]
  simp [hin]

end Keypad

namespace Session

variable {s : Session} {c : Command}

/-- In bounds a proper command comes to the same with every index checked. -/
theorem perform?_eq (h : s.machine.InBounds) (hc : c.IsProper) :
    s.perform? c = some (s.perform c) := by
  cases c with
  | load data =>
    simp only [perform?, perform, Machine.load?_eq, Option.bind_eq_bind, Option.bind_some]
    rcases s.machine.load data with fault | after <;> rfl
  | loadNamed name data =>
    simp only [perform?, perform, Machine.loadProgram]
    rcases Program.make name data with fault | program
    · rfl
    · simp only [Machine.load?_eq, Option.bind_eq_bind, Option.bind_some]
      rcases s.machine.load program.data with fault | after <;> rfl
  | cycle =>
    simp only [perform?, perform, Machine.cycle?_eq h, Option.bind_eq_bind, Option.bind_some]
  | reset =>
    simp only [perform?, Machine.write?_font, Option.bind_eq_bind, Option.bind_some]
    rfl
  | markShown | tick | setSource source => rfl
  | setKey number down =>
    have hk : number < 16 := hc
    simp only [perform?, perform, set?_eq hk, Key.ofNat, dif_pos hk, Option.bind_eq_bind,
      Option.bind_some]
    rfl
  | toggleKey number =>
    have hk : number < 16 := hc
    simp only [perform?, perform, Vector.getElem?_eq_getElem hk, set?_eq hk, Key.ofNat,
      dif_pos hk, Option.bind_eq_bind, Option.bind_some]
    rfl
  | setKeys keys =>
    have hk : keys.length = 16 := hc
    simp only [perform?, perform, if_pos hk, Keypad.write?_keys _ hk, Keypad.ofList?, dif_pos hk,
      Option.bind_eq_bind, Option.bind_some]
  | frame keys? =>
    simp only [perform?, Machine.frame?_eq s.pacing _ h, Option.bind_eq_bind, Option.bind_some]
    rfl
  | _ => exact hc.elim

/-- In bounds a word that a cycle could not read is stepped over with every index checked. -/
theorem perform?_stepOver (h : s.machine.InBounds) :
    s.perform? .stepOver = some (s.perform .stepOver) := by
  simp only [perform?, perform, Machine.advance?_eq h.counter, Option.bind_eq_bind,
    Option.bind_some]
  rfl

/-! ### Reached sessions -/

theorem Reachable.after {cs : List Command} (h : s.Reachable) (hcs : ∀ c ∈ cs, c.IsProper) :
    (s.after cs).Reachable := by
  induction cs generalizing s with
  | nil => exact h
  | cons c rest ih =>
    exact ih (h.perform (hcs c List.mem_cons_self)) fun d hd =>
      hcs d (List.mem_cons_of_mem c hd)

/-- **No index out of range.**  Whatever program runs, a session that is reached has at most
sixteen open calls, each made by a word in memory, a counter and an index close to the
memory, cells that are 0 or 1, and waits for a key, if it does, for a register that there is,
at a word in memory.  Every proper command that may follow, and stepping over a word that a
cycle could not read, come to the same with every index checked, and none of them crashes. -/
theorem Reachable.safe (h : s.Reachable) :
    s.machine.stack.depth ≤ 16 ∧
      (∀ address ∈ s.machine.stack.entries, address ≤ 0xFFE) ∧
      s.machine.counter ≤ 0x1002 ∧
      s.machine.index ≤ 0x1000 ∧
      (∀ x y, (s.machine.screen.get x y).toNat ≤ 1) ∧
      (∀ x, s.machine.mode = .awaitingKey x → x < 16 ∧ s.machine.counter ≤ 0xFFE) ∧
      (∀ c : Command, c.IsProper →
        s.perform? c = some (s.perform c) ∧ (s.perform c).reply ≠ .failed .crash) ∧
      ∀ w, (s.perform .cycle).reply = .failed (.word (.unknown w)) →
        (s.perform .cycle).session.perform? .stepOver =
          some ((s.perform .cycle).session.perform .stepOver) := by
  have hb : s.machine.InBounds := h.inBounds
  refine ⟨s.machine.stack.depth_le, hb.entries, hb.counter, hb.index, fun x y => ?_,
    hb.waiting, fun c hc => ⟨perform?_eq hb hc, perform_ne_crash hb hc⟩, fun w _ => ?_⟩
  · exact Bool.toNat_le _
  · have hcycle : (s.perform .cycle).session.Reachable := .perform h trivial
    exact perform?_stepOver hcycle.inBounds

/-- A program that writes a skip into the last word of the memory and runs it comes to the
very ends of the bounds. -/
theorem Reachable.safe_at_the_end :
    let bytes : List UInt8 :=
      [0x60, 0x30, 0x61, 0x00, 0xAF, 0xFE, 0xF1, 0x55, 0x60, 0x00, 0x1F, 0xFE]
    let s := (start (Machine.powerOn ByteSource.zeros) Pacing.usual).after
      [.load bytes, .cycle, .cycle, .cycle, .cycle, .cycle, .cycle, .cycle]
    s.Reachable ∧ s.machine.counter = 0x1002 ∧ s.machine.index = 0x1000 ∧
      s.perform? .cycle = some (s.perform .cycle) := by
  intro bytes s
  have hs : s.Reachable :=
    (Reachable.powerOn ByteSource.zeros Pacing.usual).after (by decide)
  obtain ⟨-, -, -, -, -, -, hproper, -⟩ := hs.safe
  have hends : s.machine.counter = 0x1002 ∧ s.machine.index = 0x1000 := by decide +kernel
  exact ⟨hs, hends.1, hends.2, (hproper .cycle trivial).1⟩

end Session

end ChipEight

/-
ChipEight/Proofs/Blocks.lean

Registers put away into memory and taken back.  `FX55` stores the registers up to one of them
and moves the index behind what it has stored, so that several stores, with whatever values in
the registers, are one store of all their bytes:

    memory after  =  memory before, overwritten from the index on with b₁ ++ b₂ ++ … ++ bₖ.

`FX65` moves the index in the same way, so fills of the same sizes from the same address on cut
these bytes up at the same places.  No byte is shared by two blocks and none is left over, and
the blocks may go up to the last byte of the memory.

Main statement: `fills_return_stores`.
-/
import ChipEight.Proofs.Executions
import ChipEight.Proofs.Writes
import Mathlib.Data.List.Forall2

namespace ChipEight

/-! ### Bytes in a row -/

namespace Memory

/-- To write two blocks in a row is to write them behind one another. -/
theorem overwrite_append (m : Memory) (address : Nat) (first later : List UInt8) :
    m.overwrite address (first ++ later) =
      (m.overwrite address first).overwrite (address + first.length) later := by
  induction first generalizing m address with
  | nil => rfl
  | cons byte rest ih =>
    have hbehind : address + (byte :: rest).length = address + 1 + rest.length := by
      rw [List.length_cons]
      omega
    rw [List.cons_append, overwrite, ih, hbehind]
    rfl

/-- To read two blocks in a row is to read them behind one another. -/
theorem slice_add (m : Memory) (address first later : Nat) :
    m.slice address (first + later) =
      m.slice address first ++ m.slice (address + first) later := by
  unfold slice
  rw [List.range_add, List.map_append, List.map_map]
  refine congrArg _ (List.map_congr_left fun i _ => ?_)
  rw [Function.comp_apply, Nat.add_assoc]

/-- To write a block back where it was read changes nothing. -/
theorem overwrite_slice (m : Memory) (address length : Nat) :
    m.overwrite address (m.slice address length) = m := by
  apply Vector.ext
  intro a ha
  rw [getElem_overwrite _ _ _ ha, length_slice]
  split
  · rename_i hinside
    have hlt : a - address < (m.slice address length).length := by
      rw [length_slice]
      omega
    have hsum : address + (a - address) = a := by omega
    rw [List.getElem?_eq_getElem hlt, Option.getD_some, getElem_slice, hsum,
      Vector.getElem?_eq_getElem ha, Option.getD_some]
  · rfl

end Memory

/-! ### Blocks of registers -/

/-- The values of all registers, to be stored up to and with the last one. -/
structure RegisterBlock where
  last : Register
  values : Registers

namespace RegisterBlock

/-- The number of registers that are stored. -/
def size (b : RegisterBlock) : Nat := b.last.val + 1

/-- The bytes that are stored. -/
def bytes (b : RegisterBlock) : List UInt8 := b.values.toList.take b.size

/-- The number of bytes of some blocks. -/
def span : List RegisterBlock → Nat
  | [] => 0
  | b :: rest => b.size + span rest

/-- The bytes of some blocks, behind one another. -/
def allBytes (blocks : List RegisterBlock) : List UInt8 := blocks.flatMap bytes

theorem length_bytes (b : RegisterBlock) : b.bytes.length = b.size := by
  have hlt := b.last.isLt
  rw [bytes, List.length_take, Vector.length_toList, size]
  omega

theorem length_allBytes (blocks : List RegisterBlock) :
    (allBytes blocks).length = span blocks := by
  induction blocks with
  | nil => rfl
  | cons b rest ih =>
    show (b.bytes ++ allBytes rest).length = b.size + span rest
    rw [List.length_append, b.length_bytes, ih]

/-- The bytes of a block are the values of its registers. -/
theorem getElem?_bytes (b : RegisterBlock) {r : Register} (h : r ≤ b.last) :
    b.bytes[r.val]? = some (b.values.get r) := by
  have hlt : r.val < b.size := Nat.lt_succ_of_le h
  show (b.values.toList.take b.size)[r.val]? = some b.values[r]
  simp [hlt]

end RegisterBlock

/-- The fill has brought back the values of the block, and has left the registers above alone. -/
structure Restores (b : RegisterBlock) (fill : Execution) : Prop where
  stored : ∀ r ≤ b.last, fill.after.registers.get r = b.values.get r
  above : ∀ r, b.last < r → fill.after.registers.get r = fill.before.registers.get r

namespace Machine

/-- Hand in `FX55` for each block, with the values of the block in the registers. -/
def storeBlocks (m : Machine) : List RegisterBlock → Except Fault Machine
  | [] => .ok m
  | b :: rest =>
    match { m with registers := b.values }.execute (.storeRegisters b.last) with
    | (.ok _, after) => after.storeBlocks rest
    | (.error fault, _) => .error fault

/-- Hand in `FX65` for each register: what was executed, and the machine in the end. -/
def fillBlocks (m : Machine) : List Register → Except Fault (List Execution × Machine)
  | [] => .ok ([], m)
  | x :: rest =>
    match m.execute (.fillRegisters x) with
    | (.ok _, after) =>
      match after.fillBlocks rest with
      | .ok (later, final) => .ok (⟨m, .fillRegisters x, after⟩ :: later, final)
      | .error fault => .error fault
    | (.error fault, _) => .error fault

variable {m : Machine} {x : Register} {b : RegisterBlock} {blocks : List RegisterBlock}

/-! ### One block -/

/-- A store inside the memory writes its bytes and goes behind them. -/
theorem execute_storeRegisters (h : m.index + (x.val + 1) ≤ 4096) :
    ∃ n, m.execute (.storeRegisters x) = (.ok .quiet, n) ∧
      n.memory = m.memory.overwrite m.index (m.valuesUpTo x) ∧
      n.index = m.index + (x.val + 1) := by
  have hfits : m.index + (m.valuesUpTo x).length ≤ 4096 := by
    rw [length_valuesUpTo]
    exact h
  let stored : Machine :=
    { m with memory := m.memory.overwrite m.index (m.valuesUpTo x)
             index := m.index + (x.val + 1) }
  have he : m.effect (.storeRegisters x) = .ok (.proceed stored) := by
    simp only [effect, Memory.store_of_fits m.memory hfits]
    rfl
  exact ⟨_, execute_of_effect he, rfl, rfl⟩

/-- A fill inside the memory reads its bytes and goes behind them. -/
theorem execute_fillRegisters (h : m.index + (x.val + 1) ≤ 4096) :
    ∃ n, m.execute (.fillRegisters x) = (.ok .quiet, n) ∧
      n.memory = m.memory ∧ n.index = m.index + (x.val + 1) ∧
      n.registers = (m.fill (m.memory.slice m.index (x.val + 1))).registers := by
  have he : m.effect (.fillRegisters x) = .ok (.proceed
      { m.fill (m.memory.slice m.index (x.val + 1)) with index := m.index + (x.val + 1) }) := by
    simp only [effect, Memory.block_of_fits m.memory h]
  have hfill : m.fill (m.memory.slice m.index (x.val + 1)) =
      { m with registers := (m.fill (m.memory.slice m.index (x.val + 1))).registers } := rfl
  rw [hfill] at he
  -- what the registers hold takes no part in the rest
  generalize (m.fill (m.memory.slice m.index (x.val + 1))).registers = registers at he ⊢
  exact ⟨_, execute_of_effect he, rfl, rfl, rfl⟩

/-- A register holds its byte after a fill, or what it held before. -/
theorem get_fill (m : Machine) (bytes : List UInt8) (r : Register) :
    (m.fill bytes).registers.get r = bytes[r.val]?.getD (m.registers.get r) := by
  show (m.fill bytes).registers[r] = bytes[r.val]?.getD m.registers[r]
  simp [fill]

/-- The registers that were filled hold the bytes. -/
theorem valuesUpTo_fill (m : Machine) {bytes : List UInt8} (h : bytes.length = x.val + 1) :
    (m.fill bytes).valuesUpTo x = bytes := by
  apply List.ext_getElem
  · rw [length_valuesUpTo, h]
  · intro r hr hr'
    have hlt := x.isLt
    simp [valuesUpTo, fill, hr']

/-- A fill that reads the bytes of a block restores it. -/
theorem restores_of_fill {n : Machine} {i : Instruction}
    (h : n.registers = (m.fill b.bytes).registers) : Restores b ⟨m, i, n⟩ := by
  refine ⟨fun r hr => ?_, fun r hr => ?_⟩
  · show n.registers.get r = b.values.get r
    rw [h, get_fill, b.getElem?_bytes hr, Option.getD_some]
  · have hlength : b.bytes.length ≤ r.val := by
      rw [b.length_bytes]
      exact hr
    show n.registers.get r = m.registers.get r
    rw [h, get_fill, List.getElem?_eq_none hlength, Option.getD_none]

/-! ### Several blocks -/

/-- Several stores write the bytes of all blocks, behind one another. -/
theorem storeBlocks_eq (h : m.index + RegisterBlock.span blocks ≤ 4096) :
    ∃ n, m.storeBlocks blocks = .ok n ∧
      n.memory = m.memory.overwrite m.index (RegisterBlock.allBytes blocks) ∧
      n.index = m.index + RegisterBlock.span blocks := by
  induction blocks generalizing m with
  | nil => exact ⟨m, rfl, rfl, rfl⟩
  | cons b rest ih =>
    rw [RegisterBlock.span] at h ⊢
    have hfirst : m.index + (b.last.val + 1) ≤ 4096 := by
      have hsize : b.size = b.last.val + 1 := rfl
      omega
    obtain ⟨k, hk, hmemory, hindex⟩ :=
      execute_storeRegisters (m := { m with registers := b.values }) hfirst
    have hindex : k.index = m.index + b.size := hindex
    have hmemory : k.memory = m.memory.overwrite m.index b.bytes := hmemory
    obtain ⟨n, hn, hlater, hend⟩ := ih (m := k) (by omega)
    refine ⟨n, ?_, ?_, by omega⟩
    · rw [storeBlocks, hk]
      exact hn
    · rw [hlater, hmemory, hindex, ← b.length_bytes, ← Memory.overwrite_append]
      rfl

/-- Several fills, where the bytes of some blocks are behind one another, restore the blocks. -/
theorem fillBlocks_eq (h : m.index + RegisterBlock.span blocks ≤ 4096)
    (hbytes : m.memory.slice m.index (RegisterBlock.span blocks) =
      RegisterBlock.allBytes blocks) :
    ∃ fills n, m.fillBlocks (blocks.map RegisterBlock.last) = .ok (fills, n) ∧
      n.memory = m.memory ∧ n.index = m.index + RegisterBlock.span blocks ∧
      List.Forall₂ Restores blocks fills := by
  induction blocks generalizing m with
  | nil => exact ⟨[], m, rfl, rfl, rfl, .nil⟩
  | cons b rest ih =>
    rw [RegisterBlock.span] at h hbytes ⊢
    have hfirst : m.index + (b.last.val + 1) ≤ 4096 := by
      have hsize : b.size = b.last.val + 1 := rfl
      omega
    obtain ⟨k, hk, hmemory, hindex, hregisters⟩ := execute_fillRegisters hfirst
    have hindex : k.index = m.index + b.size := hindex
    -- the bytes are cut behind the first block, on both sides
    rw [Memory.slice_add] at hbytes
    obtain ⟨hhead, htail⟩ : m.memory.slice m.index b.size = b.bytes ∧
        m.memory.slice (m.index + b.size) (RegisterBlock.span rest) =
          RegisterBlock.allBytes rest := by
      apply List.append_inj hbytes
      rw [Memory.length_slice, b.length_bytes]
    rw [← hindex, ← hmemory] at htail
    obtain ⟨fills, n, hn, hlater, hend, hall⟩ := ih (by omega) htail
    have hfill : Restores b ⟨m, .fillRegisters b.last, k⟩ := restores_of_fill (hhead ▸ hregisters)
    refine ⟨_, n, ?_, hlater.trans hmemory, by omega, .cons hfill hall⟩
    rw [List.map_cons, fillBlocks, hk]
    dsimp only
    rw [hn]

/-- **Fills return what was stored.**  Blocks that end inside the memory can be stored one after
the other, whatever the registers hold for each; this leaves the index behind them and changes
no byte beside them.  Fills of the same sizes from the same address on restore block after block,
and leave the index at the same place and the memory alone.  Conversely, registers that were just
filled are stored without a change to the memory. -/
theorem fills_return_stores (m : Machine) :
    (∀ blocks, m.index + RegisterBlock.span blocks ≤ 4096 →
      ∃ n, m.storeBlocks blocks = .ok n ∧
        n.index = m.index + RegisterBlock.span blocks ∧
        (∀ address (_ : address < 4096),
          ¬ (m.index ≤ address ∧ address < m.index + RegisterBlock.span blocks) →
            n.memory[address] = m.memory[address]) ∧
        ∀ k : Machine, k.memory = n.memory → k.index = m.index →
          ∃ fills final, k.fillBlocks (blocks.map RegisterBlock.last) = .ok (fills, final) ∧
            List.Forall₂ Restores blocks fills ∧
            final.index = m.index + RegisterBlock.span blocks ∧ final.memory = n.memory) ∧
    ∀ x : Register, m.index + (x.val + 1) ≤ 4096 →
      ∃ n, m.execute (.fillRegisters x) = (.ok .quiet, n) ∧
        ∃ k, { n with index := m.index }.execute (.storeRegisters x) = (.ok .quiet, k) ∧
          k.memory = m.memory := by
  refine ⟨fun blocks h => ?_, fun x h => ?_⟩
  · obtain ⟨n, hn, hmemory, hindex⟩ := storeBlocks_eq h
    refine ⟨n, hn, hindex, fun address ha houtside => ?_, fun k hk hstart => ?_⟩
    · simp only [hmemory, Memory.getElem_overwrite _ _ _ ha, RegisterBlock.length_allBytes]
      exact if_neg houtside
    · have hbytes : k.memory.slice k.index (RegisterBlock.span blocks) =
          RegisterBlock.allBytes blocks := by
        rw [hk, hstart, hmemory, ← RegisterBlock.length_allBytes]
        apply Memory.slice_overwrite
        rw [RegisterBlock.length_allBytes]
        exact h
      obtain ⟨fills, final, hfills, hsame, hend, hall⟩ := fillBlocks_eq (hstart ▸ h) hbytes
      exact ⟨fills, final, hfills, hall, by rw [hend, hstart], hsame.trans hk⟩
  · obtain ⟨n, hn, hmemory, -, hregisters⟩ := execute_fillRegisters h
    obtain ⟨k, hk, hstored, -⟩ :=
      execute_storeRegisters (m := { n with index := m.index }) (x := x) h
    refine ⟨n, hn, k, hk, ?_⟩
    have hvalues : { n with index := m.index }.valuesUpTo x =
        m.memory.slice m.index (x.val + 1) := by
      rw [← m.valuesUpTo_fill (m.memory.length_slice m.index (x.val + 1)), valuesUpTo, valuesUpTo]
      exact congrArg (fun registers : Registers => registers.toList.take (x.val + 1)) hregisters
    rw [hstored, hvalues]
    show n.memory.overwrite m.index _ = m.memory
    rw [hmemory]
    exact m.memory.overwrite_slice m.index (x.val + 1)

/-- Three registers and then all of them, stored up to the last byte of the memory and filled
again from the same address. -/
theorem fills_return_stores_to_the_end :
    let m := { powerOn ByteSource.zeros with index := 0xFED }
    let blocks : List RegisterBlock :=
      [⟨2, Vector.ofFn fun r => UInt8.ofNat r.val⟩, ⟨15, Vector.replicate 16 0xFF⟩]
    m.index + RegisterBlock.span blocks ≤ 4096 ∧
      ∃ n, m.storeBlocks blocks = .ok n ∧ n.index = 0x1000 ∧ n.memory[0xFEC] = 0 ∧
        ∃ fills final, { n with index := 0xFED }.fillBlocks [2, 15] = .ok (fills, final) ∧
          List.Forall₂ Restores blocks fills ∧ final.index = 0x1000 := by
  intro m blocks
  have hbefore : m.memory[0xFEC] = 0 := by decide +kernel
  have hspan : m.index + RegisterBlock.span blocks ≤ 4096 := by decide
  obtain ⟨n, hn, hindex, hbeside, hfills⟩ := (fills_return_stores m).1 blocks hspan
  obtain ⟨fills, final, hfill, hall, hend, -⟩ := hfills { n with index := 0xFED } rfl rfl
  have hoverrun : ¬ (m.index ≤ 0xFEC ∧ 0xFEC < m.index + RegisterBlock.span blocks) := by decide
  refine ⟨hspan, n, hn, hindex, ?_, fills, final, hfill, hall, hend⟩
  rw [hbeside 0xFEC (by decide) hoverrun, hbefore]

end Machine

end ChipEight

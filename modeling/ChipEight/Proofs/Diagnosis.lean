/-
ChipEight/Proofs/Diagnosis.lean

Which cycles fail and why, in terms of the word at the program counter and of the table of
the forms.  That there is no word is noticed first; then `Refuses` says for each fault which
words have it and when:

    the word fits no form                          it is unknown,
    2NNN with sixteen open calls                   the stack is full,
    00EE with none                                 the stack is empty,
    DXYN, FX33, FX55, FX65 with a block at the     the block leaves the memory,
    index that does not end inside the memory

and there is no other fault.  A block may end where the memory ends, and a block of no bytes
may begin there.

Main statement: `cycle_diagnosis`.
-/
import ChipEight.Proofs.Forms
import ChipEight.Proofs.Obstacle

namespace ChipEight

/-- The word is that of an instruction that reads or writes a block of this length. -/
def Word.Reaches (w : Word) (length : Nat) : Prop :=
  w.Fits "DXYN" ∧ length = w.n.val ∨
  w.Fits "FX33" ∧ length = 3 ∨
  (w.Fits "FX55" ∨ w.Fits "FX65") ∧ length = w.x.val + 1

/-- Such a word fits a form. -/
theorem Word.Reaches.fits {w : Word} {length : Nat} (h : w.Reaches length) :
    ∃ form ∈ Instruction.forms, w.Fits form := by
  rcases h with ⟨hfits, -⟩ | ⟨hfits, -⟩ | ⟨hfits | hfits, -⟩
  all_goals exact ⟨_, by decide, hfits⟩

namespace Machine

/-- The machine cannot run the word, and this is the fault. -/
def Refuses (m : Machine) (w : Word) : Fault → Prop
  | .word (.unknown v) => v = w ∧ ∀ form ∈ Instruction.forms, ¬ w.Fits form
  | .word (.outside _ _) => False
  | .stack .full => w.Fits "2NNN" ∧ m.stack.depth = 16
  | .stack .empty => w.Fits "00EE" ∧ m.stack.depth = 0
  | .access ⟨address, length⟩ =>
    address = m.index ∧ w.Reaches length ∧ 4096 < m.index + length ∧ m.index + length < UInt64.size
  | .crash => ∃ length, w.Reaches length ∧ UInt64.size ≤ m.index + length

variable {m : Machine} {w : Word} {i : Instruction} {fault : Fault}

/-- A block is in the way of an instruction if the word of the instruction reaches that far
and the block is refused. -/
theorem obstacle?_eq_block_iff (h : Instruction.ofWord? w = some i)
    (hstack : ∀ cause, fault ≠ .stack cause) :
    m.obstacle? i = some fault ↔
      ∃ length, w.Reaches length ∧ Memory.check m.index length = .error fault := by
  -- what the word fits is a matter of the instruction alone
  have hform : ∀ form ∈ Instruction.forms, (w.Fits form ↔ i.form = form) := fun form hf =>
    Instruction.fits_iff_of_ofWord? h hf
  simp only [Word.Reaches, hform "DXYN" (by decide), hform "FX33" (by decide),
    hform "FX55" (by decide), hform "FX65" (by decide)]
  cases i with
  | draw x y height =>
    rw [obstacle?, pastEnd?_eq_some_iff, Instruction.height_of_ofWord? h]
    simp [Instruction.form]
  | storeDecimal x =>
    rw [obstacle?, pastEnd?_eq_some_iff]
    simp [Instruction.form]
  | storeRegisters x | fillRegisters x =>
    rw [obstacle?, pastEnd?_eq_some_iff]
    have hx : x = w.x :=
      Instruction.register_of_byteForm (Instruction.toWord_of_ofWord? h) (by decide)
    simp [Instruction.form, hx]
  | ret | call target =>
    simp only [obstacle?]
    refine iff_of_false ?_ (by simp [Instruction.form])
    split
    · simpa using (hstack _).symm
    · simp
  | combine op x y => cases op <;> simp [obstacle?, Instruction.form]
  | _ => simp [obstacle?, Instruction.form]

/-- What stands in the way of an instruction is what its word is refused for. -/
theorem obstacle?_eq_some_iff (h : Instruction.ofWord? w = some i) :
    m.obstacle? i = some fault ↔ m.Refuses w fault := by
  have hfits : w.Fits i.form := Instruction.fits_of_ofWord? h
  rcases fault with cause | (- | -) | ⟨address, length⟩ | -
  · -- the word was read, so it is not the word that fails
    refine iff_of_false obstacle?_ne_word ?_
    rcases cause with v | ⟨pointer, size⟩
    · exact fun hunknown => hunknown.2 i.form i.form_mem_forms hfits
    · exact id
  · have hform : w.Fits "2NNN" ↔ i.form = "2NNN" :=
      Instruction.fits_iff_of_ofWord? h (by decide)
    rw [Refuses, hform]
    cases i with
    | combine op x y => cases op <;> simp [obstacle?, Instruction.form]
    | _ => simp [obstacle?, pastEnd?_eq_some_iff, Memory.check_eq_error_iff, Instruction.form]
  · have hform : w.Fits "00EE" ↔ i.form = "00EE" :=
      Instruction.fits_iff_of_ofWord? h (by decide)
    rw [Refuses, hform]
    cases i with
    | combine op x y => cases op <;> simp [obstacle?, Instruction.form]
    | _ => simp [obstacle?, pastEnd?_eq_some_iff, Memory.check_eq_error_iff, Instruction.form]
  · rw [obstacle?_eq_block_iff h (by simp), Refuses]
    simp only [Memory.check_eq_error_iff]
    constructor
    · rintro ⟨length, hreaches, ⟨-, ⟨⟩⟩ | ⟨hpast, hsum, ⟨⟩⟩⟩
      exact ⟨rfl, hreaches, hpast, hsum⟩
    · rintro ⟨rfl, hreaches, hpast, hsum⟩
      exact ⟨length, hreaches, .inr ⟨hpast, hsum, rfl⟩⟩
  · rw [obstacle?_eq_block_iff h (by simp), Refuses]
    simp [Memory.check_eq_error_iff]

/-- A cycle that reads a word fails of what the word is refused for. -/
theorem cycle_eq_error_iff_refuses (hm : m.mode = .running)
    (hf : m.memory.fetch m.counter = .ok w) :
    m.cycle.1 = .error fault ↔ m.Refuses w fault := by
  rw [cycle_eq_error_iff, fault?, hm]
  dsimp only
  rw [hf]
  dsimp only
  rcases hi : Instruction.ofWord? w with - | i
  · have hnone : ∀ form ∈ Instruction.forms, ¬ w.Fits form :=
      Instruction.ofWord?_eq_none_iff.1 hi
    constructor
    · rintro ⟨⟩
      exact ⟨rfl, hnone⟩
    · -- whatever else a word is refused for, it fits a form
      intro hrefuses
      rcases fault with (v | ⟨pointer, size⟩) | (- | -) | ⟨address, length⟩ | -
      · obtain ⟨rfl, -⟩ := hrefuses
        rfl
      · exact hrefuses.elim
      · exact absurd hrefuses.1 (hnone "2NNN" (by decide))
      · exact absurd hrefuses.1 (hnone "00EE" (by decide))
      · obtain ⟨-, hreaches, -⟩ := hrefuses
        obtain ⟨form, hform, hfits⟩ := hreaches.fits
        exact absurd hfits (hnone form hform)
      · obtain ⟨length, hreaches, -⟩ := hrefuses
        obtain ⟨form, hform, hfits⟩ := hreaches.fits
        exact absurd hfits (hnone form hform)
  · exact obstacle?_eq_some_iff hi

/-- A cycle fails for want of a word exactly if there is none at the program counter, and the
pointer to its second byte can be computed. -/
theorem cycle_eq_outside_iff {pointer size : Nat} (hm : m.mode = .running) :
    m.cycle.1 = .error (.word (.outside pointer size)) ↔
      (4096 ≤ m.counter + 1 ∧ m.counter + 1 < UInt64.size) ∧ pointer = m.counter ∧ size = 4096 := by
  rcases hf : m.memory.fetch m.counter with fault | w
  · rw [cycle_of_fetch_error hm hf]
    obtain ⟨hsum, rfl⟩ | ⟨hsum, hend, rfl⟩ := Memory.wordAt_eq_error_iff.1 hf
    · refine iff_of_false nofun ?_
      rintro ⟨⟨-, hlt⟩, -⟩
      omega
    · rw [Vector.size_toArray] at hend ⊢
      constructor
      · rintro ⟨⟩
        exact ⟨⟨hend, hsum⟩, rfl, rfl⟩
      · rintro ⟨-, rfl, rfl⟩
        rfl
  · obtain ⟨hinside, -⟩ := Memory.fetch_eq_ok_iff.1 hf
    rw [cycle_eq_error_iff_refuses hm hf]
    exact iff_of_false id fun hend => by omega

/-- Where the pointer to the second byte of a word does not fit into 64 bits, a cycle
crashes. -/
theorem cycle_of_no_pointer (hm : m.mode = .running) (hsum : UInt64.size ≤ m.counter + 1) :
    m.cycle = (.error .crash, m) :=
  cycle_of_fetch_error hm (Memory.wordAt_eq_error_iff.2 (.inl ⟨hsum, rfl⟩))

/-- A block at an index in or right behind the memory never ends past 64 bits. -/
theorem not_refuses_crash (hindex : m.index ≤ 0x1000) : ¬ m.Refuses w .crash := by
  rintro ⟨length, hreaches, hsum⟩
  have hlength : length ≤ 16 := by
    have hn := w.n.isLt
    have hx := w.x.isLt
    rcases hreaches with ⟨-, rfl⟩ | ⟨-, rfl⟩ | ⟨-, rfl⟩ <;> omega
  exact Nat.not_le_of_lt (Memory.lt_size_of_lt (by omega)) hsum

/-- A machine without a register to put a key into crashes on a key. -/
theorem cycle_of_key_and_no_register {register : Nat} (hm : m.mode = .awaitingKey register)
    (hregister : 16 ≤ register) (hkey : ∃ key, m.keypad.isDown key = true) :
    m.cycle = (.error .crash, m) := by
  rw [cycle_of_no_register hm hregister]
  rcases hk : m.keypad.lowestDown with - | key
  · obtain ⟨key, hdown⟩ := hkey
    rw [Keypad.lowestDown_eq_none_iff.1 hk key] at hdown
    cases hdown
  · rfl

/-- And it goes on waiting for as long as there is none. -/
theorem cycle_of_no_key_and_no_register {register : Nat} (hm : m.mode = .awaitingKey register)
    (hregister : 16 ≤ register) (hkey : ∀ key, m.keypad.isDown key = false) :
    m.cycle = (.ok .wait, m) := by
  rw [cycle_of_no_register hm hregister, Keypad.lowestDown_eq_none_iff.2 hkey]
  rfl

/-- **Every failure by its cause.**  A cycle of a machine that waits for a key to put into one
of its registers never fails; with no such register it goes on waiting until a key is down and
crashes on that.  A running machine fails for want of a word exactly if the two bytes at the
program counter are not both inside the memory, as long as the pointer to the second one fits
into 64 bits, and crashes where it does not; otherwise it fails of exactly what the word is
refused for, which is never a crash, and does not fail if that is nothing.

Nothing is said of cycles that move the counter past 64 bits. -/
theorem cycle_diagnosis (m : Machine) (hindex : m.index ≤ 0x1000) :
    (∀ x, m.mode = .awaitingKey x →
      (x < 16 → m.counter + 2 < UInt64.size ∨ (∀ key, m.keypad.isDown key = false) →
        ∃ signal, m.cycle.1 = .ok signal) ∧
      (16 ≤ x → (∃ key, m.keypad.isDown key = true) → m.cycle = (.error .crash, m)) ∧
      (16 ≤ x → (∀ key, m.keypad.isDown key = false) → m.cycle = (.ok .wait, m))) ∧
    (m.mode = .running →
      (UInt64.size ≤ m.counter + 1 → m.cycle = (.error .crash, m)) ∧
      (m.counter + 1 < UInt64.size →
        ∀ pointer size, m.cycle.1 = .error (.word (.outside pointer size)) ↔
          4096 ≤ m.counter + 1 ∧ pointer = m.counter ∧ size = 4096) ∧
      ∀ h : m.counter + 1 < 4096,
        let w := Word.ofBytes m.memory[m.counter] m.memory[m.counter + 1]
        (∀ fault ≠ .crash, m.cycle.1 = .error fault ↔ m.Refuses w fault) ∧
        ¬ m.Refuses w .crash ∧
        ((∀ caller ∈ m.stack.entries, caller + 2 < UInt64.size) →
          ((∃ signal, m.cycle.1 = .ok signal) ↔ ∀ fault, ¬ m.Refuses w fault))) := by
  refine ⟨fun x hm => ⟨fun hx _ => ?_, cycle_of_key_and_no_register hm,
    cycle_of_no_key_and_no_register hm⟩, fun hm => ⟨cycle_of_no_pointer hm, ?_, ?_⟩⟩
  · rw [cycle_of_awaiting (x := ⟨x, hx⟩) hm]
    exact ⟨_, rfl⟩
  · intro hsum pointer size
    rw [cycle_eq_outside_iff hm, and_iff_left hsum]
  · intro h w
    have hf : m.memory.fetch m.counter = .ok w := Memory.fetch_eq_ok_iff.2 ⟨h, rfl⟩
    have herror : ∀ fault, m.cycle.1 = .error fault ↔ m.Refuses w fault := fun fault =>
      cycle_eq_error_iff_refuses hm hf
    refine ⟨fun fault _ => herror fault, not_refuses_crash hindex, fun _ => ?_⟩
    simp only [← herror]
    rcases m.cycle.1 with fault | signal <;> simp

/-- A sprite of no rows at the address behind the memory is drawn, and one of a single row is
refused. -/
theorem cycle_diagnosis_behind_memory :
    let m : Machine := { powerOn ByteSource.zeros with
      memory := Memory.blank.overwrite 0x200 [0xD0, 0x00, 0xD0, 0x01], index := 0x1000 }
    (∃ signal, m.cycle.1 = .ok signal) ∧
      (m.advance .next).cycle.1 = .error (.access ⟨0x1000, 1⟩) := by
  intro m
  have hempty : Instruction.ofWord? 0xD000 = some (.draw 0 0 0) := by decide
  have hrow : Instruction.ofWord? 0xD001 = some (.draw 0 0 1) := by decide
  have hword : Word.ofBytes m.memory[0x200] m.memory[0x201] = 0xD000 := by decide +kernel
  have hword' : Word.ofBytes m.memory[0x202] m.memory[0x203] = 0xD001 := by decide +kernel
  obtain ⟨-, -, h⟩ := (cycle_diagnosis m (by decide)).2 rfl
  obtain ⟨-, -, h'⟩ := (cycle_diagnosis (m.advance .next) (by decide)).2 rfl
  constructor
  · refine ((h (by decide)).2.2 (by decide)).2 fun fault hrefuses => ?_
    have hnone : m.pastEnd? 0 = none := pastEnd?_eq_none_iff.2 (by decide)
    have hrefuses' : m.Refuses 0xD000 fault := hword ▸ hrefuses
    have hsome := (obstacle?_eq_some_iff hempty).2 hrefuses'
    rw [obstacle?, hnone] at hsome
    cases hsome
  · have hrefuses : (m.advance .next).Refuses 0xD001 (.access ⟨0x1000, 1⟩) :=
      ⟨rfl, .inl ⟨Instruction.fits_of_ofWord? hrow, rfl⟩, by decide, by decide⟩
    exact ((h' (by decide)).1 (.access ⟨0x1000, 1⟩) (by simp)).2 (hword' ▸ hrefuses)

/-- With the program counter at the last number of 64 bits, a running machine has no word to
read but does not say so: it crashes.  So does one that waits for a key to put into the
register of number twenty, when a key is down. -/
theorem cycle_crashes_without_word :
    let m := (powerOn ByteSource.zeros).advance (.jump (UInt64.size - 1))
    let n : Machine :=
      { powerOn ByteSource.zeros with
        mode := .awaitingKey 20, keypad := Keypad.idle.set 5 true }
    (m.mode = .running ∧ m.index ≤ 0x1000 ∧ 4096 ≤ m.counter + 1 ∧
      m.cycle.1 ≠ .error (.word (.outside m.counter 4096)) ∧ m.cycle.1 = .error .crash) ∧
    n.index ≤ 0x1000 ∧ n.cycle.1 = .error .crash := by
  intro m n
  have hm : m.cycle = (.error .crash, m) := cycle_of_no_pointer rfl (by decide)
  have hn : n.cycle = (.error .crash, n) :=
    cycle_of_key_and_no_register rfl (by decide) ⟨5, by decide⟩
  refine ⟨⟨rfl, by decide, by decide, ?_, ?_⟩, by decide, ?_⟩
  · rw [hm]
    nofun
  · rw [hm]
  · rw [hn]

end Machine

end ChipEight

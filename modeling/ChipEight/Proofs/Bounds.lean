/-
ChipEight/Proofs/Bounds.lean

Where the addresses of a machine can lie.  Nothing masks the program counter when it moves
on, and `FX55` and `FX65` leave the index unmasked; that both stay close to the memory all
the same is an invariant of the whole machine, `InBounds`:

* the addresses of open calls are those of words in memory, since a call was fetched there;
* the counter is at most four bytes past such an address, and the index at most one byte
  past the memory;
* a machine that waits for a key waits at the word that asks for it, and for a register that
  there is.

Each of them needs the others: the counter, because a return goes on behind an address of
the stack; the stack, because a call pushes a counter that a word was just fetched from.

Main statements: `Reachable.inBounds`, for every session that the host can get to if it hands
in no instruction and no move of its own and steps over words only that a cycle has just
refused; and `perform_ne_crash`, nothing that follows in bounds is a crash.
-/
import ChipEight.Proofs.Destination
import ChipEight.Proofs.Obstacle
import ChipEight.Proofs.Run

namespace ChipEight

/-- The addresses of a machine are in or close to its memory. -/
structure Machine.InBounds (m : Machine) : Prop where
  entries : ∀ address ∈ m.stack.entries, address ≤ 0xFFE
  counter : m.counter ≤ 0x1002
  index : m.index ≤ 0x1000
  waiting : ∀ x, m.mode = .awaitingKey x → x < 16 ∧ m.counter ≤ 0xFFE

namespace Machine

variable {m n : Machine} {i : Instruction} {e : Effect}

/-- The bounds lie in four parts of the machine. -/
theorem InBounds.congr (h : m.InBounds)
    (hn : ∀ p ∈ [Part.stack, .counter, .index, .mode], m.Agree n p) : n.InBounds := by
  have hstack : n.stack = m.stack := hn .stack (by decide)
  have hcounter : n.counter = m.counter := hn .counter (by decide)
  have hindex : n.index = m.index := hn .index (by decide)
  have hmode : n.mode = m.mode := hn .mode (by decide)
  refine ⟨?_, ?_, ?_, ?_⟩
  · rw [hstack]
    exact h.entries
  · rw [hcounter]
    exact h.counter
  · rw [hindex]
    exact h.index
  · intro x hx
    rw [hcounter]
    exact h.waiting x (hmode ▸ hx)

theorem inBounds_powerOn (source : ByteSource) : (powerOn source).InBounds := by
  refine ⟨?_, ?_, ?_, ?_⟩
  · intro address ha
    cases ha
  · show 0x200 ≤ 0x1002
    decide
  · show 0 ≤ 0x1000
    decide
  · intro x hx
    cases hx

/-! ### One instruction -/

/-- A word that can be fetched has both its bytes in memory. -/
theorem counter_le_of_fetch {w : Word} (h : m.memory.fetch m.counter = .ok w) :
    m.counter ≤ 0xFFE := by
  obtain ⟨hlt, -⟩ := Memory.fetch_eq_ok_iff.1 h
  omega

/-- An instruction in range leaves the index at most one byte past the memory. -/
theorem index_le_of_effect (h : m.InBounds) (hi : i.InRange) (he : m.effect i = .ok e) :
    e.machine.index ≤ 0x1000 := by
  cases i with
  | setIndex target =>
    cases he
    exact Nat.le_of_lt hi
  | addToIndex x =>
    cases he
    exact Nat.le_of_lt (Nat.mod_lt _ (by decide))
  | pointToGlyph x =>
    cases he
    show 0 + 5 * m.registers[x].toNat ≤ 0x1000
    have := m.registers[x].toNat_lt
    omega
  | storeRegisters x | fillRegisters x =>
    -- the block has been checked, and the index goes to its end
    have hfits : m.index + (x.val + 1) ≤ 4096 :=
      pastEnd?_eq_none_iff.1 (obstacle?_of_effect he)
    simp only [effect] at he
    split at he <;> cases he
    exact hfits
  | _ =>
    have hindex : e.machine.index = m.index :=
      agree_of_effect (p := .index) he (by simp [Instruction.changes])
    rw [hindex]
    exact h.index

/-- The stack holds addresses of words after an instruction at such an address. -/
theorem entries_le_of_effect (h : m.InBounds) (hc : m.counter ≤ 0xFFE)
    (he : m.effect i = .ok e) : ∀ address ∈ e.machine.stack.entries, address ≤ 0xFFE := by
  cases i with
  | ret =>
    obtain ⟨caller, stack, hs, rfl⟩ := effect_ret_eq_ok he
    intro address ha
    have hmem : address ∈ m.stack.entries := by
      rw [CallStack.entries_of_pop hs]
      exact List.mem_cons_of_mem caller ha
    exact h.entries address hmem
  | call target =>
    obtain ⟨stack, hs, rfl⟩ := effect_call_eq_ok he
    intro address ha
    have hmem : address ∈ m.counter :: m.stack.entries := by
      rw [← CallStack.entries_of_push hs]
      exact ha
    rcases List.mem_cons.1 hmem with rfl | hmem
    · exact hc
    · exact h.entries address hmem
  | _ =>
    have hstack : e.machine.stack = m.stack :=
      agree_of_effect (p := .stack) he (by simp [Instruction.changes])
    rw [hstack]
    exact h.entries

/-- An instruction at the address of a word leads to an address in memory, behind an open call,
or two words on at most. -/
theorem destination_le (h : m.InBounds) (hc : m.counter ≤ 0xFFE) (hi : i.InRange) :
    m.destination i ≤ 0x1002 := by
  cases i with
  | jump target | call target =>
    have ht : target < 4096 := hi
    show target ≤ 0x1002
    omega
  | ret =>
    simp only [destination]
    split
    · rename_i caller older hs
      -- the call was made by a word in memory, since the stack is in bounds
      have hcaller := h.entries caller (hs ▸ List.mem_cons_self)
      omega
    · omega
  | awaitKey x =>
    simp only [destination, behindKey]
    split <;> omega
  | skipIfByte x byte | skipUnlessByte x byte | skipIfSame x y | skipUnlessSame x y
  | skipIfKey x | skipUnlessKey x =>
    -- the farthest that the counter gets: a skip in the last word of the memory
    simp only [destination, skippingIf]
    split <;> omega
  | _ =>
    simp only [destination]
    omega

/-- Running an instruction at the address of a word keeps the bounds; a machine that waits
runs none but `FX0A`. -/
theorem inBounds_of_effect (h : m.InBounds) (hc : m.counter ≤ 0xFFE) (hi : i.InRange)
    (hm : m.mode = .running ∨ ∃ x, i = .awaitKey x) (he : m.effect i = .ok e) :
    e.settle.InBounds := by
  have hcounter : e.settle.counter ≤ 0x1002 := by
    rw [counter_of_effect_settle he]
    exact destination_le h hc hi
  refine ⟨entries_le_of_effect h hc he, hcounter, index_le_of_effect h hi he, ?_⟩
  -- only `FX0A` makes a machine wait, and holds the counter where the word is
  intro x hx
  by_cases hawait : ∃ y, i = .awaitKey y
  · obtain ⟨y, rfl⟩ := hawait
    cases he
    rcases settle_takeKey m y with hrun | hwait
    · rw [hrun] at hx
      cases hx
    · rw [hwait] at hx ⊢
      cases hx
      exact ⟨y.isLt, hc⟩
  · have hmode : e.machine.mode = m.mode := mode_of_effect he fun y hy => hawait ⟨y, hy⟩
    have hx' : m.mode = .awaitingKey x := hmode ▸ hx
    exact absurd hx' (ne_awaitingKey_of_running (hm.resolve_right hawait) x)

/-! ### One cycle -/

theorem InBounds.withWord (h : m.InBounds) (w : Word) : { m with word := w }.InBounds :=
  ⟨h.entries, h.counter, h.index, h.waiting⟩

theorem inBounds_cycle (h : m.InBounds) : m.cycle.2.InBounds := by
  have hc := m.cycleCase
  generalize m.cycle = r at hc ⊢
  cases hc with
  | @waiting x hm =>
    exact inBounds_of_effect (i := .awaitKey x) h (h.waiting x hm).2 trivial (.inr ⟨x, rfl⟩) rfl
  | stuck hm hr hk | crashed hm hr hk | noWord hm hf => exact h
  | unknown hm hf hi => exact h.withWord _
  | failed hm hf hi he => exact h.withWord _
  | @ran w i e hm hf hi he =>
    exact inBounds_of_effect (h.withWord w) (counter_le_of_fetch hf)
      (Instruction.inRange_of_ofWord? hi) (.inl hm) he

/-- A word that a cycle refuses can be stepped over. -/
theorem inBounds_stepOver {w : Word} (h : m.InBounds)
    (hw : m.cycle.1 = .error (.word (.unknown w))) : m.cycle.2.stepOver.InBounds := by
  have hc := m.cycleCase
  generalize m.cycle = r at hc hw ⊢
  cases hc with
  | waiting hm | stuck hm hr hk | crashed hm hr hk => cases hw
  | @noWord fault hm hf =>
    -- what is not there is outside, and not unknown
    obtain ⟨-, rfl⟩ | ⟨-, -, rfl⟩ := Memory.wordAt_eq_error_iff.1 hf <;> cases hw
  | @unknown w hm hf hi =>
    refine ⟨h.entries, ?_, h.index, ?_⟩
    · have := counter_le_of_fetch hf
      show m.counter + 2 ≤ 0x1002
      omega
    · intro x hx
      exact absurd hx (ne_awaitingKey_of_running hm x)
  | @failed w i fault hm hf hi he =>
    cases hw
    exact absurd (effect_eq_error_iff.1 he) obstacle?_ne_word
  | ran hm hf hi he => cases hw

/-- An index close to the memory is far from the end of 64 bits, so an instruction in range may
fail but does not crash. -/
theorem effect_ne_crash (h : m.InBounds) (hi : i.InRange) : m.effect i ≠ .error .crash := by
  intro he
  have ho := effect_eq_error_iff.1 he
  have hindex := h.index
  -- the length of a block is a height or a number of registers
  have hnear : ∀ length ≤ 16, m.pastEnd? length ≠ some .crash := by
    intro length hlength hpast
    obtain ⟨hsum, -⟩ | ⟨-, -, ⟨⟩⟩ := Memory.check_eq_error_iff.1 (pastEnd?_eq_some_iff.1 hpast)
    exact Nat.not_le_of_lt (Memory.lt_size_of_lt (by omega)) hsum
  cases i with
  | draw x y height =>
    have hheight : height < 16 := hi
    exact hnear height (by omega) ho
  | storeDecimal x => exact hnear 3 (by omega) ho
  | storeRegisters x | fillRegisters x => exact hnear (x.val + 1) x.isLt ho
  | _ => simp [obstacle?] at ho

/-- No cycle crashes in bounds: there is a register for the key, and the addresses are close to
the memory. -/
theorem cycle_ne_crash (h : m.InBounds) : m.cycle.1 ≠ .error .crash := by
  have hc := m.cycleCase
  generalize m.cycle = r at hc ⊢
  cases hc with
  | waiting hm | stuck hm hr hk | unknown hm hf hi | ran hm hf hi he => nofun
  | crashed hm hr hk => exact absurd (h.waiting _ hm).1 (Nat.not_lt.2 hr)
  | @noWord fault hm hf =>
    rintro ⟨⟩
    have hcounter := h.counter
    obtain ⟨hsum, -⟩ | ⟨-, -, ⟨⟩⟩ := Memory.wordAt_eq_error_iff.1 hf
    exact Nat.not_le_of_lt (Memory.lt_size_of_lt (by omega)) hsum
  | @failed w i fault hm hf hi he =>
    rintro ⟨⟩
    exact effect_ne_crash (h.withWord w) (Instruction.inRange_of_ofWord? hi) he

/-! ### One frame -/

/-- The cycles of a frame stay in bounds, and none of them crashes. -/
theorem inBounds_burst (skipUnknown : Bool) (count : Nat) (h : m.InBounds) :
    (burst skipUnknown count m).machine.InBounds ∧
      (burst skipUnknown count m).fault? ≠ some .crash := by
  induction count generalizing m with
  | zero => exact ⟨h, nofun⟩
  | succ count ih =>
    have hnext : m.cycle.2.InBounds := inBounds_cycle h
    have hover := fun w => inBounds_stepOver (w := w) h
    have hfault := cycle_ne_crash h
    unfold burst
    generalize m.cycle = r at hnext hover hfault ⊢
    rcases r with ⟨fault | signal, after⟩
    · dsimp only at hnext hover hfault ⊢
      split
      · exact ih (hover _ rfl)
      · refine ⟨hnext, ?_⟩
        rintro ⟨⟩
        exact hfault rfl
    · cases signal with
      | wait => exact ⟨hnext, nofun⟩
      | tone edge => exact ih hnext
      | quiet | redraw => exact ih hnext

theorem inBounds_frame (pacing : Pacing) (keys : Keypad) (h : m.InBounds) :
    (frame pacing keys m).machine.InBounds ∧
      (frame pacing keys m).fault? ≠ some .crash := by
  have hkeys : { m with keypad := keys }.InBounds := ⟨h.entries, h.counter, h.index, h.waiting⟩
  have hb := inBounds_burst pacing.skipUnknown pacing.cyclesPerTick hkeys
  unfold frame
  generalize burst pacing.skipUnknown pacing.cyclesPerTick { m with keypad := keys } = b at hb ⊢
  obtain ⟨- | fault, edges, after⟩ := b
  · exact ⟨⟨hb.1.entries, hb.1.counter, hb.1.index, hb.1.waiting⟩, nofun⟩
  · exact hb

end Machine

namespace Session

variable {s : Session} {c : Command}

/-! ### The host -/

theorem inBounds_perform (h : s.machine.InBounds) (hc : c.IsProper) :
    (s.perform c).session.machine.InBounds := by
  cases c with
  | cycle =>
    rw [perform_cycle]
    exact Machine.inBounds_cycle h
  | frame keys? => exact (Machine.inBounds_frame s.pacing _ h).1
  | reset =>
    show s.machine.reset.InBounds
    rw [Machine.reset_eq_powerOn]
    exact Machine.inBounds_powerOn _
  | load data | loadNamed name data | markShown | tick | setKey number down
  | toggleKey number | setKeys keys | setSource source =>
    refine h.congr fun p hp => agree_perform ?_
    simp only [Command.changes]
    revert p
    decide
  | _ => exact hc.elim

/-- What the host does with a machine in bounds may fail, but not by a crash. -/
theorem perform_ne_crash (h : s.machine.InBounds) (hc : c.IsProper) :
    (s.perform c).reply ≠ .failed .crash := by
  cases c with
  | cycle => exact mt reply_perform_cycle.1 (Machine.cycle_ne_crash h)
  | frame keys? =>
    have hfault := (Machine.inBounds_frame s.pacing (keys?.getD s.hostKeys) h).2
    simp only [perform]
    split
    · rintro ⟨⟩
    · rename_i fault hf
      rintro ⟨⟩
      exact hfault hf
  | reset | markShown | tick | setSource source => rintro ⟨⟩
  | load data =>
    simp only [perform]
    rcases s.machine.load data with fault | after <;> rintro ⟨⟩
  | loadNamed name data =>
    simp only [perform, Machine.loadProgram]
    rcases Program.make name data with fault | program
    · rintro ⟨⟩
    · dsimp only
      rcases s.machine.load program.data with fault | after <;> rintro ⟨⟩
  | setKey number down | toggleKey number =>
    simp only [perform]
    rcases Key.ofNat number with fault | key <;> rintro ⟨⟩
  | setKeys keys =>
    simp only [perform]
    rcases Keypad.ofList? keys with - | keypad <;> rintro ⟨⟩
  | _ => exact hc.elim

/-- The sessions that a host gets to with proper commands, stepping over a word only right
after a cycle that could not read it.  It may drive the machine at any pace. -/
inductive Reachable : Session → Prop
  | powerOn (source : ByteSource) (pacing : Pacing) :
      Reachable (start (Machine.powerOn source) pacing)
  | withProgram {source : ByteSource} {program : Program} {m : Machine} (pacing : Pacing)
      (h : Machine.withProgram source program = .ok m) : Reachable (start m pacing)
  | perform {s : Session} {c : Command} (h : Reachable s) (hc : c.IsProper) :
      Reachable (s.perform c).session
  | stepOver {s : Session} {w : Word} (h : Reachable s)
      (hw : (s.perform .cycle).reply = .failed (.word (.unknown w))) :
      Reachable ((s.perform .cycle).session.perform .stepOver).session
  | pace {s : Session} (h : Reachable s) (pacing : Pacing) : Reachable { s with pacing }

/-- Every session that is reached is in bounds. -/
theorem Reachable.inBounds (h : s.Reachable) : s.machine.InBounds := by
  induction h with
  | powerOn source pacing => exact Machine.inBounds_powerOn source
  | @withProgram source program m pacing hm =>
    refine (Machine.inBounds_powerOn source).congr fun p hp => agree_load hm ?_
    rintro rfl
    revert hp
    decide
  | perform h hc ih => exact inBounds_perform ih hc
  | stepOver h hw ih =>
    rw [perform_cycle]
    exact Machine.inBounds_stepOver ih (reply_perform_cycle.1 hw)
  | pace h pacing ih => exact ih

end Session

end ChipEight

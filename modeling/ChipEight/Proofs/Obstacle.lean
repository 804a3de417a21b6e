/-
ChipEight/Proofs/Obstacle.lean

Why a cycle fails, read off the machine before it.  `obstacle?` says what stands in the way
of an instruction: a call finds the stack full, a return finds it empty, or a block of
memory at the index goes past the end.  `fault?` says the same of a whole cycle, from the
mode and the fetched word on; a waiting machine can only crash.

Main statements: `effect_eq_error_iff` and `cycle_eq_error_iff`, the two are the only
reasons to fail, and each is reported as it is; `fault?_congr`, the reason why a running
machine fails lies in the mode, the memory, the index, the counter and the stack alone.
-/
import ChipEight.Proofs.Footprint

namespace ChipEight.Machine

/-- The fault of a block at the index that is not wholly inside the memory. -/
def pastEnd? (m : Machine) (length : Nat) : Option Fault :=
  match Memory.check m.index length with
  | .ok () => none
  | .error fault => some fault

/-- What stands in the way of an instruction. -/
def obstacle? (m : Machine) : Instruction → Option Fault
  | .ret => if m.stack.depth = 0 then some (.stack .empty) else none
  | .call _ => if m.stack.depth = 16 then some (.stack .full) else none
  | .draw _ _ height => m.pastEnd? height
  | .storeDecimal _ => m.pastEnd? 3
  | .storeRegisters x | .fillRegisters x => m.pastEnd? (x.val + 1)
  | _ => none

/-- Why the next cycle fails, if it does. -/
def fault? (m : Machine) : Option Fault :=
  match m.mode with
  | .awaitingKey register =>
    if 16 ≤ register ∧ m.keypad.lowestDown.isSome then some .crash else none
  | .running =>
    match m.memory.fetch m.counter with
    | .error fault => some fault
    | .ok w =>
      match Instruction.ofWord? w with
      | none => some (.word (.unknown w))
      | some i => m.obstacle? i

variable {m n : Machine} {i : Instruction} {fault : Fault}

/-! ### Blocks and the stack -/

theorem pastEnd?_eq_none_iff {length : Nat} :
    m.pastEnd? length = none ↔ m.index + length ≤ 4096 := by
  rw [← Memory.check_eq_ok_iff, pastEnd?]
  rcases Memory.check m.index length with fault | - <;> simp

theorem pastEnd?_eq_some_iff {length : Nat} :
    m.pastEnd? length = some fault ↔ Memory.check m.index length = .error fault := by
  rw [pastEnd?]
  rcases Memory.check m.index length with fault | - <;> simp

/-! ### The reasons of an instruction -/

/-- An instruction fails exactly if something stands in its way, and reports it. -/
theorem effect_eq_error_iff : m.effect i = .error fault ↔ m.obstacle? i = some fault := by
  cases i with
  | ret =>
    simp only [effect, obstacle?]
    rcases hs : m.stack.pop with cause | ⟨caller, stack⟩
    · obtain ⟨hd, rfl⟩ := CallStack.pop_eq_error_iff.1 hs
      simp [hd]
    · have hd : m.stack.depth ≠ 0 := fun hd => by
        rw [CallStack.pop_eq_error_iff.2 ⟨hd, rfl⟩] at hs
        cases hs
      simp [hd]
  | call target =>
    simp only [effect, obstacle?]
    rcases hs : m.stack.push m.counter with cause | stack
    · obtain ⟨hd, rfl⟩ := CallStack.push_eq_error_iff.1 hs
      simp [hd]
    · have hd : m.stack.depth ≠ 16 := fun hd => by
        rw [CallStack.push_eq_error_iff.2 ⟨hd, rfl⟩] at hs
        cases hs
      simp [hd]
  | draw x y height | fillRegisters x =>
    simp only [effect, obstacle?, pastEnd?_eq_some_iff, Memory.block]
    rcases Memory.check m.index _ with fault | - <;> simp [Except.map]
  | storeDecimal x | storeRegisters x =>
    simp only [effect, obstacle?, pastEnd?_eq_some_iff, Memory.store, length_decimalDigits,
      length_valuesUpTo]
    rcases Memory.check m.index _ with fault | - <;> simp [Except.map]
  | _ => simp [effect, obstacle?]

/-- Nothing stands in the way of an instruction that has an effect. -/
theorem obstacle?_of_effect {e : Effect} (h : m.effect i = .ok e) : m.obstacle? i = none := by
  rcases ho : m.obstacle? i with - | fault
  · rfl
  · rw [effect_eq_error_iff.2 ho] at h
    cases h

/-- The obstacle of an instruction lies in the index and the stack. -/
theorem obstacle?_congr (hindex : m.Agree n .index) (hstack : m.Agree n .stack)
    (i : Instruction) : n.obstacle? i = m.obstacle? i := by
  have hi : n.index = m.index := hindex
  have hs : n.stack = m.stack := hstack
  cases i <;> simp only [obstacle?, pastEnd?, hi, hs]

/-- The word of an instruction never stands in its way: it has been read. -/
theorem obstacle?_ne_word {cause : WordFault} : m.obstacle? i ≠ some (.word cause) := by
  cases i <;> simp [obstacle?, pastEnd?_eq_some_iff, Memory.check_eq_error_iff]

theorem obstacle?_word (m : Machine) (w : Word) (i : Instruction) :
    { m with word := w }.obstacle? i = m.obstacle? i :=
  obstacle?_congr rfl rfl i

/-! ### The reasons of a cycle -/

/-- A cycle fails exactly for the reason that can be read off the machine before it. -/
theorem cycle_eq_error_iff : m.cycle.1 = .error fault ↔ m.fault? = some fault := by
  have hc := m.cycleCase
  generalize m.cycle = r at hc ⊢
  cases hc with
  | @waiting x hm =>
    have hx := x.isLt
    simp [fault?, hm, Nat.not_le.2 hx]
  | stuck hm hr hk => simp [fault?, hm, hk]
  | crashed hm hr hk => simp [fault?, hm, hr, hk]
  | noWord hm hf => simp [fault?, hm, hf]
  | unknown hm hf hi => simp [fault?, hm, hf, hi]
  | failed hm hf hi he =>
    have ho := effect_eq_error_iff.1 he
    rw [obstacle?_word] at ho
    simp [fault?, hm, hf, hi, ho]
  | @ran w i e hm hf hi he =>
    have ho := obstacle?_of_effect he
    rw [obstacle?_word] at ho
    simp [fault?, hm, hf, hi, ho]

/-- A cycle that fails without a crash is one of a running machine. -/
theorem running_of_fault? (h : m.fault? = some fault) (hfault : fault ≠ .crash) :
    m.mode = .running := by
  rcases hm : m.mode with - | register
  · rfl
  · simp only [fault?, hm] at h
    split at h <;> cases h
    exact absurd rfl hfault

/-- The fault of a running machine lies in five of its parts. -/
theorem fault?_congr (hrunning : m.mode = .running)
    (h : ∀ p ∈ [.mode, .memory, .counter, .index, .stack], m.Agree n p) :
    n.fault? = m.fault? := by
  have hm : n.mode = m.mode := h .mode (by decide)
  have hf : n.memory = m.memory := h .memory (by decide)
  have hc : n.counter = m.counter := h .counter (by decide)
  have ho := obstacle?_congr (h .index (by decide)) (h .stack (by decide))
  simp only [fault?, hm, hrunning, hf, hc, ho]

end ChipEight.Machine

/-
ChipEight/Proofs/Destination.lean

Where a cycle leaves the program counter.  An instruction says how the counter is to move, and
the move is made when its effect is settled; looking for a key makes its own move.  What comes
of this is told here by addresses, from the machine before the cycle:

    1NNN, 2NNN                          NNN
    BNNN                                V0 + NNN within twelve bits
    00EE                                two behind the address of the latest open call
    3XNN, 4XNN, 5XY0, 9XY0, EX9E, EXA1  four on if the condition holds, or else two on
    FX0A, and a cycle that waits        two on if a key is down, or else where it is
    all others                          two on

Main statement: `counter_of_cycle`.
-/
import ChipEight.Proofs.Footprint

namespace ChipEight.Machine

/-- The counter after an instruction that leaves out the next one under a condition. -/
def skippingIf (m : Machine) (condition : Prop) [Decidable condition] : Nat :=
  if condition then m.counter + 4 else m.counter + 2

/-- The counter after looking for a key. -/
def behindKey (m : Machine) : Nat :=
  if ∃ key, m.keypad.isDown key = true then m.counter + 2 else m.counter

/-- The counter after an instruction that goes well.  The key that a register names has the
number of its value within four bits. -/
def destination (m : Machine) (i : Instruction) : Nat :=
  match i with
  | .jump target | .call target => target
  | .jumpOffset target => (m.registers[0]!.toNat + target) % 4096
  | .ret =>
    match m.stack.entries with
    | caller :: _ => caller + 2
    -- a return without an open call does not go well
    | [] => m.counter
  | .skipIfByte x byte => m.skippingIf (m.registers.get x = byte)
  | .skipUnlessByte x byte => m.skippingIf (m.registers.get x ≠ byte)
  | .skipIfSame x y => m.skippingIf (m.registers.get x = m.registers.get y)
  | .skipUnlessSame x y => m.skippingIf (m.registers.get x ≠ m.registers.get y)
  | .skipIfKey x =>
    m.skippingIf (∃ key : Key,
      key.val = (m.registers.get x).toNat % 16 ∧ m.keypad.isDown key = true)
  | .skipUnlessKey x =>
    m.skippingIf (∃ key : Key,
      key.val = (m.registers.get x).toNat % 16 ∧ m.keypad.isDown key = false)
  | .awaitKey _ => m.behindKey
  | _ => m.counter + 2

variable {m : Machine} {i : Instruction} {e : Effect}

/-! ### One instruction -/

/-- The counter after an effect is settled is moved as the effect says. -/
theorem counter_settle (h : m.effect i = .ok e) :
    e.settle.counter = e.move.apply m.counter := by
  rw [← counter_of_effect h]
  rfl

/-- Without a key that is down the counter stays where it is. -/
theorem behindKey_of_none (h : m.keypad.lowestDown = none) : m.behindKey = m.counter := by
  have hnone := Keypad.lowestDown_eq_none_iff.1 h
  exact if_neg fun ⟨key, hdown⟩ => by rw [hnone key] at hdown; cases hdown

/-- Looking for a key moves the counter only if there is one. -/
theorem counter_takeKey (m : Machine) (x : Register) :
    (m.takeKey x).settle.counter = m.behindKey := by
  unfold takeKey
  rcases hk : m.keypad.lowestDown with - | key
  · exact (behindKey_of_none hk).symm
  · rw [behindKey, if_pos ⟨key, (Keypad.lowestDown_eq_some_iff.1 hk).1⟩]
    rfl

/-- The key that a register names is the one key with the number of its value. -/
theorem isDown_keyIn_iff (x : Register) (down : Bool) :
    m.keypad.isDown (m.keyIn x) = down ↔
      ∃ key : Key, key.val = (m.registers.get x).toNat % 16 ∧ m.keypad.isDown key = down := by
  constructor
  · intro hdown
    exact ⟨m.keyIn x, rfl, hdown⟩
  · rintro ⟨key, hkey, hdown⟩
    rw [← hdown]
    exact congrArg _ (Fin.ext hkey.symm)

/-- A skip is made exactly under its condition. -/
theorem apply_skipIf_of_iff {condition : Bool} {p : Prop} [Decidable p]
    (h : condition = true ↔ p) :
    (Advance.skipIf condition).apply m.counter = m.skippingIf p := by
  rw [Advance.apply_skipIf, skippingIf]
  by_cases hp : p
  · rw [if_pos hp, if_pos (h.2 hp)]
  · rw [if_neg hp, if_neg fun hc => hp (h.1 hc)]

/-- An instruction that goes well leads to its destination. -/
theorem counter_of_effect_settle (h : m.effect i = .ok e) :
    e.settle.counter = m.destination i := by
  rw [counter_settle h]
  cases i with
  | ret =>
    obtain ⟨caller, stack, hs, rfl⟩ := effect_ret_eq_ok h
    rw [destination, CallStack.entries_of_pop hs]
    rfl
  | call target =>
    obtain ⟨stack, -, rfl⟩ := effect_call_eq_ok h
    rfl
  | awaitKey x =>
    -- looking for a key makes its own move, so its effect is kept whole
    rw [← counter_settle h]
    cases h
    exact m.counter_takeKey x
  | skipIfByte x byte | skipIfSame x y =>
    cases h
    exact apply_skipIf_of_iff beq_iff_eq
  | skipUnlessByte x byte | skipUnlessSame x y =>
    cases h
    exact apply_skipIf_of_iff bne_iff_ne
  | skipIfKey x =>
    cases h
    exact apply_skipIf_of_iff (isDown_keyIn_iff x true)
  | skipUnlessKey x =>
    cases h
    refine apply_skipIf_of_iff ?_
    rw [Bool.not_eq_true']
    exact isDown_keyIn_iff x false
  | jumpOffset target =>
    cases h
    rw [destination, getElem!_pos m.registers 0 (by decide)]
    rfl
  | draw x y height | storeDecimal x | storeRegisters x | fillRegisters x =>
    simp only [effect] at h
    split at h <;> cases h
    rfl
  | _ =>
    cases h
    rfl

/-! ### One cycle -/

/-- **The next address.**  A cycle that goes well is one of a machine that waits, and leaves the
counter behind the instruction if a key is down, or else where it is; or it executes an
instruction, and leaves the counter at the destination of that. -/
theorem counter_of_cycle {signal : Signal} (h : m.cycle.1 = .ok signal) :
    (∃ x, m.mode = .awaitingKey x ∧ m.cycle.2.counter = m.behindKey) ∨
      ∃ i, m.Executes i ∧ m.cycle.2.counter = m.destination i := by
  have hc := m.cycleCase
  generalize hr : m.cycle = r at hc h ⊢
  cases hc with
  | @waiting x hm => exact .inl ⟨x, hm, m.counter_takeKey x⟩
  | @stuck register hm hr hk => exact .inl ⟨register, hm, (behindKey_of_none hk).symm⟩
  | crashed hm hr hk => cases h
  | noWord hm hf => cases h
  | unknown hm hf hi => cases h
  | failed hm hf hi he => cases h
  | @ran w i e hm hf hi he =>
    have hexec : m.Executes i := ⟨⟨hm, w, hf, hi⟩, e.signal, by rw [hr]⟩
    -- the word that was read takes no part in where the instruction leads
    exact .inr ⟨i, hexec, counter_of_effect_settle (m := { m with word := w }) he⟩

/-- A machine that waits at `0x200` and finds a key goes on behind the instruction, once. -/
theorem counter_of_cycle_key_found :
    let m : Machine :=
      { powerOn ByteSource.zeros with
        mode := .awaitingKey 3, keypad := Keypad.idle.set 5 true }
    m.cycle.1 = .ok .quiet ∧ m.counter = 0x200 ∧ m.cycle.2.counter = 0x202 := by
  intro m
  have hok : m.cycle.1 = .ok .quiet := rfl
  refine ⟨hok, rfl, ?_⟩
  obtain ⟨x, -, hc⟩ | ⟨i, hexec, -⟩ := counter_of_cycle hok
  · rw [hc]
    decide +kernel
  · cases hexec.1.1

end ChipEight.Machine

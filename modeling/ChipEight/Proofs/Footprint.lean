/-
ChipEight/Proofs/Footprint.lean

What an instruction can change.  A machine has twelve parts, and the footprint of an
instruction, `Instruction.changes`, lists those that it may write to:

    m.effect i = .ok e  →  p ∉ i.changes  →  m.Agree e.machine p.

The word, the counter and the keypad are in no footprint.  The counter moves only when an
effect is settled, by the move that the effect carries.

The second half sorts out the ways a cycle can go.  `CycleCase m r` has one constructor for
each, with what is known in it, and `cycleCase` says that every cycle is one of them: later
proofs about a cycle go by cases on it and do not open the definition.  `m.IsAt i` and
`m.Executes i` name the instruction of a cycle, and `changed_by_cycle` is the footprint of a
whole cycle in terms of it.
-/
import ChipEight.Machine.Cycle

namespace ChipEight

/-- A part of a machine. -/
inductive Part where
  | word | memory | registers | index | counter | stack
  | delay | sound | screen | keypad | source | mode
  deriving DecidableEq

/-- All parts. -/
def Part.all : List Part :=
  [word, memory, registers, index, counter, stack, delay, sound, screen, keypad, source, mode]

theorem Part.mem_all (p : Part) : p ∈ all := by
  cases p <;> decide

/-- The parts that an instruction may write to. -/
def Instruction.changes : Instruction → List Part
  | clearScreen => [.screen]
  | ret | call _ => [.stack]
  | setByte .. | addByte .. | combine .. | readDelay _ => [.registers]
  | setIndex _ | pointToGlyph _ => [.index]
  | random .. => [.registers, .source]
  | draw .. => [.registers, .screen]
  | awaitKey _ => [.registers, .mode]
  | setDelay _ => [.delay]
  | setSound _ => [.sound]
  | addToIndex _ | fillRegisters _ => [.registers, .index]
  | storeDecimal _ => [.memory]
  | storeRegisters _ => [.memory, .index]
  | jump _ | jumpOffset _ | skipIfByte .. | skipUnlessByte .. | skipIfSame ..
  | skipUnlessSame .. | skipIfKey _ | skipUnlessKey _ => []

namespace Machine

/-- Two machines have the same in a part. -/
def Agree (m n : Machine) : Part → Prop
  | .word => n.word = m.word
  | .memory => n.memory = m.memory
  | .registers => n.registers = m.registers
  | .index => n.index = m.index
  | .counter => n.counter = m.counter
  | .stack => n.stack = m.stack
  | .delay => n.delay = m.delay
  | .sound => n.sound = m.sound
  | .screen => n.screen = m.screen
  | .keypad => n.keypad = m.keypad
  | .source => n.source = m.source
  | .mode => n.mode = m.mode

variable {m n k : Machine} {p : Part}

theorem Agree.refl (m : Machine) (p : Part) : m.Agree m p := by
  cases p <;> exact rfl

theorem Agree.trans (h₁ : m.Agree n p) (h₂ : n.Agree k p) : m.Agree k p := by
  cases p <;> exact Eq.trans h₂ h₁

/-! ### One operation at a time -/

theorem agree_put (x : Register) (byte : UInt8) (hp : p ≠ .registers) :
    m.Agree (m.put x byte) p := by
  cases p with
  | registers => exact absurd rfl hp
  | _ => exact rfl

theorem agree_putFlag? (flag? : Option UInt8) (hp : p ≠ .registers) :
    m.Agree (m.putFlag? flag?) p := by
  cases flag? with
  | none => exact .refl m p
  | some flag => exact agree_put flagRegister flag hp

/-- Looking for a key writes to the register and to the mode. -/
theorem agree_takeKey (x : Register) (hp : p ∉ [.registers, .mode]) :
    m.Agree (m.takeKey x).machine p := by
  unfold takeKey
  rcases m.keypad.lowestDown with - | key
  all_goals
    cases p with
    | registers | mode => exact absurd (by decide) hp
    | _ => exact rfl

/-- Drawing writes to the flag register and to the screen. -/
theorem agree_drawSprite (x y : Register) (rows : List UInt8)
    (hp : p ∉ [.registers, .screen]) : m.Agree (m.drawSprite x y rows).machine p := by
  have hr : p ≠ .registers := fun hp' => hp (hp' ▸ List.mem_cons_self)
  unfold drawSprite
  generalize m.screen.draw _ _ _ = drawn
  have hs : m.Agree { m with screen := drawn.2 } p := by
    cases p with
    | screen => exact absurd (by decide) hp
    | _ => exact rfl
  exact hs.trans (agree_put flagRegister _ hr)

/-! ### Single instructions -/

variable {i : Instruction} {e : Effect}

/-- A return that goes well closes the latest call and goes on behind it. -/
theorem effect_ret_eq_ok (h : m.effect .ret = .ok e) :
    ∃ caller stack, m.stack.pop = .ok (caller, stack) ∧
      e = .go { m with stack } (.jump (caller + 2)) := by
  simp only [effect] at h
  rcases hs : m.stack.pop with cause | ⟨caller, stack⟩ <;> rw [hs] at h <;> cases h
  exact ⟨caller, stack, rfl, rfl⟩

/-- A call that goes well pushes its own address and goes to its target. -/
theorem effect_call_eq_ok {target : Nat} (h : m.effect (.call target) = .ok e) :
    ∃ stack, m.stack.push m.counter = .ok stack ∧ e = .go { m with stack } (.jump target) := by
  simp only [effect] at h
  rcases hs : m.stack.push m.counter with cause | stack <;> rw [hs] at h <;> cases h
  exact ⟨stack, rfl, rfl⟩

/-- Looking for a key ends the wait, or waits with the register at the same instruction. -/
theorem settle_takeKey (m : Machine) (x : Register) :
    (m.takeKey x).settle.mode = .running ∨
      (m.takeKey x).settle = { m with mode := .awaitingKey x.val } := by
  unfold takeKey
  rcases m.keypad.lowestDown with - | key
  · exact .inr rfl
  · exact .inl rfl

/-! ### The footprint theorem -/

/-- An instruction leaves every part outside its footprint alone. -/
theorem agree_of_effect (h : m.effect i = .ok e) (hp : p ∉ i.changes) :
    m.Agree e.machine p := by
  cases i with
  | jump target | jumpOffset target | skipIfByte x byte | skipUnlessByte x byte
  | skipIfSame x y | skipUnlessSame x y | skipIfKey x | skipUnlessKey x =>
    cases h
    exact .refl m p
  | setByte x byte | addByte x byte | readDelay x =>
    cases h
    exact agree_put x _ fun hp' => hp (hp' ▸ List.mem_cons_self)
  | combine op x y =>
    cases h
    have hr : p ≠ .registers := fun hp' => hp (hp' ▸ List.mem_cons_self)
    exact (agree_putFlag? _ hr).trans (agree_put x _ hr)
  | awaitKey x =>
    cases h
    exact agree_takeKey x hp
  | draw x y height =>
    simp only [effect] at h
    split at h <;> cases h
    exact agree_drawSprite x y _ hp
  | clearScreen =>
    cases h
    cases p with
    | screen => exact absurd (by decide) hp
    | _ => exact rfl
  | setIndex target | pointToGlyph x =>
    cases h
    cases p with
    | index => exact absurd List.mem_cons_self hp
    | _ => exact rfl
  | random x mask =>
    cases h
    simp only [Instruction.changes] at hp
    cases p with
    | registers | source => exact absurd (by decide) hp
    | _ => exact rfl
  | setDelay x =>
    cases h
    cases p with
    | delay => exact absurd List.mem_cons_self hp
    | _ => exact rfl
  | setSound x =>
    cases h
    cases p with
    | sound => exact absurd List.mem_cons_self hp
    | _ => exact rfl
  | addToIndex x =>
    cases h
    simp only [Instruction.changes] at hp
    cases p with
    | registers | index => exact absurd (by decide) hp
    | _ => exact rfl
  | ret =>
    obtain ⟨caller, stack, -, rfl⟩ := effect_ret_eq_ok h
    cases p with
    | stack => exact absurd (by decide) hp
    | _ => exact rfl
  | call target =>
    obtain ⟨stack, -, rfl⟩ := effect_call_eq_ok h
    cases p with
    | stack => exact absurd List.mem_cons_self hp
    | _ => exact rfl
  | storeDecimal x =>
    -- from here on a block is checked first, so the effect is known only once it is inside
    simp only [effect] at h
    split at h <;> cases h
    cases p with
    | memory => exact absurd List.mem_cons_self hp
    | _ => exact rfl
  | storeRegisters x =>
    simp only [effect] at h
    split at h <;> cases h
    simp only [Instruction.changes] at hp
    cases p with
    | memory | index => exact absurd (by decide) hp
    | _ => exact rfl
  | fillRegisters x =>
    simp only [effect] at h
    split at h <;> cases h
    simp only [Instruction.changes] at hp
    cases p with
    | registers | index => exact absurd (by decide) hp
    | _ => simp only [Agree, Effect.proceed, fill]

/-- No instruction has moved the counter before its effect is settled. -/
theorem counter_of_effect (h : m.effect i = .ok e) : e.machine.counter = m.counter := by
  have hp : Part.counter ∉ i.changes := by
    cases i <;> simp [Instruction.changes]
  exact agree_of_effect h hp

/-- An instruction other than a call and a return leaves the stack alone. -/
theorem stack_of_effect (h : m.effect i = .ok e) (hret : i ≠ .ret)
    (hcall : ∀ target, i ≠ .call target) : e.machine.stack = m.stack := by
  have hp : Part.stack ∉ i.changes := by
    cases i with
    | ret => exact absurd rfl hret
    | call target => exact absurd rfl (hcall target)
    | _ => simp [Instruction.changes]
  exact agree_of_effect h hp

/-- An instruction other than `FX0A` leaves the mode alone. -/
theorem mode_of_effect (h : m.effect i = .ok e) (hawait : ∀ x, i ≠ .awaitKey x) :
    e.machine.mode = m.mode := by
  have hp : Part.mode ∉ i.changes := by
    cases i with
    | awaitKey x => exact absurd rfl (hawait x)
    | _ => simp [Instruction.changes]
  exact agree_of_effect h hp

/-! ### The ways of a cycle -/

theorem ne_awaitingKey_of_running (h : m.mode = .running) (x : Nat) :
    m.mode ≠ .awaitingKey x := by
  rw [h]
  exact Mode.noConfusion

/-- `CycleCase m r`: a cycle of `m` can come to `r`, and this is how.  A machine that waits for a
key to put into no register is stuck until there is one, and crashes then. -/
inductive CycleCase (m : Machine) : Except Fault Signal × Machine → Prop
  | waiting {x : Register} (hm : m.mode = .awaitingKey x.val) :
      CycleCase m (.ok (m.takeKey x).signal, (m.takeKey x).settle)
  | stuck {register : Nat} (hm : m.mode = .awaitingKey register) (hr : 16 ≤ register)
      (hk : m.keypad.lowestDown = none) : CycleCase m (.ok .wait, m)
  | crashed {register : Nat} {key : Key} (hm : m.mode = .awaitingKey register)
      (hr : 16 ≤ register) (hk : m.keypad.lowestDown = some key) :
      CycleCase m (.error .crash, m)
  | noWord {fault : Fault} (hm : m.mode = .running)
      (hf : m.memory.fetch m.counter = .error fault) : CycleCase m (.error fault, m)
  | unknown {w : Word} (hm : m.mode = .running) (hf : m.memory.fetch m.counter = .ok w)
      (hi : Instruction.ofWord? w = none) :
      CycleCase m (.error (.word (.unknown w)), { m with word := w })
  | failed {w : Word} {i : Instruction} {fault : Fault} (hm : m.mode = .running)
      (hf : m.memory.fetch m.counter = .ok w) (hi : Instruction.ofWord? w = some i)
      (he : { m with word := w }.effect i = .error fault) :
      CycleCase m (.error fault, { m with word := w })
  | ran {w : Word} {i : Instruction} {e : Effect} (hm : m.mode = .running)
      (hf : m.memory.fetch m.counter = .ok w) (hi : Instruction.ofWord? w = some i)
      (he : { m with word := w }.effect i = .ok e) : CycleCase m (.ok e.signal, e.settle)

/-- Every cycle goes one of these ways. -/
theorem cycleCase (m : Machine) : CycleCase m m.cycle := by
  rcases hm : m.mode with - | register
  · rcases hf : m.memory.fetch m.counter with fault | w
    · rw [cycle_of_fetch_error hm hf]
      exact .noWord hm hf
    · rw [cycle_of_fetch hm hf]
      rcases hi : Instruction.ofWord? w with - | i
      · rw [runWord_of_unknown hi]
        exact .unknown hm hf hi
      · rcases he : { m with word := w }.effect i with fault | e
        · rw [runWord_of_fault hi he]
          exact .failed hm hf hi he
        · rw [runWord_of_effect hi he]
          exact .ran hm hf hi he
  · by_cases hr : register < 16
    · have hm' : m.mode = .awaitingKey (⟨register, hr⟩ : Register).val := hm
      rw [cycle_of_awaiting hm']
      exact .waiting hm'
    · rw [cycle_of_no_register hm (Nat.not_lt.1 hr)]
      rcases hk : m.keypad.lowestDown with - | key
      · exact .stuck hm (Nat.not_lt.1 hr) hk
      · exact .crashed hm (Nat.not_lt.1 hr) hk

/-! ### The instruction of a cycle -/

/-- The word that the next cycle of the machine reads is that of an instruction. -/
def IsAt (m : Machine) (i : Instruction) : Prop :=
  m.mode = .running ∧ ∃ w, m.memory.fetch m.counter = .ok w ∧ Instruction.ofWord? w = some i

/-- The next cycle of the machine runs an instruction, and it goes well. -/
def Executes (m : Machine) (i : Instruction) : Prop :=
  m.IsAt i ∧ ∃ signal, m.cycle.1 = .ok signal

/-- A cycle reads at most one instruction. -/
theorem IsAt.unique {j : Instruction} (h : m.IsAt i) (h' : m.IsAt j) : i = j := by
  obtain ⟨-, w, hf, hi⟩ := h
  obtain ⟨-, v, hf', hj⟩ := h'
  rw [hf] at hf'
  cases hf'
  exact Option.some.inj (hi.symm.trans hj)

/-- What an instruction that is executed does is its effect, settled. -/
theorem Executes.effect (h : m.Executes i) :
    ∃ w e, { m with word := w }.effect i = .ok e ∧ m.cycle = (.ok e.signal, e.settle) := by
  obtain ⟨⟨hm, w, hf, hi⟩, signal, hok⟩ := h
  rcases he : { m with word := w }.effect i with fault | e
  · rw [cycle_of_fetch hm hf, runWord_of_fault hi he] at hok
    cases hok
  · exact ⟨w, e, he, by rw [cycle_of_fetch hm hf, runWord_of_effect hi he]⟩

theorem agree_withWord (m : Machine) (w : Word) (hp : p ≠ .word) :
    m.Agree { m with word := w } p := by
  cases p with
  | word => exact absurd rfl hp
  | _ => exact rfl

theorem agree_settle (e : Effect) (hp : p ≠ .counter) : e.machine.Agree e.settle p := by
  cases p with
  | counter => exact absurd rfl hp
  | _ => exact rfl

/-- A part that is not the same after a cycle is in the footprint of the instruction that was
executed, or the machine waited and found a key. -/
theorem changed_by_cycle (hw : p ≠ .word) (hc : p ≠ .counter) (h : ¬ m.Agree m.cycle.2 p) :
    (∃ i, m.Executes i ∧ p ∈ i.changes) ∨
      ∃ x : Register, m.mode = .awaitingKey x.val ∧ p ∈ [.registers, .mode] := by
  have hcase := m.cycleCase
  generalize hr : m.cycle = r at hcase h
  cases hcase with
  | @waiting x hm =>
    refine .inr ⟨x, hm, Decidable.byContradiction fun hp => ?_⟩
    exact h ((agree_takeKey x hp).trans (agree_settle _ hc))
  | stuck hm hr hk | crashed hm hr hk | noWord hm hf => exact absurd (.refl m p) h
  | unknown hm hf hi => exact absurd (agree_withWord m _ hw) h
  | failed hm hf hi he => exact absurd (agree_withWord m _ hw) h
  | @ran w i e hm hf hi he =>
    have hexec : m.Executes i := ⟨⟨hm, w, hf, hi⟩, e.signal, by rw [hr]⟩
    refine .inl ⟨i, hexec, Decidable.byContradiction fun hp => ?_⟩
    exact h (((agree_withWord m w hw).trans (agree_of_effect he hp)).trans (agree_settle e hc))

/-- A part that no waiting changes was changed by the instruction that was executed. -/
theorem executed_of_changed (hp : p ∉ [.word, .counter, .registers, .mode])
    (h : ¬ m.Agree m.cycle.2 p) : ∃ i, m.Executes i ∧ p ∈ i.changes := by
  have hw : p ≠ .word := by
    rintro rfl
    exact hp (by decide)
  have hc : p ≠ .counter := by
    rintro rfl
    exact hp (by decide)
  rcases changed_by_cycle hw hc h with hexec | ⟨x, -, hwait⟩
  · exact hexec
  · exact absurd (List.mem_cons_of_mem _ (List.mem_cons_of_mem _ hwait)) hp

/-- No cycle writes to the keypad. -/
theorem keypad_cycle (m : Machine) : m.cycle.2.keypad = m.keypad := by
  refine Classical.byContradiction fun h => ?_
  obtain ⟨i, -, hi⟩ := executed_of_changed (p := .keypad) (by decide) h
  cases i <;> simp [Instruction.changes] at hi

end Machine

end ChipEight

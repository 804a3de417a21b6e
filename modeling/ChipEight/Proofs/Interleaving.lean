/-
ChipEight/Proofs/Interleaving.lean

Cycles among ticks and key writes.  Between two cycles the host changes the timers or the
keypad and nothing else, and it does so without looking at any other part: what it does is a
`Touch`.  An instruction that uses neither the timers nor the keypad that a touch changes has
the same effect before it and behind it:

    (m.touch t).effect i = (m.effect i).map (·.touch t)        if t.Spares i.

So a cycle commutes with a tick unless it runs one of FX07, FX15 and FX18, and with a key write
unless it runs one of EX9E, EXA1 and FX0A or waits; `Machine.Overlooks` is this condition on the
machine before the cycle.

From one pair of commands to lists of them: if every command of the one list commutes with
every command of the other, wherever the two meet, all ways to merge the lists come to the
same (`after_interleaving`).  Where they meet depends on the order that is taken, and the
condition is kept because no touch changes the word that a cycle reads.

Main statement: `cycles_commute`.
-/
import ChipEight.Proofs.Writes

namespace ChipEight

namespace Instruction

/-- The instruction reads or sets a timer: FX07, FX15, FX18. -/
def UsesTimers : Instruction → Prop
  | readDelay _ | setDelay _ | setSound _ => True
  | _ => False

/-- The instruction reads the keypad: EX9E, EXA1, FX0A. -/
def UsesKeypad : Instruction → Prop
  | skipIfKey _ | skipUnlessKey _ | awaitKey _ => True
  | _ => False

end Instruction

/-! ### Touches -/

/-- A change of the timers and of the keypad: what becomes of each. -/
structure Touch where
  delay : UInt8 → UInt8
  sound : UInt8 → UInt8
  keypad : Keypad → Keypad

/-- A touch changes nothing that an instruction uses. -/
structure Touch.Spares (t : Touch) (i : Instruction) : Prop where
  timers : i.UsesTimers → t.delay = id ∧ t.sound = id
  keypad : i.UsesKeypad → t.keypad = id

/-- A machine after a touch. -/
def Machine.touch (m : Machine) (t : Touch) : Machine :=
  { m with delay := t.delay m.delay, sound := t.sound m.sound, keypad := t.keypad m.keypad }

/-- An effect on a machine that is touched behind it. -/
def Effect.touch (e : Effect) (t : Touch) : Effect := { e with machine := e.machine.touch t }

namespace Machine

variable {m : Machine} {t : Touch} {i : Instruction}

@[simp] theorem memory_touch : (m.touch t).memory = m.memory := rfl

@[simp] theorem registers_touch : (m.touch t).registers = m.registers := rfl

@[simp] theorem index_touch : (m.touch t).index = m.index := rfl

@[simp] theorem counter_touch : (m.touch t).counter = m.counter := rfl

@[simp] theorem stack_touch : (m.touch t).stack = m.stack := rfl

theorem keypad_touch (h : t.keypad = id) : (m.touch t).keypad = m.keypad := by
  show t.keypad m.keypad = m.keypad
  rw [h, id]

theorem fill_touch (bytes : List UInt8) :
    (m.touch t).fill bytes = (m.fill bytes).touch t := by
  simp only [fill, touch]

/-! ### One instruction -/

/-- Looking for a key comes to the same if the keypad is left alone. -/
theorem takeKey_touch (h : t.keypad = id) (x : Register) :
    (m.touch t).takeKey x = (m.takeKey x).touch t := by
  unfold takeKey
  rw [congrArg Keypad.lowestDown (keypad_touch h)]
  rcases m.keypad.lowestDown with - | key <;> rfl

/-- An instruction does the same before a touch that spares it and behind that. -/
theorem effect_touch (h : t.Spares i) :
    (m.touch t).effect i = (m.effect i).map fun e => e.touch t := by
  cases i with
  | awaitKey x => exact congrArg Except.ok (takeKey_touch (h.keypad trivial) x)
  | skipIfKey x | skipUnlessKey x =>
    simp only [effect]
    rw [keypad_touch (h.keypad trivial)]
    rfl
  | readDelay x | setDelay x | setSound x =>
    -- the touch is one of the keypad alone
    obtain ⟨delay, sound, keypad⟩ := t
    obtain ⟨rfl, rfl⟩ := h.timers trivial
    rfl
  | combine op x y =>
    simp only [effect, registers_touch]
    rcases op.flag? m.registers[x] m.registers[y] with - | flag <;> rfl
  | ret =>
    simp only [effect, stack_touch]
    rcases m.stack.pop with cause | ⟨caller, stack⟩ <;> rfl
  | call target =>
    simp only [effect, stack_touch, counter_touch]
    rcases m.stack.push m.counter with cause | stack <;> rfl
  | draw x y height =>
    simp only [effect, memory_touch, index_touch]
    rcases m.memory.block m.index height with fault | rows <;> rfl
  | fillRegisters x =>
    simp only [effect, fill_touch, memory_touch, index_touch]
    rcases m.memory.block m.index (x.val + 1) with fault | bytes
    · rfl
    · dsimp only
      -- the registers are filled alike on both sides and need not be opened
      generalize m.fill bytes = filled
      rfl
  | storeDecimal x | storeRegisters x =>
    simp only [effect, valuesUpTo, memory_touch, index_touch, registers_touch]
    rcases m.memory.store m.index _ with fault | memory <;> rfl
  | _ => rfl

/-! ### One cycle -/

/-- A cycle does the same before a touch and behind it, if the touch spares its instruction. -/
theorem cycle_touch (hwait : ∀ x, m.mode = .awaitingKey x → t.keypad = id)
    (hspare : ∀ i, m.IsAt i → t.Spares i) :
    (m.touch t).cycle = (m.cycle.1, m.cycle.2.touch t) := by
  have hc := m.cycleCase
  generalize m.cycle = r at hc ⊢
  -- mode and word are out of reach of the touch, so both cycles go the same way
  cases hc with
  | @waiting x hm =>
    rw [cycle_of_awaiting (m := m.touch t) hm, takeKey_touch (hwait x hm)]
    rfl
  | @stuck register hm hr hk =>
    rw [cycle_of_no_register (m := m.touch t) hm hr, keypad_touch (hwait register hm), hk]
    rfl
  | @crashed register key hm hr hk =>
    rw [cycle_of_no_register (m := m.touch t) hm hr, keypad_touch (hwait register hm), hk]
    rfl
  | noWord hm hf => exact cycle_of_fetch_error (m := m.touch t) hm hf
  | unknown hm hf hi =>
    rw [cycle_of_fetch (m := m.touch t) hm hf, runWord_of_unknown hi]
    rfl
  | @failed w i fault hm hf hi he =>
    have ht := effect_touch (m := { m with word := w }) (hspare i ⟨hm, w, hf, hi⟩)
    rw [he] at ht
    rw [cycle_of_fetch (m := m.touch t) hm hf]
    exact runWord_of_fault hi ht
  | @ran w i e hm hf hi he =>
    have ht := effect_touch (m := { m with word := w }) (hspare i ⟨hm, w, hf, hi⟩)
    rw [he] at ht
    rw [cycle_of_fetch (m := m.touch t) hm hf]
    exact runWord_of_effect hi ht

/-- A cycle that runs no instruction for the timers leaves the sound timer alone. -/
theorem sound_cycle (h : ∀ i, m.IsAt i → ¬ i.UsesTimers) : m.cycle.2.sound = m.sound := by
  refine Decidable.byContradiction fun hne => ?_
  obtain ⟨x, hset⟩ := m.written_cycle.sound hne
  exact h _ hset.1 trivial

/-- A machine that runs goes on running if its instruction does not use the keypad. -/
theorem running_cycle (hm : m.mode = .running) (h : ∀ i, m.IsAt i → ¬ i.UsesKeypad) :
    m.cycle.2.mode = .running := by
  rw [← hm]
  refine Decidable.byContradiction fun hne => ?_
  obtain ⟨x, hwait | hask⟩ := m.written_cycle.mode hne
  · exact ne_awaitingKey_of_running hm x hwait
  · exact h _ hask.1 trivial

end Machine

/-! ### Ticks and key writes -/

namespace Command

/-- Ticks and key writes. -/
def IsTouch : Command → Prop
  | tick | setKey .. | toggleKey _ | setKeys _ => True
  | _ => False

/-- What becomes of the keypad. -/
def keyChange (c : Command) (k : Keypad) : Keypad :=
  match c with
  | setKey number down =>
    match Key.ofNat number with
    | .ok key => k.set key down
    | .error _ => k
  | toggleKey number =>
    match Key.ofNat number with
    | .ok key => k.toggle key
    | .error _ => k
  | setKeys keys => (Keypad.ofList? keys).getD k
  | _ => k

/-- What becomes of the timers and the keypad. -/
def touch : Command → Touch
  | tick => ⟨countDown, countDown, id⟩
  | c => ⟨id, id, c.keyChange⟩

end Command

/-- The next cycle of a machine does not look at what a command changes. -/
def Machine.Overlooks (m : Machine) : Command → Prop
  | .tick => ∀ i, m.IsAt i → ¬ i.UsesTimers
  | .setKey .. | .toggleKey _ | .setKeys _ =>
    m.mode = .running ∧ ∀ i, m.IsAt i → ¬ i.UsesKeypad
  | _ => False

namespace Machine.Overlooks

variable {m : Machine} {c : Command}

/-- What the next cycle looks at is out of reach of a touch. -/
theorem touch (h : m.Overlooks c) (t : Touch) : (m.touch t).Overlooks c := by
  -- neither the mode nor the word at the counter is touched
  cases c <;> exact h

theorem isTouch (h : m.Overlooks c) : c.IsTouch := by
  cases c with
  | tick | setKey number down | toggleKey number | setKeys keys => trivial
  | _ => exact h.elim

theorem spares (h : m.Overlooks c) (i : Instruction) (hi : m.IsAt i) : c.touch.Spares i := by
  cases c with
  | tick => exact ⟨fun htimers => absurd htimers (h i hi), fun _ => rfl⟩
  | setKey number down | toggleKey number | setKeys keys =>
    exact ⟨fun _ => ⟨rfl, rfl⟩, fun hkeypad => absurd hkeypad (h.2 i hi)⟩
  | _ => exact h.elim

theorem keypad_of_awaiting (h : m.Overlooks c) (x : Nat) (hm : m.mode = .awaitingKey x) :
    c.touch.keypad = id := by
  cases c with
  | tick => rfl
  | setKey number down | toggleKey number | setKeys keys =>
    exact absurd hm (ne_awaitingKey_of_running h.1 x)
  | _ => exact h.elim

end Machine.Overlooks

/-! ### Merging lists -/

/-- The third list is a way to merge the first two, each kept in its own order. -/
inductive Interleaving {α : Type} : List α → List α → List α → Prop
  | nil : Interleaving [] [] []
  | left (a : α) {as bs merged : List α} (h : Interleaving as bs merged) :
      Interleaving (a :: as) bs (a :: merged)
  | right (b : α) {as bs merged : List α} (h : Interleaving as bs merged) :
      Interleaving as (b :: bs) (b :: merged)

namespace Session

/-! ### Two commands -/

/-- What some commands come to: each with its reply. -/
def exchanges (s : Session) (cs : List Command) : List (Command × Reply) :=
  cs.zip ((s.outcomes perform cs).map Outcome.reply)

/-- Two commands lead to the same session in either order, each with the same reply. -/
structure Commutes (s : Session) (c d : Command) : Prop where
  session : ((s.perform c).session.perform d).session = ((s.perform d).session.perform c).session
  first : ((s.perform d).session.perform c).reply = (s.perform c).reply
  second : ((s.perform c).session.perform d).reply = (s.perform d).reply

variable {s t : Session} {c d : Command}

theorem Commutes.symm (h : s.Commutes c d) : s.Commutes d c :=
  ⟨h.session.symm, h.second, h.first⟩

/-- A tick or a key write touches the machine. -/
theorem session_perform_touch (hc : c.IsTouch) :
    (s.perform c).session = { s with machine := s.machine.touch c.touch } := by
  cases c with
  | tick => rfl
  | setKey number down | toggleKey number =>
    simp only [perform, Machine.touch, Command.touch, Command.keyChange]
    rcases Key.ofNat number with fault | key <;> rfl
  | setKeys keys =>
    simp only [perform, Machine.touch, Command.touch, Command.keyChange]
    rcases Keypad.ofList? keys with - | keypad <;> rfl
  | _ => exact hc.elim

/-- The reply to a tick depends on the sound timer, and that to a key write on nothing. -/
theorem reply_perform_touch (hc : c.IsTouch)
    (h : c = .tick → t.machine.sound = s.machine.sound) :
    (t.perform c).reply = (s.perform c).reply := by
  cases c with
  | tick =>
    simp only [perform, Machine.tick, become]
    rw [h rfl]
  | setKey number down | toggleKey number =>
    simp only [perform]
    rcases Key.ofNat number with fault | key <;> rfl
  | setKeys keys =>
    simp only [perform]
    rcases Keypad.ofList? keys with - | keypad <;> rfl
  | _ => exact hc.elim

/-- A cycle commutes with a command that changes only what it does not look at. -/
theorem commutes_of_overlooks (h : s.machine.Overlooks c) : s.Commutes .cycle c := by
  have hcycle := Machine.cycle_touch h.keypad_of_awaiting h.spares
  refine ⟨?_, ?_, reply_perform_touch h.isTouch ?_⟩
  · rw [session_perform_touch h.isTouch, session_perform_touch h.isTouch, perform_cycle,
      perform_cycle, hcycle]
    rfl
  · rw [session_perform_touch h.isTouch, perform_cycle, perform_cycle, hcycle]
    rfl
  · -- a tick reports the end of a tone by the sound timer, which the cycle leaves alone
    rintro rfl
    rw [perform_cycle]
    exact Machine.sound_cycle h

/-! ### Two lists of commands -/

/-- Wherever they meet, a command of the one list and a command of the other commute. -/
def Independent (s : Session) (cs ds : List Command) : Prop :=
  ∀ before c later before' d later', cs = before ++ c :: later → ds = before' ++ d :: later' →
    ((s.after before).after before').Commutes c d

variable {cs ds : List Command}

/-- A command that commutes with each of some commands can be carried out behind them. -/
theorem after_past
    (h : ∀ before d later, ds = before ++ d :: later → (s.after before).Commutes c d) :
    (s.perform c).session.after ds = ((s.after ds).perform c).session ∧
      (s.perform c).session.exchanges ds = s.exchanges ds := by
  induction ds generalizing s with
  | nil => exact ⟨rfl, rfl⟩
  | cons d rest ih =>
    have hd : s.Commutes c d := h [] d rest rfl
    obtain ⟨hafter, hreplies⟩ := ih (s := (s.perform d).session)
      fun before e later he => h (d :: before) e later (he ▸ rfl)
    constructor
    · show ((s.perform c).session.perform d).session.after rest = _
      rw [hd.session, hafter]
      rfl
    · show (d, ((s.perform c).session.perform d).reply) ::
        ((s.perform c).session.perform d).session.exchanges rest = _
      rw [hd.second, hd.session, hreplies]
      rfl

/-- The first command of the first list commutes with all of the second. -/
theorem Independent.left (h : s.Independent (c :: cs) ds) :
    (s.perform c).session.Independent cs ds ∧
      (s.perform c).session.exchanges ds = s.exchanges ds :=
  ⟨fun before e later before' d later' he hd =>
      h (c :: before) e later before' d later' (he ▸ rfl) hd,
    (after_past fun before' d later' hd => h [] c cs before' d later' rfl hd).2⟩

/-- The first command of the second list commutes with all of the first. -/
theorem Independent.right (h : s.Independent cs (d :: ds)) :
    (s.perform d).session.Independent cs ds ∧
      (s.perform d).session.after cs = ((s.after cs).perform d).session ∧
      (s.perform d).session.exchanges cs = s.exchanges cs := by
  have hd : ∀ before c later, cs = before ++ c :: later → (s.after before).Commutes d c :=
    fun before c later hc => (h before c later [] d ds hc rfl).symm
  refine ⟨fun before c later before' e later' hc he => ?_, after_past hd⟩
  -- the command of the second list is past those of the first by then
  have hpast : (s.perform d).session.after before = ((s.after before).perform d).session := by
    refine (after_past fun first b middle hb => ?_).1
    exact hd first b (middle ++ c :: later) (by rw [hc, hb, List.append_assoc]; rfl)
  rw [hpast]
  exact h before c later (d :: before') e later' hc (he ▸ rfl)

/-- **All ways to merge independent lists come to the same.**  The session after them is that
after the one list and then the other, and each command has the reply that it has if its own
list is carried out alone. -/
theorem after_interleaving {merged : List Command} (h : s.Independent cs ds)
    (hmerge : Interleaving cs ds merged) :
    s.after merged = (s.after cs).after ds ∧
      Interleaving (s.exchanges cs) (s.exchanges ds) (s.exchanges merged) := by
  -- on the merge; the first of its commands is past the other list
  induction hmerge generalizing s with
  | nil => exact ⟨rfl, .nil⟩
  | left c hmerge ih =>
    obtain ⟨hrest, hreplies⟩ := h.left
    obtain ⟨hafter, hexchanges⟩ := ih hrest
    rw [hreplies] at hexchanges
    exact ⟨hafter, .left _ hexchanges⟩
  | right d hmerge ih =>
    obtain ⟨hrest, hpast, hreplies⟩ := h.right
    obtain ⟨hafter, hexchanges⟩ := ih hrest
    rw [hreplies] at hexchanges
    rw [hpast] at hafter
    exact ⟨hafter, .right _ hexchanges⟩

/-! ### Cycles and touches -/

/-- Ticks and key writes do not change what the next cycle looks at. -/
theorem overlooks_after {touches : List Command} (hcs : ∀ c ∈ touches, c.IsTouch)
    (h : s.machine.Overlooks d) : (s.after touches).machine.Overlooks d := by
  induction touches generalizing s with
  | nil => exact h
  | cons c rest ih =>
    refine ih (fun e he => hcs e (List.mem_cons_of_mem c he)) ?_
    rw [session_perform_touch (hcs c List.mem_cons_self)]
    exact h.touch c.touch

/-- Cycles are independent of what none of them looks at. -/
theorem independent_of_overlooks {count : Nat} {touches : List Command}
    (h : ∀ number < count, ∀ c ∈ touches,
      (s.after (.replicate number .cycle)).machine.Overlooks c) :
    s.Independent (.replicate count .cycle) touches := by
  rintro before c later before' d later' hc rfl
  obtain ⟨hlength, hbefore, hlater⟩ := List.append_eq_replicate_iff.1 hc.symm
  have hcycle : c = .cycle := List.eq_of_mem_replicate (hlater ▸ List.mem_cons_self)
  have hover := h before.length (by rw [← hlength, List.length_cons]; omega)
  rw [← hbefore] at hover
  rw [hcycle]
  -- the touches carried out before do not bring in sight what this cycle overlooks
  refine commutes_of_overlooks (overlooks_after (fun e he => ?_) (hover d (by simp)))
  exact (hover e (List.mem_append_left _ he)).isTouch

/-- Cycles that do not use the keypad run on. -/
theorem running_after_cycles {count : Nat} (hm : s.machine.mode = .running)
    (h : ∀ number < count, ∀ i,
      (s.after (.replicate number .cycle)).machine.IsAt i → ¬ i.UsesKeypad) :
    (s.after (.replicate count .cycle)).machine.mode = .running := by
  -- on the count; the later cycles are those of the session after the first
  induction count generalizing s with
  | zero => exact hm
  | succ count ih =>
    have hfirst : (s.perform .cycle).session.machine.mode = .running := by
      rw [perform_cycle]
      exact Machine.running_cycle hm (h 0 (by omega))
    exact ih hfirst fun number hn => h (number + 1) (by omega)

/-- **Cycles commute with what they do not look at.**  A cycle and a tick, or a cycle and a key
write, lead to the same session in either order with the same replies, if the machine
overlooks the latter.  So if a machine runs and none of its next cycles comes to an
instruction that uses the timers or the keypad, then these cycles and any ticks and key writes
can be merged in any way: the session after all of them is the same, and so is each reply.  The
exchanges tell a cycle from a touch, so they are merged as the commands are. -/
theorem cycles_commute :
    (∀ (s : Session) (c : Command), s.machine.Overlooks c → s.Commutes .cycle c) ∧
    ∀ (s : Session) (count : Nat) (touches merged : List Command),
      s.machine.mode = .running →
      (∀ number < count, ∀ i, (s.after (.replicate number .cycle)).machine.IsAt i →
        ¬ i.UsesTimers ∧ ¬ i.UsesKeypad) →
      (∀ c ∈ touches, c.IsTouch) →
      Interleaving (.replicate count .cycle) touches merged →
        s.after merged = (s.after (.replicate count .cycle)).after touches ∧
        Interleaving (s.exchanges (.replicate count .cycle)) (s.exchanges touches)
          (s.exchanges merged) := by
  refine ⟨fun s c => commutes_of_overlooks, ?_⟩
  intro s count touches merged hm hquiet htouch hmerge
  refine after_interleaving (independent_of_overlooks fun number hn c hc => ?_) hmerge
  have hrunning : (s.after (.replicate number .cycle)).machine.mode = .running :=
    running_after_cycles hm fun earlier he i hi => (hquiet earlier (by omega) i hi).2
  have hc := htouch c hc
  cases c with
  | tick => exact fun i hi => (hquiet number hn i hi).1
  | setKey _ _ | toggleKey _ | setKeys _ =>
    exact ⟨hrunning, fun i hi => (hquiet number hn i hi).2⟩
  | _ => exact hc.elim

/-- A tick that ends the tone of a machine that waits for a key; a key pressed on a machine
without a program, the cycle of which fails; and a loop of two instructions, with a tick and a
key in between that take effect nowhere. -/
theorem cycles_commute_loop :
    let blank := start (Machine.powerOn ByteSource.zeros) Pacing.usual
    let waiting := blank.after
      [.load [0x60, 0x01, 0xF0, 0x18, 0xF0, 0x0A], .cycle, .cycle, .cycle]
    let s := blank.after [.load [0x70, 0x01, 0x12, 0x00]]
    waiting.machine.mode = .awaitingKey 0 ∧
      ((waiting.perform .tick).session.perform .cycle).reply = .signal .wait ∧
      ((waiting.perform .cycle).session.perform .tick).reply = .ticked (some .stop) ∧
      ((blank.perform (.setKey 3 true)).session.perform .cycle).reply =
        .failed (.word (.unknown 0)) ∧
      s.after [.tick, .cycle, .setKey 3 true, .cycle] =
        s.after [.cycle, .cycle, .tick, .setKey 3 true] := by
  intro blank waiting s
  have hwait : waiting.machine.mode = .awaitingKey 0 ∧
      (waiting.machine.takeKey 0).signal = .wait ∧ waiting.machine.tick.1 = some .stop := by
    decide +kernel
  have hword : blank.machine.memory.fetch 0x200 = .ok 0 :=
    Memory.fetch_eq_ok_iff.2 (by decide +kernel)
  have hnone : Instruction.ofWord? 0 = none := by decide
  have hm : s.machine.mode = .running := by decide +kernel
  have hadd : s.machine.IsAt (.addByte 0 1) :=
    ⟨hm, 0x7001, Memory.fetch_eq_ok_iff.2 (by decide +kernel), by decide⟩
  have hjump : (s.perform .cycle).session.machine.IsAt (.jump 0x200) :=
    ⟨by decide +kernel, 0x1200, Memory.fetch_eq_ok_iff.2 (by decide +kernel), by decide⟩
  clear_value s
  have hticks : waiting.Commutes .cycle .tick :=
    cycles_commute.1 waiting .tick fun i hi =>
      absurd hwait.1 (Machine.ne_awaitingKey_of_running hi.1 0)
  have hkeys : blank.Commutes .cycle (.setKey 3 true) := by
    refine cycles_commute.1 blank (.setKey 3 true) ⟨rfl, ?_⟩
    rintro i ⟨-, w, hf, hi⟩
    cases hword.symm.trans hf
    cases hnone.symm.trans hi
  have hquiet : ∀ number < 2, ∀ i, (s.after (.replicate number .cycle)).machine.IsAt i →
      ¬ i.UsesTimers ∧ ¬ i.UsesKeypad := by
    intro number hn i hi
    obtain rfl | rfl : number = 0 ∨ number = 1 := by omega
    · exact hadd.unique hi ▸ ⟨id, id⟩
    · exact hjump.unique hi ▸ ⟨id, id⟩
  have hmerge : Interleaving (.replicate 2 Command.cycle) [.tick, .setKey 3 true]
      [.tick, .cycle, .setKey 3 true, .cycle] :=
    .right _ (.left _ (.right _ (.left _ .nil)))
  have htouch : ∀ c ∈ [Command.tick, .setKey 3 true], c.IsTouch := by
    simp [Command.IsTouch]
  refine ⟨hwait.1, ?_, ?_, ?_, (cycles_commute.2 s 2 _ _ hm hquiet htouch hmerge).1⟩
  · have hcycle := Machine.cycle_of_awaiting (x := 0) hwait.1
    rw [hticks.first, perform_cycle, hcycle, hwait.2.1]
    rfl
  · rw [hticks.second, ← hwait.2.2]
    rfl
  · rw [hkeys.first, reply_perform_cycle, Machine.cycle_of_fetch rfl hword,
      Machine.runWord_of_unknown hnone]

end Session

end ChipEight

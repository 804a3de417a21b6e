/-
ChipEight/Proofs/Signals.lean

What a cycle tells the host, and that it is what happened.  The signal of an instruction that
goes well is known from the machine before it, `m.signalOf i`: four instructions have something
to tell, each about the one part of the machine that no other instruction writes to,

    00E0, DXYN   the screen,        FX0A   the mode,        FX18   the sound timer,

and the others are quiet.  So each signal can be read both ways, as what it was told for and as
what did happen (`Tells`).

It follows that a host need not look at the machine between cycles.  An `Onlooker` notes what
each cycle comes to and looks at the screen only when it is told that the screen was written to;
what it knows at the beginning it knows after any number of cycles.

Main statement: `signals_tell`.
-/
import ChipEight.Proofs.Beeper
import ChipEight.Proofs.Forms

namespace ChipEight

/-! ### Edges of the sound timer -/

namespace Tone

variable {before after : UInt8}

theorem edge?_eq_start_iff : edge? before after = some start ↔ before = 0 ∧ after ≠ 0 := by
  unfold edge?
  by_cases hb : before = 0 <;> by_cases ha : after = 0 <;> simp [hb, ha]

theorem edge?_eq_stop_iff : edge? before after = some stop ↔ before ≠ 0 ∧ after = 0 := by
  unfold edge?
  by_cases hb : before = 0 <;> by_cases ha : after = 0 <;> simp [hb, ha]

theorem edge?_self (timer : UInt8) : edge? timer timer = none := by
  unfold edge?
  by_cases h : timer = 0 <;> simp [h]

end Tone

namespace Machine

/-- The signal of an instruction that goes well. -/
def signalOf (m : Machine) : Instruction → Signal
  | .clearScreen | .draw .. => .redraw
  | .awaitKey x => (m.takeKey x).signal
  | .setSound x => (m.changeSound (m.registers.get x)).signal
  | _ => .quiet

/-- `Tells m signal n`: the signal tells what there is to tell of a cycle that leads from `m` to
`n`.  It is that of waiting exactly if the machine waits now, that of a redraw exactly if the
word that was run is `00E0` or `DXYN`, in which case the screen is marked and otherwise the same
as before, mark included, and that of an edge exactly if the sound timer has left zero or come
to zero. -/
structure Tells (m : Machine) (signal : Signal) (n : Machine) : Prop where
  wait : signal = .wait ↔ ∃ x, n.mode = .awaitingKey x
  redraw : signal = .redraw ↔
    m.mode = .running ∧ ∃ w, m.memory.fetch m.counter = .ok w ∧ (w.Fits "00E0" ∨ w.Fits "DXYN")
  marked : signal = .redraw → n.needsRedraw = true
  still : signal ≠ .redraw → n.screen = m.screen
  start : signal = .tone .start ↔ m.sound = 0 ∧ n.sound ≠ 0
  stop : signal = .tone .stop ↔ m.sound ≠ 0 ∧ n.sound = 0

variable {m : Machine} {i : Instruction} {e : Effect} {x : Register} {w : Word} {signal : Signal}

/-! ### The signal of an instruction -/

theorem signal_of_effect (h : m.effect i = .ok e) : e.signal = m.signalOf i := by
  cases i with
  | ret | call target | draw x y height | storeDecimal x | storeRegisters x
  | fillRegisters x =>
    simp only [effect] at h
    split at h <;> cases h
    rfl
  | _ =>
    cases h
    rfl

/-- Looking for a key is quiet if it ends the wait, and otherwise tells of it. -/
theorem signal_takeKey (m : Machine) (x : Register) :
    (m.takeKey x).signal = .quiet ∧ (m.takeKey x).settle.mode = .running ∨
      (m.takeKey x).signal = .wait ∧ (m.takeKey x).settle.mode = .awaitingKey x := by
  unfold takeKey
  rcases m.keypad.lowestDown with - | key
  · exact .inr ⟨rfl, rfl⟩
  · exact .inl ⟨rfl, rfl⟩

theorem signal_takeKey_eq_wait_iff :
    (m.takeKey x).signal = .wait ↔ ∃ y, (m.takeKey x).settle.mode = .awaitingKey y := by
  rcases m.signal_takeKey x with ⟨hsignal, hmode⟩ | ⟨hsignal, hmode⟩ <;>
    simp [hsignal, hmode]

/-- Setting the sound timer tells the edge between the two values, if there is one. -/
theorem signal_changeSound_eq_tone_iff (value : UInt8) (edge : Tone) :
    (m.changeSound value).signal = .tone edge ↔ Tone.edge? m.sound value = some edge := by
  unfold changeSound
  rcases Tone.edge? m.sound value with - | other <;> simp

/-- A machine waits behind an instruction exactly if it is told so. -/
theorem signal_eq_wait_iff (hm : m.mode = .running) (h : m.effect i = .ok e) :
    e.signal = .wait ↔ ∃ x, e.settle.mode = .awaitingKey x := by
  by_cases hi : ∃ x, i = .awaitKey x
  · obtain ⟨x, rfl⟩ := hi
    cases h
    exact signal_takeKey_eq_wait_iff
  · have hne : ∀ x, i ≠ .awaitKey x := fun x hx => hi ⟨x, hx⟩
    have hmode : e.settle.mode = .running := (mode_of_effect h hne).trans hm
    have hsignal : e.signal ≠ .wait := by
      rw [signal_of_effect h]
      cases i with
      | awaitKey x => exact absurd rfl (hne x)
      | setSound x =>
        simp only [signalOf, changeSound]
        split <;> exact Signal.noConfusion
      | _ => exact Signal.noConfusion
    refine iff_of_false hsignal ?_
    rintro ⟨x, hx⟩
    exact ne_awaitingKey_of_running hmode x hx

/-- The host is told of the screen exactly if the instruction may write to it. -/
theorem signal_eq_redraw_iff (h : m.effect i = .ok e) :
    e.signal = .redraw ↔ Part.screen ∈ i.changes := by
  rw [signal_of_effect h]
  cases i with
  | awaitKey x =>
    rcases m.signal_takeKey x with ⟨hsignal, -⟩ | ⟨hsignal, -⟩ <;>
      simp [signalOf, hsignal, Instruction.changes]
  | setSound x =>
    simp only [signalOf, changeSound, Instruction.changes]
    split <;> simp
  | _ => simp [signalOf, Instruction.changes]

/-- The words whose instructions write to the screen. -/
theorem screen_mem_changes_iff (hi : Instruction.ofWord? w = some i) :
    Part.screen ∈ i.changes ↔ w.Fits "00E0" ∨ w.Fits "DXYN" := by
  rw [Instruction.fits_iff_of_ofWord? hi (by decide),
    Instruction.fits_iff_of_ofWord? hi (by decide)]
  cases i with
  | combine op x y => cases op <;> simp [Instruction.changes, Instruction.form]
  | _ => simp [Instruction.changes, Instruction.form]

/-- An instruction that may write to the screen marks it. -/
theorem changed_of_effect (h : m.effect i = .ok e) (hi : Part.screen ∈ i.changes) :
    e.machine.screen.changed = true := by
  cases i with
  | clearScreen =>
    cases h
    rfl
  | draw x y height =>
    simp only [effect] at h
    split at h <;> cases h
    rfl
  | _ => simp [Instruction.changes] at hi

/-- The host is told of an edge exactly if there is that edge between the two values of the
sound timer. -/
theorem signal_eq_tone_iff (h : m.effect i = .ok e) (edge : Tone) :
    e.signal = .tone edge ↔ Tone.edge? m.sound e.machine.sound = some edge := by
  by_cases hi : ∃ x, i = .setSound x
  · obtain ⟨x, rfl⟩ := hi
    cases h
    exact signal_changeSound_eq_tone_iff m.registers[x] edge
  · have hne : ∀ x, i ≠ .setSound x := fun x hx => hi ⟨x, hx⟩
    have hsound : e.machine.sound = m.sound := by
      refine agree_of_effect (p := .sound) h ?_
      cases i with
      | setSound x => exact absurd rfl (hne x)
      | _ => simp [Instruction.changes]
    have hsignal : e.signal ≠ .tone edge := fun htone => by
      have hedge := edge?_of_effect h hne
      rw [htone] at hedge
      cases hedge
    rw [hsound, Tone.edge?_self]
    exact iff_of_false hsignal (Option.some_ne_none edge).symm

/-! ### The signal of a cycle -/

/-- What a waiting machine tells. -/
theorem tells_takeKey (hm : m.mode = .awaitingKey x) :
    m.Tells (m.takeKey x).signal (m.takeKey x).settle := by
  have hscreen : (m.takeKey x).settle.screen = m.screen :=
    agree_takeKey (p := .screen) x (by decide)
  have hsound : (m.takeKey x).settle.sound = m.sound :=
    agree_takeKey (p := .sound) x (by decide)
  have hother : ∀ signal, signal ≠ .quiet → signal ≠ .wait → (m.takeKey x).signal ≠ signal := by
    intro signal hquiet hwait
    rcases m.signal_takeKey x with ⟨hs, -⟩ | ⟨hs, -⟩ <;> rw [hs]
    · exact hquiet.symm
    · exact hwait.symm
  refine ⟨signal_takeKey_eq_wait_iff, ?_, fun hs => absurd hs (hother _ nofun nofun),
    fun _ => hscreen, ?_, ?_⟩
  · exact iff_of_false (hother _ nofun nofun) fun ⟨hrunning, _⟩ =>
      ne_awaitingKey_of_running hrunning x hm
  · rw [hsound]
    exact iff_of_false (hother _ nofun nofun) fun ⟨hzero, hne⟩ => hne hzero
  · rw [hsound]
    exact iff_of_false (hother _ nofun nofun) fun ⟨hne, hzero⟩ => hne hzero

/-- A machine that goes on waiting tells so. -/
theorem tells_waiting {register : Nat} (hm : m.mode = .awaitingKey register) :
    m.Tells .wait m := by
  refine ⟨iff_of_true rfl ⟨register, hm⟩, ?_, nofun, fun _ => rfl, ?_, ?_⟩
  · exact iff_of_false nofun fun ⟨hrunning, _⟩ => ne_awaitingKey_of_running hrunning _ hm
  · exact iff_of_false nofun fun ⟨hzero, hne⟩ => hne hzero
  · exact iff_of_false nofun fun ⟨hne, hzero⟩ => hne hzero

/-- What a machine tells that runs an instruction. -/
theorem tells_of_effect (hm : m.mode = .running) (hf : m.memory.fetch m.counter = .ok w)
    (hi : Instruction.ofWord? w = some i) (he : { m with word := w }.effect i = .ok e) :
    m.Tells e.signal e.settle := by
  refine ⟨signal_eq_wait_iff (m := { m with word := w }) hm he, ?_, fun hredraw => ?_,
    fun hother => ?_, ?_, ?_⟩
  · rw [signal_eq_redraw_iff he, screen_mem_changes_iff hi]
    constructor
    · intro hfits
      exact ⟨hm, w, hf, hfits⟩
    · rintro ⟨-, v, hf', hfits⟩
      rw [hf] at hf'
      cases hf'
      exact hfits
  · exact changed_of_effect he ((signal_eq_redraw_iff he).1 hredraw)
  · have hp : Part.screen ∉ i.changes := fun hp => hother ((signal_eq_redraw_iff he).2 hp)
    exact agree_of_effect (m := { m with word := w }) (p := .screen) he hp
  · exact (signal_eq_tone_iff he .start).trans Tone.edge?_eq_start_iff
  · exact (signal_eq_tone_iff he .stop).trans Tone.edge?_eq_stop_iff

theorem tells_cycle (h : m.cycle.1 = .ok signal) : m.Tells signal m.cycle.2 := by
  have hc := m.cycleCase
  generalize m.cycle = r at hc h ⊢
  cases hc with
  | waiting hm =>
    cases h
    exact tells_takeKey hm
  | stuck hm hr hk =>
    cases h
    exact tells_waiting hm
  | crashed hm hr hk | noWord hm hf | unknown hm hf hi | failed hm hf hi he => cases h
  | ran hm hf hi he =>
    cases h
    exact tells_of_effect hm hf hi he

end Machine

/-! ### Looking on -/

/-- What a host knows that goes by the signals: the cells when it last looked at them, whether
the beeper sounds, and whether the machine waits for a key. -/
structure Onlooker where
  cells : Vector Bool 2048
  sounding : Bool
  waiting : Bool

namespace Onlooker

/-- Note what a cycle came to.  The screen is looked at if the signal is that of a redraw, and a
cycle that fails tells nothing. -/
def note (o : Onlooker) (screen : Screen) : Except Fault Signal → Onlooker
  | .ok .quiet => { o with waiting := false }
  | .ok .wait => { o with waiting := true }
  | .ok .redraw => { o with cells := screen.cells, waiting := false }
  | .ok (.tone .start) => { o with sounding := true, waiting := false }
  | .ok (.tone .stop) => { o with sounding := false, waiting := false }
  | .error _ => o

/-- Look on while a machine runs so many cycles. -/
def watch (o : Onlooker) (m : Machine) : Nat → Onlooker
  | 0 => o
  | count + 1 => (o.note m.cycle.2.screen m.cycle.1).watch m.cycle.2 count

/-- The onlooker knows how things are. -/
structure Knows (o : Onlooker) (m : Machine) : Prop where
  cells : o.cells = m.screen.cells
  sounding : o.sounding = m.soundActive
  waiting : o.waiting = true ↔ ∃ x, m.mode = .awaitingKey x

variable {o : Onlooker} {m n : Machine} {signal : Signal}

/-- A machine sounds as before unless the signal is that of an edge. -/
theorem soundActive_of_tells (h : m.Tells signal n) (hs : ∀ edge, signal ≠ .tone edge) :
    n.soundActive = m.soundActive := by
  unfold Machine.soundActive
  by_cases hb : m.sound = 0
  · have ha : n.sound = 0 :=
      Decidable.byContradiction fun ha => hs .start (h.start.2 ⟨hb, ha⟩)
    rw [ha, hb]
  · have ha : n.sound ≠ 0 := fun ha => hs .stop (h.stop.2 ⟨hb, ha⟩)
    rw [bne_iff_ne.2 ha, bne_iff_ne.2 hb]

/-- What a cycle tells is enough to go on knowing. -/
theorem Knows.note_signal (h : o.Knows m) (ht : m.Tells signal n) :
    (o.note n.screen (.ok signal)).Knows n := by
  have hcells : signal ≠ .redraw → o.cells = n.screen.cells := fun hs => by
    rw [ht.still hs]
    exact h.cells
  have hsound : (∀ edge, signal ≠ .tone edge) → o.sounding = n.soundActive := fun hs =>
    h.sounding.trans (soundActive_of_tells ht hs).symm
  have hwait : signal ≠ .wait → (false = true ↔ ∃ x, n.mode = .awaitingKey x) := fun hs =>
    iff_of_false Bool.false_ne_true fun hx => hs (ht.wait.2 hx)
  cases signal with
  | quiet =>
    exact ⟨hcells Signal.noConfusion, hsound fun _ => Signal.noConfusion,
      hwait Signal.noConfusion⟩
  | wait =>
    exact ⟨hcells Signal.noConfusion, hsound fun _ => Signal.noConfusion,
      iff_of_true rfl (ht.wait.1 rfl)⟩
  | redraw => exact ⟨rfl, hsound fun _ => Signal.noConfusion, hwait Signal.noConfusion⟩
  | tone edge =>
    have hlooked := hcells Signal.noConfusion
    have hwaiting := hwait Signal.noConfusion
    cases edge with
    | start => exact ⟨hlooked, (bne_iff_ne.2 (ht.start.1 rfl).2).symm, hwaiting⟩
    | stop =>
      have hsilent : n.soundActive = false := by
        rw [Machine.soundActive, (ht.stop.1 rfl).2]
        rfl
      exact ⟨hlooked, hsilent.symm, hwaiting⟩

/-- A cycle that fails changes nothing that there is to know. -/
theorem Knows.note_fault {fault : Fault} (h : o.Knows m) (hf : m.cycle.1 = .error fault) :
    o.Knows m.cycle.2 := by
  have hc := m.cycleCase
  generalize m.cycle = r at hc hf ⊢
  cases hc with
  | waiting hm | stuck hm hr hk | ran hm hf' hi he => cases hf
  | crashed hm hr hk | noWord hm hf' => exact h
  | unknown hm hf' hi | failed hm hf' hi he => exact ⟨h.cells, h.sounding, h.waiting⟩

theorem Knows.note (h : o.Knows m) : (o.note m.cycle.2.screen m.cycle.1).Knows m.cycle.2 := by
  rcases hr : m.cycle.1 with fault | signal
  · exact h.note_fault hr
  · exact h.note_signal (Machine.tells_cycle hr)

theorem Knows.watch (h : o.Knows m) (count : Nat) :
    (o.watch m count).Knows ((fun n => n.cycle.2)^[count] m) := by
  induction count generalizing o m with
  | zero => exact h
  | succ count ih => exact ih h.note

end Onlooker

namespace Machine

/-- **Signals tell what happened.**  The signal of a cycle that goes well tells whether the
machine waits, whether it wrote to the screen and whether the beeper has an edge, each exactly.
So a host that goes by the signals, and that knows the cells, the beeper and the mode once, knows
them after any number of cycles, failed ones among them. -/
theorem signals_tell (m : Machine) :
    (∀ signal, m.cycle.1 = .ok signal → m.Tells signal m.cycle.2) ∧
      ∀ o : Onlooker, o.Knows m →
        ∀ count, (o.watch m count).Knows ((fun n => n.cycle.2)^[count] m) :=
  ⟨fun _ => tells_cycle, fun _ => Onlooker.Knows.watch⟩

/-- A glyph is drawn, a tone begins, and a key is asked for that does not come. -/
theorem signals_tell_while_waiting :
    let m := { powerOn ByteSource.zeros with
      memory := (powerOn ByteSource.zeros).memory.overwrite Memory.programStart
        [0xD0, 0x05, 0x60, 0x02, 0xF0, 0x18, 0xF1, 0x0A] }
    let o : Onlooker := ⟨Screen.blank.cells, false, false⟩
    let later := (fun n => n.cycle.2)^[5] m
    m.cycle.1 = .ok .redraw ∧ m.Tells .redraw m.cycle.2 ∧ o.Knows m ∧
      (o.watch m 5).cells = later.screen.cells ∧ later.screen.get 0 0 = true ∧
      later.soundActive = true ∧ (o.watch m 5).waiting = true := by
  intro m o later
  have hredraw : m.cycle.1 = .ok .redraw := by decide +kernel
  have hbegin : o.Knows m :=
    ⟨rfl, rfl, iff_of_false Bool.false_ne_true fun ⟨_, hx⟩ => Mode.noConfusion hx⟩
  obtain ⟨htells, hknows⟩ := signals_tell m
  have hlater : later.screen.get 0 0 = true ∧ later.soundActive = true ∧
      later.mode = .awaitingKey 1 := by
    decide +kernel
  have hend : (o.watch m 5).Knows later := hknows o hbegin 5
  clear_value later
  exact ⟨hredraw, htells _ hredraw, hbegin, hend.cells, hlater.1, hlater.2.1,
    hend.waiting.2 ⟨1, hlater.2.2⟩⟩

end Machine

end ChipEight

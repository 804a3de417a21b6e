/-
ChipEight/Proofs/KeyWait.lean

Waiting for a key, with and without a mode.  A machine that meets `FX0A` with no key held
down changes its mode, and from then on its cycles read no word and look at the keypad only.
The plain way to wait needs no mode: read and run the same `FX0A` in every cycle until a key
is held down.  `reread` is a cycle of that kind.  It runs on machines whose mode is left
out, which is to say that it is always `running`, neither looked at nor changed.

The two cannot be told apart:

    s.modeless.outcomes reperform cs = (s.outcomes perform cs).map Outcome.modeless.

The invariant behind this is `WaitsAtWord`: while a machine waits, the word at its counter
is the word it read last, and is the `FX0A` of the register that it waits with.  Everything
the host does to a waiting machine keeps it, except placing a program or stepping over the
instruction; those are left to running machines.
-/
import ChipEight.Proofs.Run

namespace ChipEight

namespace Machine

/-! ### A machine without a mode -/

/-- The machine with its mode left out. -/
def modeless (m : Machine) : Machine := { m with mode := .running }

/-- `FX0A` without a mode: take the lowest key held down and go on, or change nothing. -/
def ask (m : Machine) (x : Register) : Signal × Machine :=
  match m.keypad.lowestDown with
  | some key => (.quiet, (m.put x (UInt8.ofNat key.val)).advance .next)
  | none => (.wait, m)

/-- Run an instruction without a mode. -/
def executeModeless (m : Machine) : Instruction → Except Fault Signal × Machine
  | .awaitKey x => (.ok (m.ask x).1, (m.ask x).2)
  | i => m.execute i

/-- A cycle without a mode: the word at the counter is read and run every time. -/
def reread (m : Machine) : Except Fault Signal × Machine :=
  match m.memory.fetch m.counter with
  | .error fault => (.error fault, m)
  | .ok w =>
    let n := { m with word := w }
    match Instruction.ofWord? w with
    | none => (.error (.word (.unknown w)), n)
    | some i => n.executeModeless i

/-- While the machine waits, the word at its counter is the one that it read last, and asks
for a key in the register that it waits with. -/
def WaitsAtWord (m : Machine) : Prop :=
  ∀ register, m.mode = .awaitingKey register →
    m.memory.fetch m.counter = .ok m.word ∧
      ∃ x : Register, x.val = register ∧ Instruction.ofWord? m.word = some (.awaitKey x)

variable {m n : Machine}

theorem waitsAtWord_of_running (h : m.mode = .running) : m.WaitsAtWord := by
  intro x hx
  exact absurd hx (ne_awaitingKey_of_running h x)

theorem WaitsAtWord.congr (h : m.WaitsAtWord)
    (hn : ∀ p ∈ [Part.mode, .memory, .counter, .word], m.Agree n p) : n.WaitsAtWord := by
  have hmode : n.mode = m.mode := hn .mode (by decide)
  have hmemory : n.memory = m.memory := hn .memory (by decide)
  have hcounter : n.counter = m.counter := hn .counter (by decide)
  have hword : n.word = m.word := hn .word (by decide)
  intro x hx
  rw [hmemory, hcounter, hword]
  exact h x (hmode ▸ hx)

/-! ### One cycle -/

/-- With its mode left out, looking for a key is `FX0A` without a mode. -/
theorem ask_modeless (m : Machine) (x : Register) :
    m.modeless.ask x = ((m.takeKey x).signal, (m.takeKey x).settle.modeless) := by
  have hk : m.modeless.keypad = m.keypad := rfl
  unfold ask takeKey
  rw [hk]
  rcases m.keypad.lowestDown with - | key <;> rfl

/-- An instruction other than `FX0A` does the same without a mode, and leaves none. -/
theorem executeModeless_of_effect {i : Instruction} {e : Effect} (hm : m.mode = .running)
    (he : m.effect i = .ok e) (hi : ∀ x, i ≠ .awaitKey x) :
    m.executeModeless i = (.ok e.signal, e.settle) ∧ e.settle.mode = .running := by
  refine ⟨?_, (mode_of_effect he hi).trans hm⟩
  cases i with
  | awaitKey x => exact absurd rfl (hi x)
  | _ => exact execute_of_effect he

/-- A running machine is as it is with its mode left out. -/
theorem modeless_of_running (h : m.mode = .running) : m.modeless = m := by
  cases m
  cases h
  rfl

/-- A machine that waits at its word reads it again, and asks again. -/
theorem reread_modeless_of_awaiting {register : Nat} (h : m.WaitsAtWord)
    (hm : m.mode = .awaitingKey register) :
    m.modeless.reread = (m.cycle.1, m.cycle.2.modeless) := by
  obtain ⟨hf, x, rfl, hi⟩ := h register hm
  have hf' : m.modeless.memory.fetch m.modeless.counter = .ok m.word := hf
  have hw : { m.modeless with word := m.word } = m.modeless := rfl
  simp only [reread, hf', hi, executeModeless, hw, ask_modeless, cycle_of_awaiting hm]

/-- A machine that runs reads its word in any case. -/
theorem reread_of_running (hm : m.mode = .running) :
    m.reread = (m.cycle.1, m.cycle.2.modeless) := by
  have hword : ∀ w, { m with word := w }.modeless = { m with word := w } := fun w =>
    modeless_of_running hm
  have hc := m.cycleCase
  generalize m.cycle = r at hc ⊢
  cases hc with
  | waiting hx | stuck hx _ _ | crashed hx _ _ =>
    exact absurd hx (ne_awaitingKey_of_running hm _)
  | noWord _ hf => simp only [reread, hf, modeless_of_running hm]
  | unknown _ hf hi => simp only [reread, hf, hi, hword]
  | @failed w i fault _ hf hi he =>
    cases i with
    | awaitKey x => cases he
    | _ => simp only [reread, hf, hi, executeModeless, execute_of_fault he, hword]
  | @ran w i e _ hf hi he =>
    by_cases hawait : ∃ x, i = .awaitKey x
    · -- the machine may begin to wait here, which `ask` does not put down
      obtain ⟨x, rfl⟩ := hawait
      cases he
      have ha := ask_modeless { m with word := w } x
      rw [hword] at ha
      simp only [reread, hf, hi, executeModeless, ha]
    · have hne : ∀ x, i ≠ .awaitKey x := fun x hx => hawait ⟨x, hx⟩
      obtain ⟨hx, hrun⟩ := executeModeless_of_effect (m := { m with word := w }) hm he hne
      simp only [reread, hf, hi, hx, modeless_of_running hrun]

/-- A cycle without a mode comes to the same. -/
theorem reread_modeless (h : m.WaitsAtWord) :
    m.modeless.reread = (m.cycle.1, m.cycle.2.modeless) := by
  rcases hm : m.mode with - | x
  · rw [modeless_of_running hm]
    exact reread_of_running hm
  · exact reread_modeless_of_awaiting h hm

/-- A cycle leaves a machine that waits, if it does, waiting at its word. -/
theorem waitsAtWord_cycle (h : m.WaitsAtWord) : m.cycle.2.WaitsAtWord := by
  have hc := m.cycleCase
  generalize m.cycle = r at hc ⊢
  cases hc with
  | @waiting x hm =>
    show (m.takeKey x).settle.WaitsAtWord
    rcases settle_takeKey m x with hrun | hwait
    · exact waitsAtWord_of_running hrun
    · have hsame : { m with mode := .awaitingKey x.val } = m := by rw [← hm]
      rw [hwait, hsame]
      exact h
  | stuck hm hr hk => exact h
  | crashed hm hr hk => exact h
  | noWord hm hf => exact waitsAtWord_of_running hm
  | unknown hm hf hi => exact waitsAtWord_of_running hm
  | failed hm hf hi he => exact waitsAtWord_of_running hm
  | @ran w i e hm hf hi he =>
    show e.settle.WaitsAtWord
    by_cases hawait : ∃ x, i = .awaitKey x
    · obtain ⟨x, rfl⟩ := hawait
      cases he
      rcases settle_takeKey { m with word := w } x with hrun | hwait
      · exact waitsAtWord_of_running hrun
      · -- the machine begins to wait, at the word that it has just read
        rw [hwait]
        intro y hy
        cases hy
        exact ⟨hf, x, rfl, hi⟩
    · have hne : ∀ x, i ≠ .awaitKey x := fun x hx => hawait ⟨x, hx⟩
      exact waitsAtWord_of_running
        (executeModeless_of_effect (m := { m with word := w }) hm he hne).2

end Machine

namespace Session

/-! ### The host's commands -/

/-- The session with the mode of its machine left out. -/
def modeless (s : Session) : Session := { s with machine := s.machine.modeless }

/-- The outcome with the mode of the machine left out. -/
def Outcome.modeless (o : Outcome) : Outcome := { o with session := o.session.modeless }

/-- Carry out a command without a mode: cycles read the word at the counter every time. -/
def reperform (s : Session) : Command → Outcome
  | .cycle =>
    match s.machine.reread with
    | (.ok signal, after) => s.become (.signal signal) after
    | (.error fault, after) => s.become (.failed fault) after
  | c => s.perform c

/-- Commands that are fit for a session in which the machine may wait: none while it waits
that changes the program or where it goes, except a reset. -/
def Fits (s : Session) (c : Command) : Prop :=
  c.IsPlain ∨ c = .reset ∨ c.IsIntrusive ∧ s.machine.mode = .running

/-- Each of some commands is fit for the session that it meets. -/
def Admits (s : Session) : List Command → Prop
  | [] => True
  | c :: rest => s.Fits c ∧ (s.perform c).session.Admits rest

variable {s : Session} {c : Command}

theorem modeless_of_running (h : s.machine.mode = .running) : s.modeless = s := by
  unfold modeless
  rw [Machine.modeless_of_running h]

theorem mode_perform_intrusive (hc : c.IsIntrusive) :
    (s.perform c).session.machine.mode = s.machine.mode :=
  agree_perform_intrusive (p := .mode) hc (by decide)

/-- A command other than a cycle comes to the same without a mode. -/
theorem perform_modeless (hc : s.Fits c) (hcycle : c ≠ .cycle) :
    s.modeless.perform c = (s.perform c).modeless := by
  rcases hc with hplain | rfl | ⟨hintrusive, hm⟩
  · cases c with
    | cycle => exact absurd rfl hcycle
    | markShown | tick | setSource source => rfl
    | setKey number down | toggleKey number =>
      simp only [perform]
      rcases Key.ofNat number with fault | key <;> rfl
    | setKeys keys =>
      simp only [perform]
      rcases Keypad.ofList? keys with - | keypad <;> rfl
    | _ => exact hplain.elim
  · rfl
  · have hafter : (s.perform c).session.machine.mode = .running := by
      rw [mode_perform_intrusive hintrusive, hm]
    rw [modeless_of_running hm]
    unfold Outcome.modeless
    rw [modeless_of_running hafter]

/-- Every command comes to the same without a mode. -/
theorem reperform_modeless (h : s.machine.WaitsAtWord) (hc : s.Fits c) :
    s.modeless.reperform c = (s.perform c).modeless := by
  by_cases hcycle : c = .cycle
  · subst hcycle
    have hr : s.modeless.machine.reread = (s.machine.cycle.1, s.machine.cycle.2.modeless) :=
      Machine.reread_modeless h
    simp only [reperform, perform, hr]
    rcases s.machine.cycle with ⟨fault | signal, after⟩ <;> rfl
  · rw [← perform_modeless hc hcycle]
    cases c with
    | cycle => exact absurd rfl hcycle
    | _ => rfl

/-- A machine that waits, if it does, keeps waiting at its word under every command. -/
theorem waitsAtWord_perform (h : s.machine.WaitsAtWord) (hc : s.Fits c) :
    (s.perform c).session.machine.WaitsAtWord := by
  rcases hc with hplain | rfl | ⟨hintrusive, hm⟩
  · by_cases hcycle : c = .cycle
    · subst hcycle
      rw [perform_cycle]
      exact Machine.waitsAtWord_cycle h
    · have hhost : ∀ p ∈ [Part.mode, .memory, .counter, .word], p ∉ hostParts := by decide
      exact h.congr fun p hp => agree_perform_plain hplain hcycle (hhost p hp)
  · exact Machine.waitsAtWord_of_running rfl
  · apply Machine.waitsAtWord_of_running
    rw [mode_perform_intrusive hintrusive, hm]

/-! ### Whole runs -/

/-- **The mode cannot be seen.**  From a machine that waits, if it does, at the word that
asks for the key, as every running machine does, any fit commands come to the same replies
and, but for the mode, to the same sessions if every cycle reads the word at the counter
again; and the machine that they lead to is of this kind, too. -/
theorem outcomes_modeless {cs : List Command} (h : s.machine.WaitsAtWord)
    (hcs : s.Admits cs) :
    s.modeless.outcomes reperform cs = (s.outcomes perform cs).map Outcome.modeless ∧
      (s.after cs).machine.WaitsAtWord := by
  induction cs generalizing s with
  | nil => exact ⟨rfl, h⟩
  | cons c rest ih =>
    obtain ⟨hc, hrest⟩ := hcs
    have hstep : s.modeless.reperform c = (s.perform c).modeless := reperform_modeless h hc
    obtain ⟨hlater, hend⟩ := ih (waitsAtWord_perform h hc) hrest
    refine ⟨?_, hend⟩
    show s.modeless.reperform c ::
        (s.modeless.reperform c).session.outcomes reperform rest = _
    rw [hstep]
    exact congrArg _ hlater

/-- A program that asks for a key and starts over: the machine waits through a tick and a
cycle, takes the key 5, waits again, and is reset and given another program. -/
theorem outcomes_modeless_loop :
    let s := (start (Machine.powerOn ByteSource.zeros) Pacing.usual).after
      [.load [0xF3, 0x0A, 0x12, 0x00]]
    let cs : List Command :=
      [.cycle, .tick, .cycle, .setKey 5 true, .cycle, .cycle, .setKey 5 false, .cycle,
        .reset, .load [0x60, 0x07], .cycle]
    (s.after (cs.take 3)).machine.mode = .awaitingKey 3 ∧
      (s.after (cs.take 8)).machine.mode = .awaitingKey 3 ∧
      (s.after (cs.take 8)).machine.registers[3] = 5 ∧
      s.modeless.outcomes reperform cs = (s.outcomes perform cs).map Outcome.modeless := by
  intro s cs
  have hm : s.machine.mode = .running := by decide +kernel
  have hcs : s.Admits cs := by
    refine ⟨.inl trivial, .inl trivial, .inl trivial, .inl trivial, .inl trivial, .inl trivial,
      .inl trivial, .inl trivial, .inr (.inl rfl), .inr (.inr ⟨trivial, ?_⟩), .inl trivial,
      trivial⟩
    decide +kernel
  have hrun := outcomes_modeless (Machine.waitsAtWord_of_running hm) hcs
  exact ⟨by decide +kernel, by decide +kernel, by decide +kernel, hrun.1⟩

end Session

end ChipEight

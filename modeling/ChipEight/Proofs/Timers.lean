/-
ChipEight/Proofs/Timers.lean

The timers count ticks and nothing else.  Between two instructions that set a timer, the program
has no hand in them: it may run, fail or wait, words may be stepped over and programs placed,
and all of it leaves both timers alone and reports no edge.  What is left of a run are its ticks,
and behind `k` of them, whatever was in between,

    delay = d - k,        sound = s - k,        tick number j reported a stop  ↔  j + 1 = s,

with the difference cut off at zero (`CountsDown`).  The ticks of a run are those that are asked
for one by one; a frame is cycles with a tick behind them, and is not among its commands.

Main statement: `timers_count_ticks`.
-/
import ChipEight.Proofs.Executions
import ChipEight.Proofs.Signals

namespace ChipEight

/-- The instruction sets a timer: FX15, FX18. -/
def Instruction.setsTimer : Instruction → Bool
  | setDelay _ | setSound _ => true
  | _ => false

/-- The command is a tick. -/
def Command.isTick : Command → Bool
  | tick => true
  | _ => false

namespace Reply

/-- What a tick reported, if the reply is that of a tick. -/
def ticked? : Reply → Option (Option Tone)
  | .ticked edge? => some edge?
  | _ => none

/-- The signals of the cycles and instructions that went well. -/
def signals : Reply → List Signal
  | .signal told => [told]
  | .trace steps _ => steps.map Prod.snd
  | _ => []

end Reply

/-- What the ticks among some commands report, in order. -/
def Session.tickReports (s : Session) (cs : List Command) : List (Option Tone) :=
  (s.outcomes perform cs).filterMap fun o => o.reply.ticked?

namespace Machine

/-- Both timers are the same. -/
structure SameTimers (m n : Machine) : Prop where
  delay : n.delay = m.delay
  sound : n.sound = m.sound

/-- So many ticks lead from the timers of `m` to those of `n`, with these reports. -/
structure CountsDown (m : Machine) (count : Nat) (reports : List (Option Tone)) (n : Machine) :
    Prop where
  delay : n.delay.toNat = m.delay.toNat - count
  sound : n.sound.toNat = m.sound.toNat - count
  reports : reports = (List.range count).map fun number =>
    if number + 1 = m.sound.toNat then some .stop else none

variable {m n k : Machine} {i : Instruction} {reports : List (Option Tone)} {count : Nat}

/-! ### Ticks -/

theorem SameTimers.refl (m : Machine) : m.SameTimers m := ⟨rfl, rfl⟩

theorem SameTimers.trans (h : m.SameTimers n) (h' : n.SameTimers k) : m.SameTimers k :=
  ⟨h'.delay.trans h.delay, h'.sound.trans h.sound⟩

/-- No tick counts nothing. -/
theorem CountsDown.none (m : Machine) : m.CountsDown 0 [] m := ⟨rfl, rfl, rfl⟩

/-- What leaves the timers alone does not count. -/
theorem CountsDown.after_same (h : m.SameTimers n) (hc : n.CountsDown count reports k) :
    m.CountsDown count reports k := by
  obtain ⟨hdelay, hsound⟩ := h
  refine ⟨?_, ?_, ?_⟩
  · rw [← hdelay]
    exact hc.delay
  · rw [← hsound]
    exact hc.sound
  · rw [← hsound]
    exact hc.reports

/-- A tick reports a stop exactly if the sound timer is at one. -/
theorem tick_fst_eq (m : Machine) :
    m.tick.1 = if 0 + 1 = m.sound.toNat then some .stop else Option.none := by
  have hone : m.sound = 1 ↔ 0 + 1 = m.sound.toNat := by
    rw [← UInt8.toNat_inj, UInt8.toNat_one]
    omega
  simp only [tick, hone]

/-- A tick counts one. -/
theorem CountsDown.after_tick (hc : m.tick.2.CountsDown count reports k) :
    m.CountsDown (count + 1) (m.tick.1 :: reports) k := by
  have hdelay : m.tick.2.delay.toNat = m.delay.toNat - 1 := toNat_countDown m.delay
  have hsound : m.tick.2.sound.toNat = m.sound.toNat - 1 := toNat_countDown m.sound
  refine ⟨?_, ?_, ?_⟩
  · rw [hc.delay, hdelay]
    omega
  · rw [hc.sound, hsound]
    omega
  · -- the report of a later tick is that of the tick before it, counted from one less
    have hlater : ∀ number, number + 1 = m.sound.toNat - 1 ↔ number + 1 + 1 = m.sound.toNat := by
      intro number
      omega
    rw [hc.reports, hsound, List.range_succ_eq_map, List.map_cons, List.map_map, tick_fst_eq]
    simp only [hlater]
    rfl

/-! ### What leaves the timers alone -/

/-- An instruction that sets no timer leaves both alone. -/
theorem Does.sameTimers (h : m.Does i n) (hi : i.setsTimer = false) : m.SameTimers n := by
  have hparts : Part.delay ∉ i.changes ∧ Part.sound ∉ i.changes := by
    cases i with
    | setDelay x | setSound x => cases hi
    | _ => simp [Instruction.changes]
  exact ⟨h.agree (p := .delay) (by decide) hparts.1, h.agree (p := .sound) (by decide) hparts.2⟩

/-- A cycle that sets no timer leaves both alone, also if it waits or fails. -/
theorem sameTimers_cycle (h : ∀ x ∈ m.executed, x.instruction.setsTimer = false) :
    m.SameTimers m.cycle.2 := by
  by_cases hexec : ∃ i, m.Executes i
  · obtain ⟨i, hi⟩ := hexec
    rw [executed_of_executes hi] at h
    have hdoes : m.Does i m.cycle.2 := .inr ⟨hi, rfl⟩
    exact hdoes.sameTimers (h _ (List.mem_singleton.2 rfl))
  · have hsame : ∀ p ∉ [Part.word, .counter, .registers, .mode], m.Agree m.cycle.2 p := by
      intro p hp
      refine Classical.byContradiction fun hchanged => hexec ?_
      obtain ⟨i, hi, -⟩ := executed_of_changed hp hchanged
      exact ⟨i, hi⟩
    exact ⟨hsame .delay (by decide), hsame .sound (by decide)⟩

/-- An edge is told only where the sound timer changes. -/
theorem Tells.sound_ne {edge : Tone} (h : m.Tells (.tone edge) n) : n.sound ≠ m.sound := by
  cases edge with
  | start =>
    obtain ⟨hbefore, hafter⟩ := h.start.1 rfl
    rw [hbefore]
    exact hafter
  | stop =>
    obtain ⟨hbefore, hafter⟩ := h.stop.1 rfl
    rw [hafter]
    exact hbefore.symm

/-- A cycle that sets no timer tells no edge. -/
theorem cycle_ne_tone (h : ∀ x ∈ m.executed, x.instruction.setsTimer = false) (edge : Tone) :
    m.cycle.1 ≠ .ok (.tone edge) :=
  fun htone => (tells_cycle htone).sound_ne (sameTimers_cycle h).sound

/-- Several cycles that set no timer leave both alone and tell no edge. -/
theorem sameTimers_cycles (count : Nat)
    (h : ∀ x ∈ executedInCycles count m, x.instruction.setsTimer = false) :
    m.SameTimers (cycles count m).machine ∧
      ∀ edge, .tone edge ∉ (cycles count m).steps.map Prod.snd := by
  induction count generalizing m with
  | zero => exact ⟨.refl m, fun _ => List.not_mem_nil⟩
  | succ count ih =>
    unfold executedInCycles at h
    have hfirst : ∀ x ∈ m.executed, x.instruction.setsTimer = false :=
      fun x hx => h x (List.mem_append_left _ hx)
    have hsame := sameTimers_cycle hfirst
    have hquiet := cycle_ne_tone hfirst
    have hlater := fun x hx => h x (List.mem_append_right _ hx)
    unfold cycles
    generalize m.cycle = r at hsame hquiet hlater ⊢
    rcases r with ⟨fault | signal, after⟩
    · exact ⟨hsame, fun _ => List.not_mem_nil⟩
    · obtain ⟨hrest, hsteps⟩ := ih hlater
      refine ⟨hsame.trans hrest, fun edge hmem => ?_⟩
      rcases List.mem_cons.1 hmem with heq | hmem
      · exact hquiet edge (congrArg Except.ok heq.symm)
      · exact hsteps edge hmem

/-- An instruction that is handed in and sets no timer tells no edge. -/
theorem execute_ne_tone {signal : Signal} (h : m.execute i = (.ok signal, n))
    (hi : i.setsTimer = false) (edge : Tone) : signal ≠ .tone edge := by
  rintro rfl
  have hne : ∀ x, i ≠ .setSound x := by
    rintro x rfl
    cases hi
  rcases he : m.effect i with fault | e
  · rw [execute_of_fault he] at h
    cases h
  · rw [execute_of_effect he, Prod.mk.injEq, Except.ok.injEq] at h
    have hedge := edge?_of_effect he hne
    rw [h.1] at hedge
    cases hedge

end Machine

/-! ### Runs -/

namespace Session

variable {s : Session} {c : Command} {cs : List Command}

/-- What comes of a command that is no tick: the timers are left alone, and no edge and no tick is
reported. -/
structure LeavesTimers (s : Session) (o : Outcome) : Prop where
  same : s.machine.SameTimers o.session.machine
  quiet : ∀ edge, .tone edge ∉ o.reply.signals
  ticked : o.reply.ticked? = none

theorem leavesTimers_execute (i : Instruction)
    (h : ∀ x ∈ s.executed (.execute i), x.instruction.setsTimer = false) :
    s.LeavesTimers (s.perform (.execute i)) := by
  simp only [executed, Machine.executedAlone] at h
  simp only [perform]
  rcases he : s.machine.execute i with ⟨fault | signal, after⟩ <;> rw [he] at h
  · obtain rfl := Machine.eq_of_execute_error he
    exact ⟨.refl s.machine, fun _ => List.not_mem_nil, rfl⟩
  · have hi : i.setsTimer = false := h _ (List.mem_singleton.2 rfl)
    have hdoes : s.machine.Does i after := .inl ⟨signal, he⟩
    refine ⟨hdoes.sameTimers hi, fun edge hmem => ?_, rfl⟩
    exact Machine.execute_ne_tone he hi edge (List.mem_singleton.1 hmem).symm

/-- A command that runs no instruction and is no tick replies neither as a cycle does nor as a
tick does. -/
theorem reply_perform_host (htick : c ≠ .tick) (hc : Part.word ∉ c.changes) :
    (s.perform c).reply.signals = [] ∧ (s.perform c).reply.ticked? = none := by
  cases c with
  | tick => exact absurd rfl htick
  | cycle | cycles count | executeWord word | execute i | reset | frame keys? =>
    exact absurd (Part.mem_all .word) hc
  | load data =>
    simp only [perform]
    rcases s.machine.load data with fault | after <;> exact ⟨rfl, rfl⟩
  | loadNamed name data =>
    simp only [perform]
    rcases Program.make name data with fault | program
    · exact ⟨rfl, rfl⟩
    · dsimp only
      rcases s.machine.loadProgram program with fault | after <;> exact ⟨rfl, rfl⟩
  | setKey number down | toggleKey number =>
    simp only [perform]
    rcases Key.ofNat number with fault | key <;> exact ⟨rfl, rfl⟩
  | setKeys keys =>
    simp only [perform]
    rcases Keypad.ofList? keys with - | keypad <;> exact ⟨rfl, rfl⟩
  | advance move | stepOver | markShown | setSource source => exact ⟨rfl, rfl⟩

/-- Of all commands only ticks, resets, frames and instructions that set one touch the timers. -/
theorem leavesTimers_perform (htick : c ≠ .tick) (hc : c ≠ .reset ∧ ∀ keys?, c ≠ .frame keys?)
    (h : ∀ x ∈ s.executed c, x.instruction.setsTimer = false) : s.LeavesTimers (s.perform c) := by
  cases c with
  | tick => exact absurd rfl htick
  | reset => exact absurd rfl hc.1
  | frame keys? => exact absurd rfl (hc.2 keys?)
  | cycle =>
    have hsame := Machine.sameTimers_cycle h
    have hquiet := Machine.cycle_ne_tone h
    rw [perform_cycle]
    generalize s.machine.cycle = r at hsame hquiet ⊢
    rcases r with ⟨fault | signal, after⟩
    · exact ⟨hsame, fun _ => List.not_mem_nil, rfl⟩
    · refine ⟨hsame, fun edge hmem => hquiet edge ?_, rfl⟩
      exact congrArg Except.ok (List.mem_singleton.1 hmem).symm
  | cycles count =>
    obtain ⟨hsame, hquiet⟩ := Machine.sameTimers_cycles count h
    exact ⟨hsame, hquiet, rfl⟩
  | executeWord word =>
    have hexecute := fun i => leavesTimers_execute (s := s) i
    simp only [executed, perform] at h hexecute ⊢
    rcases hi : Instruction.ofWord? word with - | i <;> rw [hi] at h
    · exact ⟨.refl s.machine, fun _ => List.not_mem_nil, rfl⟩
    · exact hexecute i h
  | execute i => exact leavesTimers_execute i h
  | load data | loadNamed name data | setKey number down | toggleKey number | setKeys keys
  | advance move | stepOver | markShown | setSource source =>
    obtain ⟨hsignals, hticked⟩ :=
      reply_perform_host (s := s) htick (by simp [Command.changes])
    refine ⟨⟨agree_perform (p := .delay) ?_, agree_perform (p := .sound) ?_⟩,
      fun edge hmem => ?_, hticked⟩
    · simp [Command.changes]
    · simp [Command.changes]
    · rw [hsignals] at hmem
      cases hmem

/-- A run counts its ticks. -/
theorem countsDown_after (hcs : ∀ c ∈ cs, c ≠ .reset ∧ ∀ keys?, c ≠ .frame keys?)
    (h : ∀ x ∈ s.history cs, x.instruction.setsTimer = false) :
    s.machine.CountsDown (cs.countP Command.isTick) (s.tickReports cs) (s.after cs).machine ∧
      ∀ o ∈ s.outcomes perform cs, ∀ edge, .tone edge ∉ o.reply.signals := by
  induction cs generalizing s with
  | nil => exact ⟨.none s.machine, List.forall_mem_nil _⟩
  | cons c rest ih =>
    obtain ⟨hrest, hquiet⟩ := ih (s := (s.perform c).session)
      (fun d hd => hcs d (List.mem_cons_of_mem c hd))
      fun x hx => h x (List.mem_append_right _ hx)
    have hoc : s.outcomes perform (c :: rest) =
        s.perform c :: (s.perform c).session.outcomes perform rest := rfl
    by_cases hc : c = .tick
    · subst hc
      have hcount : (.tick :: rest).countP Command.isTick = rest.countP Command.isTick + 1 :=
        List.countP_cons_of_pos rfl
      have hreports : s.tickReports (.tick :: rest) =
          s.machine.tick.1 :: (s.perform .tick).session.tickReports rest :=
        List.filterMap_cons_some rfl
      rw [hcount, hreports, hoc, List.forall_mem_cons]
      exact ⟨hrest.after_tick, fun _ => List.not_mem_nil, hquiet⟩
    · have hfirst := leavesTimers_perform hc (hcs c List.mem_cons_self)
        fun x hx => h x (List.mem_append_left _ hx)
      have hcount : (c :: rest).countP Command.isTick = rest.countP Command.isTick := by
        refine List.countP_cons_of_neg ?_
        cases c with
        | tick => exact absurd rfl hc
        | _ => exact Bool.false_ne_true
      have hreports : s.tickReports (c :: rest) = (s.perform c).session.tickReports rest :=
        List.filterMap_cons_none hfirst.ticked
      rw [hcount, hreports, hoc, List.forall_mem_cons]
      exact ⟨hrest.after_same hfirst.same, hfirst.quiet, hquiet⟩

/-- **The timers count ticks.**  Let a session carry out any commands but a reset and frames, of
which `k` are ticks, and let no instruction that was done on the way be `FX15` or `FX18`.  Then
both timers have come down by `k`, or to zero; the tick that has the value of the sound timer for
its number, counted from one, reported a stop and no other tick reported anything; and no cycle
told of an edge. -/
theorem timers_count_ticks (hcs : ∀ c ∈ cs, c ≠ .reset ∧ ∀ keys?, c ≠ .frame keys?)
    (h : ∀ x ∈ s.history cs, x.instruction.setsTimer = false) :
    let k := cs.countP Command.isTick
    let reports := s.tickReports cs
    (s.after cs).machine.delay.toNat = s.machine.delay.toNat - k ∧
      (s.after cs).machine.sound.toNat = s.machine.sound.toNat - k ∧
      reports.length = k ∧
      (∀ number (hn : number < reports.length),
        reports[number] = if number + 1 = s.machine.sound.toNat then some .stop else none) ∧
      ∀ o ∈ s.outcomes perform cs, ∀ edge, .tone edge ∉ o.reply.signals := by
  intro k reports
  obtain ⟨⟨hdelay, hsound, hreports⟩, hquiet⟩ := countsDown_after hcs h
  have hlist : reports = (List.range k).map fun number =>
      if number + 1 = s.machine.sound.toNat then some .stop else none := hreports
  clear_value reports
  subst hlist
  refine ⟨hdelay, hsound, ?_, fun number hn => ?_, hquiet⟩
  · rw [List.length_map, List.length_range]
  · rw [List.getElem_map, List.getElem_range]

/-- Three ticks of a sound timer at two and a delay timer at five, with a cycle that goes well, one
that waits and one that fails in between. -/
theorem timers_count_ticks_past_zero :
    let s := start { Machine.powerOn ByteSource.zeros with delay := 5, sound := 2 } Pacing.usual
    let cs : List Command :=
      [.load [0x60, 0x07, 0xF1, 0x0A], .cycle, .tick, .cycle, .cycle, .tick, .setKey 3 true,
        .cycle, .cycle, .tick]
    (∀ c ∈ cs, c ≠ .reset ∧ ∀ keys?, c ≠ .frame keys?) ∧
      (s.history cs).map Execution.instruction = [.setByte 0 7, .awaitKey 1] ∧
      (s.after cs).machine.delay.toNat = 2 ∧ (s.after cs).machine.sound.toNat = 0 ∧
      (s.tickReports cs).length = 3 ∧ (s.tickReports cs)[1]? = some (some .stop) ∧
      (s.tickReports cs)[2]? = some none := by
  intro s cs
  have hcs : ∀ c ∈ cs, c ≠ .reset ∧ ∀ keys?, c ≠ .frame keys? := by simp [cs]
  have hhistory : (s.history cs).map Execution.instruction = [.setByte 0 7, .awaitKey 1] := by
    decide +kernel
  have hset : ∀ x ∈ s.history cs, x.instruction.setsTimer = false := by
    intro x hx
    have hmem : x.instruction ∈ (s.history cs).map Execution.instruction :=
      List.mem_map_of_mem hx
    rw [hhistory] at hmem
    rcases List.mem_pair.1 hmem with hi | hi <;> rw [hi] <;> decide
  obtain ⟨hdelay, hsound, hlength, hreports, -⟩ := timers_count_ticks hcs hset
  have hthree : (s.tickReports cs).length = 3 := hlength
  refine ⟨hcs, hhistory, hdelay, hsound, hlength, ?_, ?_⟩
  · rw [List.getElem?_eq_getElem (by omega), hreports 1 (by omega)]
    rfl
  · rw [List.getElem?_eq_getElem (by omega), hreports 2 (by omega)]
    rfl

end Session

end ChipEight

/-
ChipEight/Proofs/Picture.lean

The picture on the host is never stale.  A screen carries a mark that it changed, and the
host is shown the screen when a frame finds the mark and takes it off.  Whether that is
enough hangs on one rule, `Screen.Evolves`:

    after = before  or  after is marked.

Whatever runs on a machine keeps it, be it drawing, clearing or a reset, in a frame that goes
well or in one that fails half-way.  So a screen without a mark is the one that was shown
last (`IsShown`), and that is kept by every command but the one that takes the mark off by
hand.

Main statement: `picture_current`.
-/
import ChipEight.Proofs.HostView
import ChipEight.Proofs.Schedule

namespace ChipEight

/-! ### One screen after another -/

/-- A screen that came of another one is the same or marked as changed. -/
def Screen.Evolves (before after : Screen) : Prop :=
  after = before ∨ after.changed = true

namespace Screen

variable {s t u : Screen}

theorem Evolves.refl (s : Screen) : s.Evolves s := .inl rfl

theorem Evolves.trans (h : s.Evolves t) (h' : t.Evolves u) : s.Evolves u := by
  rcases h' with rfl | hu
  · exact h
  · exact .inr hu

theorem evolves_clear (s : Screen) : s.Evolves s.clear := .inr rfl

theorem evolves_draw (s : Screen) (x y : Nat) (rows : List UInt8) :
    s.Evolves (s.draw x y rows).2 := .inr rfl

theorem Evolves.changed (h : s.Evolves t) (hs : s.changed = true) : t.changed = true := by
  rcases h with rfl | hchanged
  · exact hs
  · exact hchanged

/-- A screen without a mark is the one it came of, which had none. -/
theorem Evolves.eq_of_unchanged (h : s.Evolves t) (ht : t.changed = false) : t = s := by
  rcases h with rfl | hchanged
  · rfl
  · rw [ht] at hchanged
    cases hchanged

end Screen

namespace Machine

variable {m : Machine} {i : Instruction} {e : Effect} {skipUnknown : Bool}

/-! ### What runs on a machine -/

theorem evolves_of_effect (h : m.effect i = .ok e) : m.screen.Evolves e.machine.screen := by
  cases i with
  | clearScreen =>
    cases h
    exact m.screen.evolves_clear
  | draw x y height =>
    simp only [effect] at h
    split at h <;> cases h
    exact m.screen.evolves_draw _ _ _
  | _ =>
    have hsame : e.machine.screen = m.screen :=
      agree_of_effect (p := .screen) h (by simp [Instruction.changes])
    exact .inl hsame

theorem evolves_cycle (m : Machine) : m.screen.Evolves m.cycle.2.screen := by
  have hc := m.cycleCase
  generalize m.cycle = r at hc ⊢
  cases hc with
  | @waiting x hm => exact evolves_of_effect (m := m) (i := .awaitKey x) rfl
  | stuck hm hr hk | crashed hm hr hk | noWord hm hf => exact .refl m.screen
  | unknown hm hf hi => exact .refl m.screen
  | failed hm hf hi he => exact .refl m.screen
  | @ran w i e hm hf hi he => exact evolves_of_effect (m := { m with word := w }) he

theorem evolves_cycles (count : Nat) (m : Machine) :
    m.screen.Evolves (cycles count m).machine.screen := by
  induction count generalizing m with
  | zero => exact .refl m.screen
  | succ count ih =>
    have hstep := m.evolves_cycle
    unfold cycles
    generalize m.cycle = r at hstep ⊢
    rcases r with ⟨fault | signal, after⟩
    · exact hstep
    · exact hstep.trans (ih after)

theorem evolves_turn (m : Machine) : m.screen.Evolves (turn skipUnknown m).screen := by
  have hturn : (turn skipUnknown m).screen = m.cycle.2.screen :=
    agree_turn (p := .screen) (by decide)
  rw [hturn]
  exact m.evolves_cycle

theorem evolves_turns (m : Machine) (count : Nat) :
    m.screen.Evolves (turns skipUnknown m count).screen := by
  induction count with
  | zero => exact .refl m.screen
  | succ count ih =>
    rw [turns_last]
    exact ih.trans (evolves_turn _)

theorem evolves_execute (m : Machine) (i : Instruction) :
    m.screen.Evolves (m.execute i).2.screen := by
  rcases he : m.effect i with fault | e
  · rw [execute_of_fault he]
    exact .refl m.screen
  · rw [execute_of_effect he]
    exact evolves_of_effect he

/-! ### Frames -/

/-- A frame that fails shows nothing and loses no mark. -/
theorem screen_of_frame_failed {pacing : Pacing} {keys : Keypad} {fault : Fault}
    (h : (frame pacing keys m).fault? = some fault) :
    HostCall.pictures (frame pacing keys m).calls = [] ∧
      m.screen.Evolves (frame pacing keys m).machine.screen := by
  have hc := frameCase pacing keys m
  generalize frame pacing keys m = r at hc h ⊢
  cases hc with
  | failed hspan hf => exact ⟨HostCall.pictures_map_tone _, evolves_turns _ _⟩
  | done hspan hf => cases h

/-- A frame that goes well takes the mark off, and if there was one it shows the screen that
the machine is left with. -/
theorem screen_of_frame_done {pacing : Pacing} {keys : Keypad}
    (h : (frame pacing keys m).fault? = none) :
    (frame pacing keys m).machine.needsRedraw = false ∧
      ((∃ shown, HostCall.pictures (frame pacing keys m).calls = [shown] ∧
          shown.cells = (frame pacing keys m).machine.screen.cells) ∨
        HostCall.pictures (frame pacing keys m).calls = [] ∧
          (frame pacing keys m).machine.screen = m.screen) := by
  have hc := frameCase pacing keys m
  generalize frame pacing keys m = r at hc h ⊢
  cases hc with
  | failed hspan hf => cases h
  | @done count hspan hf =>
    have hevolves : m.screen.Evolves
        (turns pacing.skipUnknown { m with keypad := keys } count).screen := evolves_turns _ _
    generalize turns pacing.skipUnknown { m with keypad := keys } count = before at hevolves ⊢
    refine ⟨rfl, ?_⟩
    dsimp only
    rw [HostCall.pictures_of_frame, needsRedraw]
    rcases hmark : before.screen.changed with - | -
    · have hscreen : before.screen.markShown = before.screen := by
        rw [Screen.markShown, ← hmark]
      exact .inr ⟨rfl, hscreen.trans (hevolves.eq_of_unchanged hmark)⟩
    · exact .inl ⟨before.screen, rfl, rfl⟩

end Machine

namespace Session

variable {s : Session} {c : Command}

/-! ### Commands -/

/-- A command that is neither a frame nor takes the mark off by hand loses no mark. -/
theorem evolves_perform (hframe : ∀ keys?, c ≠ .frame keys?) (hmark : c ≠ .markShown) :
    s.machine.screen.Evolves (s.perform c).session.machine.screen := by
  cases c with
  | frame keys? => exact absurd rfl (hframe keys?)
  | markShown => exact absurd rfl hmark
  | cycle =>
    rw [perform_cycle]
    exact s.machine.evolves_cycle
  | cycles count => exact Machine.evolves_cycles count s.machine
  | reset => exact s.machine.screen.evolves_clear
  | executeWord word =>
    simp only [perform]
    rcases Instruction.ofWord? word with - | i
    · exact .refl s.machine.screen
    · dsimp only
      rw [session_report]
      exact s.machine.evolves_execute i
  | execute i =>
    rw [perform, session_report]
    exact s.machine.evolves_execute i
  | load data | loadNamed name data | advance move | stepOver | tick | setKey number down
  | toggleKey number | setKeys keys | setSource source =>
    refine .inl (agree_perform (p := .screen) ?_)
    simp [Command.changes]

/-- The host was shown the cells of a screen last, unless the screen is marked. -/
def IsShown (calls : List HostCall) (screen : Screen) : Prop :=
  screen.changed = false →
    ∃ shown, HostCall.lastPicture? calls = some shown ∧ shown.cells = screen.cells

/-- What is not shown anew is shown still. -/
theorem IsShown.evolves {calls : List HostCall} {before after : Screen}
    (h : IsShown calls before) (he : before.Evolves after) : IsShown calls after := by
  intro hafter
  obtain rfl := he.eq_of_unchanged hafter
  exact h hafter

/-- A frame leaves a screen that is shown, if it was. -/
theorem isShown_frame {calls : List HostCall} (h : IsShown calls s.machine.screen)
    (keys? : Option Keypad) :
    IsShown (calls ++ (s.perform (.frame keys?)).calls)
      (s.perform (.frame keys?)).session.machine.screen := by
  show IsShown (calls ++ (Machine.frame s.pacing (keys?.getD s.hostKeys) s.machine).calls)
    (Machine.frame s.pacing (keys?.getD s.hostKeys) s.machine).machine.screen
  intro hafter
  rw [HostCall.lastPicture?_append, HostCall.lastPicture?]
  rcases hf : (Machine.frame s.pacing (keys?.getD s.hostKeys) s.machine).fault? with - | fault
  · obtain ⟨-, ⟨shown, hnew, hcells⟩ | ⟨hnone, hsame⟩⟩ := Machine.screen_of_frame_done hf
    · rw [hnew]
      exact ⟨shown, rfl, hcells⟩
    · -- nothing was shown because nothing changed, so what was shown before is still right
      rw [hnone]
      rw [hsame] at hafter ⊢
      exact h hafter
  · -- a frame that fails shows nothing, but it marks what it changes
    obtain ⟨hnone, hevolves⟩ := Machine.screen_of_frame_failed hf
    rw [hnone]
    exact h.evolves hevolves hafter

/-- A frame that does not go well loses no mark. -/
theorem evolves_frame_of_fails {keys? : Option Keypad}
    (h : (s.perform (.frame keys?)).reply ≠ .done) :
    s.machine.screen.Evolves (s.perform (.frame keys?)).session.machine.screen := by
  rcases hf : (Machine.frame s.pacing (keys?.getD s.hostKeys) s.machine).fault? with - | fault
  · exact absurd (reply_perform_frame_done.2 hf) h
  · exact (Machine.screen_of_frame_failed hf).2

theorem isShown_perform {calls : List HostCall} (h : IsShown calls s.machine.screen)
    (hc : c ≠ .markShown) :
    IsShown (calls ++ (s.perform c).calls) (s.perform c).session.machine.screen := by
  by_cases hframe : ∃ keys?, c = .frame keys?
  · obtain ⟨keys?, rfl⟩ := hframe
    exact isShown_frame h keys?
  · have hne : ∀ keys?, c ≠ .frame keys? := fun keys? hk => hframe ⟨keys?, hk⟩
    rw [calls_perform hne, List.append_nil]
    exact h.evolves (evolves_perform hne hc)

/-! ### Whole runs -/

theorem isShown_after {cs : List Command} {calls : List HostCall}
    (hcs : ∀ c ∈ cs, c ≠ .markShown) (h : IsShown calls s.machine.screen) :
    IsShown (calls ++ s.hostCalls cs) (s.after cs).machine.screen := by
  -- the calls so far are part of the invariant, so they grow along with the run
  induction cs generalizing s calls with
  | nil =>
    show IsShown (calls ++ []) s.machine.screen
    rw [List.append_nil]
    exact h
  | cons c rest ih =>
    have hc : c ≠ .markShown := hcs c List.mem_cons_self
    rw [hostCalls_cons, ← List.append_assoc]
    exact ih (fun d hd => hcs d (List.mem_cons_of_mem c hd)) (isShown_perform h hc)

/-- None of some commands takes the mark off by hand, and none is a frame that goes well. -/
def ShowsNothing (s : Session) : List Command → Prop
  | [] => True
  | c :: rest =>
    c ≠ .markShown ∧ (∀ keys?, c = .frame keys? → (s.perform c).reply ≠ .done) ∧
      (s.perform c).session.ShowsNothing rest

/-- A screen is marked until it is shown. -/
theorem marked_after {cs : List Command} (hcs : s.ShowsNothing cs)
    (h : s.machine.screen.changed = true) : (s.after cs).machine.screen.changed = true := by
  induction cs generalizing s with
  | nil => exact h
  | cons c rest ih =>
    obtain ⟨hc, hfails, hrest⟩ := hcs
    refine ih hrest ?_
    have hevolves : s.machine.screen.Evolves (s.perform c).session.machine.screen := by
      by_cases hframe : ∃ keys?, c = .frame keys?
      · obtain ⟨keys?, rfl⟩ := hframe
        exact evolves_frame_of_fails (hfails keys? rfl)
      · exact evolves_perform (fun keys? hk => hframe ⟨keys?, hk⟩) hc
    exact hevolves.changed h

/-- The sessions that a host begins with: the machine was just switched on, with a program
in place or without. -/
inductive Begins : Session → Prop
  | powerOn (source : ByteSource) (pacing : Pacing) :
      Begins (start (Machine.powerOn source) pacing)
  | withProgram {source : ByteSource} {program : Program} {m : Machine} (pacing : Pacing)
      (h : Machine.withProgram source program = .ok m) : Begins (start m pacing)

theorem Begins.changed (h : s.Begins) : s.machine.screen.changed = true := by
  cases h with
  | powerOn source pacing => rfl
  | @withProgram source program m pacing hm =>
    have hscreen : m.screen = (Machine.powerOn source).screen :=
      agree_load (p := .screen) hm (by decide)
    show m.screen.changed = true
    rw [hscreen]
    rfl

/-- **The picture is current.**  Let a host begin and carry out any commands but the one that
takes the mark off the screen by hand.  Whenever there is no mark, the host was shown the
screen, and its cells were last shown as they are now.  A frame that goes well leaves no
mark.  And if a frame that fails changes cells, then the next frame that goes well shows the
screen, with all its cells as it leaves them. -/
theorem picture_current (hs : s.Begins) {cs : List Command} (hcs : ∀ c ∈ cs, c ≠ .markShown) :
    let t := s.after cs
    (t.machine.needsRedraw = false →
      ∃ shown, HostCall.lastPicture? (s.hostCalls cs) = some shown ∧
        shown.cells = t.machine.screen.cells) ∧
    (∀ keys?, (t.perform (.frame keys?)).reply = .done →
      (t.perform (.frame keys?)).session.machine.needsRedraw = false) ∧
    ∀ keys? fault, (t.perform (.frame keys?)).reply = .failed fault →
      let u := (t.perform (.frame keys?)).session
      u.machine.screen.cells ≠ t.machine.screen.cells →
      ∀ ds, u.ShowsNothing ds →
      ∀ keys?', ((u.after ds).perform (.frame keys?')).reply = .done →
        ∃ shown, HostCall.pictures ((u.after ds).perform (.frame keys?')).calls = [shown] ∧
          shown.cells =
            ((u.after ds).perform (.frame keys?')).session.machine.screen.cells := by
  intro t
  refine ⟨?_, ?_, ?_⟩
  · have hbegin : IsShown [] s.machine.screen := fun hmark => by
      rw [hs.changed] at hmark
      cases hmark
    exact isShown_after hcs hbegin
  · intro keys? hdone
    exact (Machine.screen_of_frame_done (reply_perform_frame_done.1 hdone)).1
  · intro keys? fault hfailed u hcells ds hds keys?' hdone
    have hevolves : t.machine.screen.Evolves u.machine.screen :=
      (Machine.screen_of_frame_failed (reply_perform_frame_failed.1 hfailed)).2
    have hmark : u.machine.screen.changed = true := by
      rcases hevolves with hsame | hchanged
      · exact absurd (congrArg Screen.cells hsame) hcells
      · exact hchanged
    have hlater : (u.after ds).machine.screen.changed = true := marked_after hds hmark
    obtain ⟨hnone, ⟨shown, hnew, hshown⟩ | ⟨-, hsame⟩⟩ :=
      Machine.screen_of_frame_done (reply_perform_frame_done.1 hdone)
    · exact ⟨shown, hnew, hshown⟩
    · -- the screen was marked before the frame, so it is not the one behind it
      rw [Machine.needsRedraw, hsame, hlater] at hnone
      cases hnone

/-- A frame draws a row of cells and fails at the word behind it.  The row is not seen before
the next frame that goes well, which comes with another program in place. -/
theorem picture_current_after_failure :
    let s := start (Machine.powerOn ByteSource.zeros) Pacing.usual
    let t := s.after [.load [0x12, 0x00], .frame none, .load [0xD0, 0x01, 0x00, 0x00]]
    let u := (t.perform (.frame none)).session
    let v := u.after [.load [0xD0, 0x01, 0x12, 0x02], .tick]
    (t.perform (.frame none)).reply = .failed (.word (.unknown 0)) ∧
      (∃ shown, HostCall.lastPicture? (s.hostCalls
          [.load [0x12, 0x00], .frame none, .load [0xD0, 0x01, 0x00, 0x00]]) = some shown ∧
        shown.get 0 0 = false) ∧
      ∃ shown, HostCall.pictures (v.perform (.frame none)).calls = [shown] ∧
        shown.get 0 0 = true := by
  intro s t u v
  have hs : s.Begins := .powerOn ByteSource.zeros Pacing.usual
  have hcs : ∀ c ∈ [Command.load [0x12, 0x00], .frame none, .load [0xD0, 0x01, 0x00, 0x00]],
      c ≠ .markShown := by simp
  obtain ⟨hmark, hfault, hgood⟩ :
      t.machine.needsRedraw = false ∧
        (Machine.frame t.pacing t.hostKeys t.machine).fault? = some (.word (.unknown 0)) ∧
        (Machine.frame v.pacing v.hostKeys v.machine).fault? = none := by
    decide +kernel
  obtain ⟨hbefore, hafter, hlast⟩ :
      t.machine.screen.get 0 0 = false ∧ u.machine.screen.get 0 0 = true ∧
        (v.perform (.frame none)).session.machine.screen.get 0 0 = true := by
    decide +kernel
  have hpicture := picture_current hs hcs
  dsimp only at hpicture
  rw [show s.after _ = t from rfl] at hpicture
  -- from here on all that counts of this session is what was found out about it
  clear_value t
  obtain ⟨hshown, -, hlater⟩ := hpicture
  have hfailed : (t.perform (.frame none)).reply = .failed (.word (.unknown 0)) :=
    reply_perform_frame_failed.2 hfault
  have hdone : (v.perform (.frame none)).reply = .done := reply_perform_frame_done.2 hgood
  have hds : u.ShowsNothing [.load [0xD0, 0x01, 0x12, 0x02], .tick] := by simp [ShowsNothing]
  have hcells : u.machine.screen.cells ≠ t.machine.screen.cells := fun hsame => by
    have hget : u.machine.screen.get 0 0 = t.machine.screen.get 0 0 := by
      rw [Screen.get, hsame]
      rfl
    rw [hbefore, hafter] at hget
    cases hget
  obtain ⟨first, hfirst, hfirstCells⟩ := hshown hmark
  obtain ⟨second, hsecond, hsecondCells⟩ := hlater none _ hfailed hcells _ hds none hdone
  refine ⟨hfailed, ⟨first, hfirst, ?_⟩, second, hsecond, ?_⟩
  · rw [Screen.get, hfirstCells]
    exact hbefore
  · rw [Screen.get, hsecondCells]
    exact hlast

end Session

end ChipEight

/-
ChipEight/Proofs/SilentReset.lean

A reset in the middle of a tone.  Like the tick that ends a tone a reset takes the sound timer to
zero, but unlike the tick it tells nobody.  What is told from then on leads from a silent beeper,
whatever the host was told before:

    … stop start    (reset)    start stop start …

So a host that was told of a start hears a second one with the next tone, and goes on with the
old tone until then, though the beeper is silent.  It stays in step, `InStep`, exactly if the tone
had come to its end before the reset, or if nothing comes of what is played behind it.

Main statements: `in_step_after_reset_iff`, and `out_of_step_after_reset` for a tone that a reset
cuts off.
-/
import ChipEight.Proofs.Beeper

namespace ChipEight

namespace Edges

variable {before after : Bool} {edges : List Tone}

/-- No start comes behind a start without a stop between them. -/
theorem start_not_repeated (h : Edges before edges after) (number : Nat)
    (hstart : edges[number]? = some .start) : edges[number + 1]? ≠ some .start := by
  intro hnext
  obtain ⟨hn, hfirst⟩ := List.getElem?_eq_some_iff.1 hstart
  obtain ⟨hn', hsecond⟩ := List.getElem?_eq_some_iff.1 hnext
  rw [h.getElem_eq] at hfirst hsecond
  have heven : (number + before.toNat) % 2 = 0 := by
    by_contra hodd
    rw [if_neg hodd] at hfirst
    cases hfirst
  have hodd : (number + 1 + before.toNat) % 2 ≠ 0 := by omega
  rw [if_neg hodd] at hsecond
  cases hsecond

/-- The edge heard last tells whether the beeper sounds. -/
theorem eq_leadingTo {edge : Tone} (h : Edges before edges after)
    (hlast : edges.getLast? = some edge) : edge = .leadingTo after := by
  have hedge := h.last
  rw [hlast] at hedge
  exact hedge

/-- Behind a stop the beeper is silent. -/
theorem silent_of_stop (h : Edges before edges after) (hlast : edges.getLast? = some .stop) :
    after = false := by
  have hedge := h.eq_leadingTo hlast
  cases after with
  | true => cases hedge
  | false => rfl

/-- From silence the first edge is a start. -/
theorem head_eq_start {edge : Tone} (h : Edges false (edge :: edges) after) : edge = .start := by
  cases h
  rfl

end Edges

namespace Session

/-- The edges that the host hears while some commands are carried out. -/
def heard (s : Session) (cs : List Command) : List Tone := HostCall.tones (s.hostCalls cs)

/-- A host that was told some edges stays in step with the beeper while some commands are carried
out: it never hears of a start behind a start, and behind every frame that goes well and leaves
the beeper silent, what it heard last is a stop. -/
structure InStep (s : Session) (told : List Tone) (cs : List Command) : Prop where
  paired : ∀ number, (told ++ s.heard cs)[number]? = some .start →
    (told ++ s.heard cs)[number + 1]? ≠ some .start
  ended : ∀ earlier keys? later, cs = earlier ++ .frame keys? :: later →
    ((s.after earlier).perform (.frame keys?)).reply = .done →
    (s.after (earlier ++ [.frame keys?])).machine.soundActive = false →
    (told ++ s.heard (earlier ++ [.frame keys?])).getLast? = some .stop

/-- Nothing comes of some commands: no edge is told, and no frame goes well. -/
structure ComesToNothing (s : Session) (cs : List Command) : Prop where
  unheard : s.heard cs = []
  failing : ∀ earlier keys? later, cs = earlier ++ .frame keys? :: later →
    ((s.after earlier).perform (.frame keys?)).reply ≠ .done

variable {s : Session} {cs : List Command} {told : List Tone} {before : Bool}

/-! ### From a silent beeper -/

/-- What is played with the sound timer at zero is heard as from silence. -/
theorem edges_heard (hs : s.machine.sound = 0) (hcs : ∀ c ∈ cs, c.Plays) :
    Edges false (s.heard cs) (s.after cs).machine.soundActive := by
  have hsilent : s.machine.soundActive = false := by
    rw [Machine.soundActive, hs]
    rfl
  rw [← hsilent]
  exact edges_of_plays hcs

/-- If nothing is heard, the beeper has stayed silent. -/
theorem silent_of_unheard (hs : s.machine.sound = 0) (hcs : ∀ c ∈ cs, c.Plays)
    (hunheard : s.heard cs = []) : (s.after cs).machine.soundActive = false := by
  have hedges := edges_heard hs hcs
  rw [hunheard] at hedges
  generalize (s.after cs).machine.soundActive = sounding at hedges
  cases hedges
  rfl

/-- A part of what is played up to a frame is played, too. -/
theorem plays_of_split {earlier later : List Command} {keys? : Option Keypad}
    (hcs : ∀ c ∈ cs, c.Plays) (hsplit : cs = earlier ++ .frame keys? :: later) :
    ∀ c ∈ earlier ++ [.frame keys?], c.Plays := by
  intro c hc
  refine hcs c ?_
  rw [hsplit, List.append_cons]
  exact List.mem_append_left later hc

/-- A host that was told of a stop is in step with a beeper that is silent, and stays so. -/
theorem inStep_of_stop (hs : s.machine.sound = 0) (hcs : ∀ c ∈ cs, c.Plays)
    (htold : Edges before told false) (hlast : told.getLast? = some .stop) :
    s.InStep told cs where
  paired := (htold.trans (edges_heard hs hcs)).start_not_repeated
  ended := by
    intro earlier keys? later hsplit _ hsilent
    have hedges := htold.trans (edges_heard hs (plays_of_split hcs hsplit))
    rw [hsilent] at hedges
    -- there is a last edge, since there was one before
    have hsome : ∃ edge, (told ++ s.heard (earlier ++ [.frame keys?])).getLast? = some edge := by
      rw [List.getLast?_append, hlast, Option.or_some]
      exact ⟨_, rfl⟩
    obtain ⟨edge, hedge⟩ := hsome
    rw [hedge, hedges.eq_leadingTo hedge]
    rfl

/-- A host stays in step with anything that nothing comes of. -/
theorem inStep_of_comesToNothing {after : Bool} (htold : Edges before told after)
    (h : s.ComesToNothing cs) : s.InStep told cs where
  paired := by
    rw [h.unheard, List.append_nil]
    exact htold.start_not_repeated
  ended := by
    intro earlier keys? later hsplit hdone
    exact absurd hdone (h.failing earlier keys? later hsplit)

/-- If a host that was told of a start is in step, although the beeper is silent, then nothing
comes of what is played. -/
theorem comesToNothing_of_start (hs : s.machine.sound = 0) (hcs : ∀ c ∈ cs, c.Plays)
    (hlast : told.getLast? = some .start) (h : s.InStep told cs) : s.ComesToNothing cs := by
  have hunheard : s.heard cs = [] := by
    have hedges := edges_heard hs hcs
    cases hheard : s.heard cs with
    | nil => rfl
    | cons edge rest =>
      -- it begins with a start, which comes right behind the one the host was told of
      rw [hheard] at hedges
      obtain ⟨init, rfl⟩ := List.getLast?_eq_some_iff.1 hlast
      have hpaired := h.paired init.length
      rw [hheard, hedges.head_eq_start, List.append_assoc] at hpaired
      simp at hpaired
  refine ⟨hunheard, ?_⟩
  intro earlier keys? later hsplit hdone
  have hnone : s.heard (earlier ++ [.frame keys?]) = [] := by
    have hall := hunheard
    rw [hsplit, List.append_cons, heard, hostCalls_append, HostCall.tones_append] at hall
    exact (List.append_eq_nil_iff.1 hall).1
  have hsilent := silent_of_unheard hs (plays_of_split hcs hsplit) hnone
  have hstop := h.ended earlier keys? later hsplit hdone hsilent
  rw [hnone, List.append_nil, hlast] at hstop
  cases hstop

/-! ### Behind a reset -/

/-- **A reset tells nothing.**  Let a session run frames, with `edge` as the last edge heard, and
then be reset and go on with placing programs and running frames.  The host stays in step with the
beeper exactly if that edge is a stop, or if nothing comes of what follows. -/
theorem in_step_after_reset_iff (frames : List (Option Keypad)) {edge : Tone}
    (hlast : (s.heard (frames.map .frame)).getLast? = some edge) (hcs : ∀ c ∈ cs, c.Plays) :
    let r := ((s.after (frames.map .frame)).perform .reset).session
    r.InStep (s.heard (frames.map .frame)) cs ↔ edge = .stop ∨ r.ComesToNothing cs := by
  intro r
  have hr : r.machine.sound = 0 := rfl
  have htold := s.edges_after frames
  constructor
  · intro hstep
    cases edge with
    | start => exact .inr (comesToNothing_of_start hr hcs hlast hstep)
    | stop => exact .inl rfl
  · rintro (rfl | hnothing)
    · rw [htold.silent_of_stop hlast] at htold
      exact inStep_of_stop hr hcs htold hlast
    · exact inStep_of_comesToNothing htold hnothing

/-- The session behind a reset is one on a machine as it is switched on. -/
theorem session_perform_reset (s : Session) :
    (s.perform .reset).session = { s with machine := Machine.powerOn s.machine.source } :=
  congrArg (fun machine => { s with machine }) s.machine.reset_eq_powerOn

/-- A program that begins a tone and then goes round in circles. -/
def beep : List UInt8 := [0x60, 0x05, 0xF0, 0x18, 0x12, 0x04]

/-- A session with that program in place. -/
def beeping : Session :=
  (start (Machine.powerOn ByteSource.zeros) Pacing.usual).after [.load beep]

theorem heard_beeping : beeping.heard [.frame none] = [.start] := by decide +kernel

/-- A session with a machine as it is switched on, but for a source that was used before. -/
def silenced : Session :=
  start (Machine.powerOn (beeping.after [.frame none]).machine.source) Pacing.usual

/-- A reset in the middle of the tone leaves nothing but the machine as it is switched on. -/
theorem session_reset_beeping :
    ((beeping.after [.frame none]).perform .reset).session = silenced := by
  rw [session_perform_reset]
  rfl

/-- A reset cuts a tone off and leaves no program behind it, so that the next frame fails at its
first word. -/
theorem in_step_after_reset_of_no_program :
    (beeping.heard [.frame none]).getLast? = some .start ∧
      (∀ c ∈ [Command.frame none], c.Plays) ∧
      ((beeping.after [.frame none]).perform .reset).session.InStep
        (beeping.heard [.frame none]) [.frame none] := by
  have hlast : (beeping.heard [.frame none]).getLast? = some .start := by
    rw [heard_beeping]
    rfl
  have hcs : ∀ c ∈ [Command.frame none], c.Plays := by decide
  refine ⟨hlast, hcs, (in_step_after_reset_iff [none] hlast hcs).2 (.inr ?_)⟩
  show ((beeping.after [.frame none]).perform .reset).session.ComesToNothing _
  rw [session_reset_beeping]
  refine ⟨by decide +kernel, ?_⟩
  intro earlier keys? later hsplit hdone
  cases earlier with
  | nil =>
    cases hsplit
    have hfault : (Machine.frame Pacing.usual Keypad.idle
        silenced.machine).fault? = some (.word (.unknown 0)) := by
      decide +kernel
    have hnone := reply_perform_frame_done.1 hdone
    exact Option.some_ne_none _ (hfault.symm.trans hnone)
  | cons c rest =>
    exact absurd (List.cons_eq_cons.1 hsplit).2.symm (List.append_ne_nil_of_right_ne_nil rest nofun)

/-- A reset cuts a tone off.  If a program that makes no tone is played then, the host goes on with
the old one; and if a program is played that makes one, the host hears of a second start. -/
theorem out_of_step_after_reset :
    (beeping.heard [.frame none]).getLast? = some .start ∧
      ¬ ((beeping.after [.frame none]).perform .reset).session.InStep
        (beeping.heard [.frame none]) [.load [0x12, 0x00], .frame none] ∧
      ¬ ((beeping.after [.frame none]).perform .reset).session.InStep
        (beeping.heard [.frame none]) [.load beep, .frame none] := by
  rw [heard_beeping, session_reset_beeping]
  refine ⟨rfl, ?_, ?_⟩
  · intro hstep
    have hdone : ((silenced.after [.load [0x12, 0x00]]).perform (.frame none)).reply = .done :=
      reply_perform_frame_done.2 (by decide +kernel)
    have hunheard : silenced.heard ([.load [0x12, 0x00]] ++ [.frame none]) = [] := by
      decide +kernel
    have hsilent := silent_of_unheard rfl (by decide) hunheard
    have hstop := hstep.ended [.load [0x12, 0x00]] none [] rfl hdone hsilent
    rw [hunheard] at hstop
    cases hstop
  · intro hstep
    have hheard : silenced.heard [.load beep, .frame none] = [.start] := by
      decide +kernel
    have hpaired := hstep.paired 0
    rw [hheard] at hpaired
    exact hpaired rfl rfl

end Session

end ChipEight

/-
ChipEight/Proofs/Beeper.lean

What the host hears.  An edge is told at two places, by the instruction that sets the sound
timer and by the tick at the end of a frame, and a frame may fail between the two.  What
holds it together is that the edges told while a machine runs lead from the beeper as it was
to the beeper as it is, `Edges before edges after`:

    start leads from silence to a tone, stop leads from a tone to silence.

A cycle, a turn, a tick and a frame all keep to it, and such edges can be put one behind the
other.  From silence, then, they alternate, and the last one tells whether there is a tone.

Main statement: `tones_alternate`.
-/
import ChipEight.Proofs.HostView
import ChipEight.Proofs.Schedule

namespace ChipEight

/-! ### Edges that fit together -/

/-- The edge behind which the beeper sounds, or is silent. -/
def Tone.leadingTo (sounding : Bool) : Tone := if sounding then .start else .stop

/-- `Edges before edges after`: the edges lead from a beeper that sounds or is silent, as
`before` says, to one that sounds or is silent, as `after` says. -/
inductive Edges : Bool → List Tone → Bool → Prop
  | none (sounding : Bool) : Edges sounding [] sounding
  | start {rest : List Tone} {after : Bool} (h : Edges true rest after) :
      Edges false (.start :: rest) after
  | stop {rest : List Tone} {after : Bool} (h : Edges false rest after) :
      Edges true (.stop :: rest) after

namespace Edges

variable {before between after : Bool} {edges later : List Tone}

theorem trans (h : Edges before edges between) (h' : Edges between later after) :
    Edges before (edges ++ later) after := by
  induction h with
  | none => exact h'
  | start _ ih => exact .start (ih h')
  | stop _ ih => exact .stop (ih h')

/-- The edges alternate; from silence the first one is a start. -/
theorem getElem_eq (h : Edges before edges after) (number : Nat) (hn : number < edges.length) :
    edges[number] = if (number + before.toNat) % 2 = 0 then .start else .stop := by
  induction h generalizing number with
  | none => exact absurd hn (Nat.not_lt_zero number)
  | start _ ih =>
    cases number with
    | zero => rfl
    | succ number => exact ih number (Nat.lt_of_succ_lt_succ hn)
  | stop _ ih =>
    cases number with
    | zero => rfl
    | succ number =>
      have hparity : (number + 1 + true.toNat) % 2 = (number + false.toNat) % 2 := by
        simp only [Bool.toNat_true, Bool.toNat_false]
        omega
      rw [hparity]
      exact ih number (Nat.lt_of_succ_lt_succ hn)

/-- The last edge is the one that leads to the beeper as it is. -/
theorem last (h : Edges before edges after) :
    edges.getLast?.getD (.leadingTo before) = .leadingTo after := by
  induction h with
  | none => rfl
  | start _ ih | stop _ ih =>
    rw [List.getLast?_cons]
    exact ih

/-- From silence, the last edge is a start exactly if the beeper sounds. -/
theorem getLast?_eq_start_iff (h : Edges false edges after) :
    edges.getLast? = some .start ↔ after = true := by
  have hlast := h.last
  cases after with
  | false =>
    refine ⟨fun hstart => ?_, nofun⟩
    rw [hstart] at hlast
    cases hlast
  | true =>
    refine ⟨fun _ => rfl, fun _ => ?_⟩
    rcases hedge : edges.getLast? with - | edge <;> rw [hedge] at hlast
    · cases hlast
    · exact congrArg some hlast

/-- The edge between two values of the sound timer leads from the one to the other. -/
theorem of_edge? (before after : UInt8) :
    Edges (before != 0) (Tone.edge? before after).toList (after != 0) := by
  unfold Tone.edge?
  by_cases hb : before = 0 <;> by_cases ha : after = 0
  · rw [if_pos hb, if_pos ha, hb, ha]
    exact .none false
  · rw [if_pos hb, if_neg ha, hb, bne_iff_ne.2 ha]
    exact .start (.none true)
  · rw [if_neg hb, if_pos ha, ha, bne_iff_ne.2 hb]
    exact .stop (.none false)
  · rw [if_neg hb, if_neg ha, bne_iff_ne.2 hb, bne_iff_ne.2 ha]
    exact .none true

end Edges

namespace Machine

variable {m : Machine} {i : Instruction} {e : Effect} {skipUnknown : Bool}

/-! ### Cycles -/

/-- Only the instruction that sets the sound timer reports an edge. -/
theorem edge?_of_effect (h : m.effect i = .ok e) (hi : ∀ x, i ≠ .setSound x) :
    edge? (.ok e.signal) = none := by
  cases i with
  | setSound x => exact absurd rfl (hi x)
  | awaitKey x =>
    cases h
    unfold takeKey
    split <;> rfl
  | ret | call target | draw x y height | storeDecimal x | storeRegisters x
  | fillRegisters x =>
    simp only [effect] at h
    split at h <;> cases h
    rfl
  | _ =>
    cases h
    rfl

/-- The edge that setting the sound timer reports is the one between the two values. -/
theorem edge?_changeSound (m : Machine) (value : UInt8) :
    edge? (.ok (m.changeSound value).signal) = Tone.edge? m.sound value := by
  unfold changeSound
  dsimp only
  split <;> rename_i hedge <;> rw [hedge] <;> rfl

theorem edges_of_effect (h : m.effect i = .ok e) :
    Edges m.soundActive (edge? (.ok e.signal)).toList e.machine.soundActive := by
  by_cases hi : ∃ x, i = .setSound x
  · obtain ⟨x, rfl⟩ := hi
    cases h
    rw [edge?_changeSound]
    exact .of_edge? m.sound m.registers[x]
  · have hne : ∀ x, i ≠ .setSound x := fun x hx => hi ⟨x, hx⟩
    have hsound : e.machine.sound = m.sound := by
      refine agree_of_effect (p := .sound) h ?_
      cases i with
      | setSound x => exact absurd rfl (hne x)
      | _ => simp [Instruction.changes]
    rw [edge?_of_effect h hne, soundActive, soundActive, hsound]
    exact .none _

theorem edges_cycle (m : Machine) :
    Edges m.soundActive (edge? m.cycle.1).toList m.cycle.2.soundActive := by
  have hc := m.cycleCase
  generalize m.cycle = r at hc ⊢
  cases hc with
  | @waiting x hm => exact edges_of_effect (m := m) (i := .awaitKey x) rfl
  | stuck hm hr hk | crashed hm hr hk | noWord hm hf => exact .none _
  | unknown hm hf hi => exact .none _
  | failed hm hf hi he => exact .none _
  | @ran w i e hm hf hi he => exact edges_of_effect (m := { m with word := w }) he

theorem edges_turns (m : Machine) (count : Nat) :
    Edges m.soundActive (edgesOfTurns skipUnknown m count)
      (turns skipUnknown m count).soundActive := by
  induction count generalizing m with
  | zero => exact .none _
  | succ count ih =>
    have hturn : (turn skipUnknown m).sound = m.cycle.2.sound :=
      agree_turn (p := .sound) (by decide)
    have hlater : Edges m.cycle.2.soundActive
        (edgesOfTurns skipUnknown (turn skipUnknown m) count)
        (turns skipUnknown (turn skipUnknown m) count).soundActive := by
      rw [soundActive, ← hturn]
      exact ih _
    rw [edgesOfTurns_succ, turns_succ]
    exact m.edges_cycle.trans hlater

/-! ### Frames -/

theorem edges_tick (m : Machine) :
    Edges m.soundActive m.tick.1.toList m.tick.2.soundActive := by
  have hedge : m.tick.1.toList = (Tone.edge? m.sound m.tick.2.sound).toList := by
    rw [tick_fst, Tone.edge?]
    by_cases hb : m.sound = 0
    · have ha : m.tick.2.sound = 0 := by
        show countDown m.sound = 0
        rw [hb]
        rfl
      rw [if_neg fun hend => hend.1 hb, if_pos hb, if_pos ha]
      rfl
    · rw [if_neg hb]
      by_cases ha : m.tick.2.sound = 0
      · rw [if_pos ⟨hb, ha⟩, if_pos ha]
        rfl
      · rw [if_neg fun hend => ha hend.2, if_neg ha]
        rfl
  rw [hedge]
  exact .of_edge? m.sound m.tick.2.sound

/-- A frame tells the edges that lead to the beeper as it leaves it. -/
theorem edges_frame (pacing : Pacing) (keys : Keypad) (m : Machine) :
    Edges m.soundActive (HostCall.tones (frame pacing keys m).calls)
      (frame pacing keys m).machine.soundActive := by
  have hc := frameCase pacing keys m
  generalize frame pacing keys m = r at hc ⊢
  cases hc with
  | @failed count fault hspan hf =>
    -- without a tick, the edges are those of the turns
    show Edges _ (HostCall.tones (List.map HostCall.tone _)) _
    rw [HostCall.tones_map_tone]
    exact edges_turns { m with keypad := keys } count
  | @done count hspan hf =>
    have hturns : Edges m.soundActive
        (edgesOfTurns pacing.skipUnknown { m with keypad := keys } count)
        (turns pacing.skipUnknown { m with keypad := keys } count).soundActive :=
      edges_turns { m with keypad := keys } count
    generalize turns pacing.skipUnknown { m with keypad := keys } count = before at hturns ⊢
    dsimp only
    rw [HostCall.tones_of_frame]
    exact hturns.trans before.markShown.edges_tick

end Machine

namespace Session

variable {s : Session} {c : Command}

/-! ### Whole runs -/

/-- A command that plays tells the edges that lead to the beeper as it leaves it. -/
theorem edges_perform (hc : c.Plays) :
    Edges s.machine.soundActive (HostCall.tones (s.perform c).calls)
      (s.perform c).session.machine.soundActive := by
  by_cases hframe : ∃ keys?, c = .frame keys?
  · obtain ⟨keys?, rfl⟩ := hframe
    exact Machine.edges_frame s.pacing (keys?.getD s.hostKeys) s.machine
  · -- placing a program tells nothing, and there is nothing to tell
    have hcalls : (s.perform c).calls = [] := calls_perform fun keys? h => hframe ⟨keys?, h⟩
    have hsound : (s.perform c).session.machine.sound = s.machine.sound := by
      refine agree_perform (p := .sound) ?_
      cases c with
      | load data | loadNamed name data => simp [Command.changes]
      | frame keys? => exact absurd ⟨keys?, rfl⟩ hframe
      | _ => exact hc.elim
    rw [hcalls, Machine.soundActive, Machine.soundActive, hsound]
    exact .none _

theorem edges_of_plays {cs : List Command} (hcs : ∀ c ∈ cs, c.Plays) :
    Edges s.machine.soundActive (HostCall.tones (s.hostCalls cs))
      (s.after cs).machine.soundActive := by
  induction cs generalizing s with
  | nil => exact .none _
  | cons c rest ih =>
    rw [hostCalls_cons, HostCall.tones_append]
    exact (edges_perform (hcs c List.mem_cons_self)).trans
      (ih fun d hd => hcs d (List.mem_cons_of_mem c hd))

theorem edges_after (s : Session) (frames : List (Option Keypad)) :
    Edges s.machine.soundActive (HostCall.tones (s.hostCalls (frames.map .frame)))
      (s.after (frames.map .frame)).machine.soundActive := by
  apply edges_of_plays
  intro c hc
  obtain ⟨keys?, -, rfl⟩ := List.mem_map.1 hc
  trivial

/-- **The edges alternate.**  Let a session run frames, in whatever way they end, from a
machine with its sound timer at zero.  The host hears a start, a stop, a start and so on,
beginning with a start, and what it heard last is a start exactly if the beeper sounds. -/
theorem tones_alternate (hs : s.machine.sound = 0) (frames : List (Option Keypad)) :
    let tones := HostCall.tones (s.hostCalls (frames.map .frame))
    (∀ number (hn : number < tones.length),
      tones[number] = if number % 2 = 0 then .start else .stop) ∧
    (tones.getLast? = some .start ↔
      (s.after (frames.map .frame)).machine.soundActive = true) := by
  intro tones
  have hedges : Edges false tones (s.after (frames.map .frame)).machine.soundActive := by
    have hsilent : s.machine.soundActive = false := by
      rw [Machine.soundActive, hs]
      rfl
    rw [← hsilent]
    exact s.edges_after frames
  exact ⟨hedges.getElem_eq, hedges.getLast?_eq_start_iff⟩

/-- A tone that the tick of the first frame ends, and one that the second frame begins before
it fails. -/
theorem tones_alternate_across_failure :
    let m := Machine.powerOn ByteSource.zeros
    let s := (start m Pacing.usual).after
      [.load [0x60, 0x01, 0xF0, 0x18, 0xF1, 0x0A, 0xF1, 0x18, 0x00, 0x00]]
    let frames := [none, some (Keypad.idle.set 5 true)]
    let tones := HostCall.tones (s.hostCalls (frames.map .frame))
    s.machine.sound = 0 ∧ tones = [.start, .stop, .start] ∧
      (s.after (frames.map .frame)).machine.soundActive = true := by
  intro m s frames tones
  have hs : s.machine.sound = 0 := by decide +kernel
  have htones : tones = [.start, .stop, .start] := by decide +kernel
  have hlast : tones.getLast? = some .start := by
    rw [htones]
    rfl
  exact ⟨hs, htones, (tones_alternate hs frames).2.1 hlast⟩

end Session

end ChipEight

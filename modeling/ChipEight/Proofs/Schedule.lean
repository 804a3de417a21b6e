/-
ChipEight/Proofs/Schedule.lean

The schedule of a frame.  The cycles of a frame are taken in turns: a turn is a cycle and,
if the cycle could not read its word and such words are to be left out, the step over that
word.  `turns m k` is the machine after `k` turns, and everything a frame does is told by
these machines and by what their cycles come to:

    frame = read the keypad, k turns, the picture if there is one to show, a tick,

where `k` is the first number of turns behind which the frame does not go on, or the number
of cycles to a tick.  A frame goes on behind a turn unless the machine waits or the cycle
failed for good (`goesOn`); in the latter case it ends there.

Main statements: `burst_turns`, the cycles of a frame are `k` turns for such a `k`, and
`frame_schedule`, what is asked of the host, in which order and how often, and the machine
that the frame ends with.
-/
import ChipEight.Frame
import ChipEight.Proofs.Footprint
import Mathlib.Logic.Function.Iterate

namespace ChipEight.Machine

/-- Whether a frame goes on behind a cycle that came to this. -/
def goesOn (skipUnknown : Bool) : Except Fault Signal → Bool
  | .ok .wait => false
  | .ok _ => true
  | .error (.word (.unknown _)) => skipUnknown
  | .error _ => false

/-- The edge that a cycle reports, if it reports one. -/
def edge? : Except Fault Signal → Option Tone
  | .ok (.tone edge) => some edge
  | _ => none

/-- The fault that a frame ends with behind a cycle that came to this, if it ends with one. -/
def lastFault? (skipUnknown : Bool) : Except Fault Signal → Option Fault
  | .ok _ => none
  | .error fault => if goesOn skipUnknown (.error fault) then none else some fault

/-- A turn of a frame: a cycle, and the step over a word that it could not read. -/
def turn (skipUnknown : Bool) (m : Machine) : Machine :=
  match m.cycle.1 with
  | .error (.word (.unknown _)) => if skipUnknown then m.cycle.2.stepOver else m.cycle.2
  | _ => m.cycle.2

/-- The machine after so many turns. -/
def turns (skipUnknown : Bool) (m : Machine) (count : Nat) : Machine :=
  (turn skipUnknown)^[count] m

/-- What the cycle of a turn comes to, the first turn being number zero. -/
def resultOfTurn (skipUnknown : Bool) (m : Machine) (number : Nat) : Except Fault Signal :=
  (turns skipUnknown m number).cycle.1

/-- The edges of so many turns, in order. -/
def edgesOfTurns (skipUnknown : Bool) (m : Machine) (count : Nat) : List Tone :=
  (List.range count).filterMap fun number => edge? (resultOfTurn skipUnknown m number)

/-- The fault that a frame ends with behind so many turns, if it ends with one. -/
def faultOfTurns? (skipUnknown : Bool) (m : Machine) : Nat → Option Fault
  | 0 => none
  | last + 1 => lastFault? skipUnknown (resultOfTurn skipUnknown m last)

/-- The turns that a frame with room for `limit` of them takes: it goes on behind each but
the last one, and behind that it does not go on or has no room. -/
structure IsSpan (skipUnknown : Bool) (m : Machine) (limit count : Nat) : Prop where
  le : count ≤ limit
  onward : ∀ number, number + 1 < count →
    goesOn skipUnknown (resultOfTurn skipUnknown m number) = true
  ends : count = limit ∨
    ∃ last, count = last + 1 ∧ goesOn skipUnknown (resultOfTurn skipUnknown m last) = false

/-- How a frame ends that takes so many turns and goes well.  They are all there is room for
or the last one waits, and none failed for good.  The host hears their edges in order, then
sees the screen once if it changed, and hears of the end of a tone last, exactly if the one
tick of the timers behind all this took the sound timer to zero. -/
structure Completes (pacing : Pacing) (start : Machine) (count : Nat) (r : FrameReport) :
    Prop where
  full : count = pacing.cyclesPerTick ∨
    ∃ last, count = last + 1 ∧ resultOfTurn pacing.skipUnknown start last = .ok .wait
  harmless : ∀ number < count, ∀ fault,
    resultOfTurn pacing.skipUnknown start number = .error fault →
      goesOn pacing.skipUnknown (.error fault) = true
  calls : r.calls =
    let before := turns pacing.skipUnknown start count
    .readKeypad :: ((edgesOfTurns pacing.skipUnknown start count).map .tone ++
      (if before.needsRedraw then [.picture before.screen] else []) ++
      if before.sound ≠ 0 ∧ r.machine.sound = 0 then [.tone .stop] else [])
  machine : r.machine = (turns pacing.skipUnknown start count).markShown.tick.2

/-- How a frame ends that takes so many turns and fails.  The last turn failed for good, the
host heard the edges of the turns in order, and the machine is as the failed cycle left it. -/
structure Aborts (pacing : Pacing) (start : Machine) (count : Nat) (fault : Fault)
    (r : FrameReport) : Prop where
  calls : r.calls = .readKeypad :: (edgesOfTurns pacing.skipUnknown start count).map .tone
  final : goesOn pacing.skipUnknown (.error fault) = false
  failed : ∃ last, count = last + 1 ∧
    resultOfTurn pacing.skipUnknown start last = .error fault ∧
    r.machine = (turns pacing.skipUnknown start last).cycle.2

variable {skipUnknown : Bool} {m : Machine}

/-! ### One turn -/

theorem lastFault?_eq_some_iff {r : Except Fault Signal} {fault : Fault} :
    lastFault? skipUnknown r = some fault ↔
      r = .error fault ∧ goesOn skipUnknown r = false := by
  rcases r with cause | signal
  · rcases hg : goesOn skipUnknown (.error cause) with - | - <;> simp [lastFault?, hg]
  · simp [lastFault?]

theorem lastFault?_of_goesOn {r : Except Fault Signal} (h : goesOn skipUnknown r = true) :
    lastFault? skipUnknown r = none := by
  rcases r with cause | signal
  · exact if_pos h
  · rfl

/-- Behind a turn that is the last one no word is stepped over. -/
theorem turn_of_not_goesOn (h : goesOn skipUnknown m.cycle.1 = false) :
    turn skipUnknown m = m.cycle.2 := by
  unfold turn
  split
  · rename_i w hw
    rw [hw] at h
    have hskip : skipUnknown = false := h
    rw [hskip]
    rfl
  · rfl

/-- The cycles of a frame go on from the machine after the first turn, if they go on. -/
theorem burst_of_goesOn (h : goesOn skipUnknown m.cycle.1 = true) (limit : Nat) :
    burst skipUnknown (limit + 1) m =
      let later := burst skipUnknown limit (turn skipUnknown m)
      { later with edges := (edge? m.cycle.1).toList ++ later.edges } := by
  rw [burst]
  unfold turn
  generalize m.cycle = r at h ⊢
  rcases r with ⟨((w | ⟨pointer, size⟩) | cause | cause | -) | signal, after⟩
  · have hskip : skipUnknown = true := h
    subst hskip
    rfl
  · cases h
  · cases h
  · cases h
  · cases h
  · cases signal with
    | wait => cases h
    | tone edge | quiet | redraw => rfl

/-- The cycles of a frame end with a turn behind which they do not go on. -/
theorem burst_of_not_goesOn (h : goesOn skipUnknown m.cycle.1 = false) (limit : Nat) :
    burst skipUnknown (limit + 1) m =
      ⟨lastFault? skipUnknown m.cycle.1, (edge? m.cycle.1).toList, m.cycle.2⟩ := by
  rw [burst]
  generalize m.cycle = r at h ⊢
  rcases r with ⟨((w | ⟨pointer, size⟩) | cause | cause | -) | signal, after⟩
  · have hskip : skipUnknown = false := h
    subst hskip
    rfl
  · rfl
  · rfl
  · rfl
  · rfl
  · cases signal with
    | wait => rfl
    | tone edge | quiet | redraw => cases h

/-- Stepping over a word moves the counter and nothing else. -/
theorem agree_turn {p : Part} (hp : p ≠ .counter) :
    m.cycle.2.Agree (turn skipUnknown m) p := by
  have hstep : m.cycle.2.Agree m.cycle.2.stepOver p := by
    cases p with
    | counter => exact absurd rfl hp
    | _ => exact rfl
  unfold turn
  split
  · cases skipUnknown with
    | false => exact .refl m.cycle.2 p
    | true => exact hstep
  · exact .refl m.cycle.2 p

/-! ### All turns -/

theorem turns_succ (count : Nat) :
    turns skipUnknown m (count + 1) = turns skipUnknown (turn skipUnknown m) count := rfl

/-- The last turn is taken by the machine after all others. -/
theorem turns_last (last : Nat) :
    turns skipUnknown m (last + 1) = turn skipUnknown (turns skipUnknown m last) :=
  Function.iterate_succ_apply' ..

theorem edgesOfTurns_succ (count : Nat) :
    edgesOfTurns skipUnknown m (count + 1) =
      (edge? m.cycle.1).toList ++ edgesOfTurns skipUnknown (turn skipUnknown m) count := by
  have hlater : ((List.range count).map Nat.succ).filterMap
        (fun number => edge? (resultOfTurn skipUnknown m number)) =
      edgesOfTurns skipUnknown (turn skipUnknown m) count := by
    rw [List.filterMap_map]
    rfl
  have hfirst : resultOfTurn skipUnknown m 0 = m.cycle.1 := rfl
  rw [edgesOfTurns, List.range_succ_eq_map, List.filterMap_cons, hlater, hfirst]
  rcases edge? m.cycle.1 with - | edge <;> rfl

theorem edgesOfTurns_one :
    edgesOfTurns skipUnknown m 1 = (edge? m.cycle.1).toList := by
  rw [edgesOfTurns_succ]
  exact List.append_nil _

theorem faultOfTurns?_succ (h : goesOn skipUnknown m.cycle.1 = true) (count : Nat) :
    faultOfTurns? skipUnknown m (count + 1) =
      faultOfTurns? skipUnknown (turn skipUnknown m) count := by
  cases count with
  | zero => exact lastFault?_of_goesOn h
  | succ last => rfl

theorem faultOfTurns?_eq_some_iff {count : Nat} {fault : Fault} :
    faultOfTurns? skipUnknown m count = some fault ↔
      ∃ last, count = last + 1 ∧ resultOfTurn skipUnknown m last = .error fault ∧
        goesOn skipUnknown (resultOfTurn skipUnknown m last) = false := by
  cases count with
  | zero => simp [faultOfTurns?]
  | succ last => simp [faultOfTurns?, lastFault?_eq_some_iff]

/-- A span is a turn behind which the frame goes on, and a span after it. -/
theorem IsSpan.succ {limit count : Nat} (hm : goesOn skipUnknown m.cycle.1 = true)
    (h : IsSpan skipUnknown (turn skipUnknown m) limit count) :
    IsSpan skipUnknown m (limit + 1) (count + 1) := by
  refine ⟨Nat.succ_le_succ h.le, ?_, ?_⟩
  · intro number hn
    cases number with
    | zero => exact hm
    | succ number => exact h.onward number (by omega)
  · rcases h.ends with rfl | ⟨last, rfl, hlast⟩
    · exact .inl rfl
    · exact .inr ⟨last + 1, rfl, hlast⟩

/-- The cycles of a frame are the turns of a span. -/
theorem burst_turns (skipUnknown : Bool) (limit : Nat) (m : Machine) :
    ∃ count, IsSpan skipUnknown m limit count ∧
      burst skipUnknown limit m =
        ⟨faultOfTurns? skipUnknown m count, edgesOfTurns skipUnknown m count,
          turns skipUnknown m count⟩ := by
  -- on the room that is left; what follows the first turn is a span of another machine
  induction limit generalizing m with
  | zero => exact ⟨0, ⟨Nat.le_refl 0, fun _ hn => absurd hn (by omega), .inl rfl⟩, rfl⟩
  | succ limit ih =>
    rcases hm : goesOn skipUnknown m.cycle.1 with - | -
    · have hspan : IsSpan skipUnknown m (limit + 1) 1 :=
        ⟨by omega, fun _ hn => absurd hn (by omega), .inr ⟨0, rfl, hm⟩⟩
      have hmachine : turns skipUnknown m 1 = m.cycle.2 := turn_of_not_goesOn hm
      refine ⟨1, hspan, ?_⟩
      rw [burst_of_not_goesOn hm, edgesOfTurns_one, hmachine]
      rfl
    · obtain ⟨count, hspan, hburst⟩ := ih (turn skipUnknown m)
      refine ⟨count + 1, hspan.succ hm, ?_⟩
      rw [burst_of_goesOn hm, hburst, faultOfTurns?_succ hm, edgesOfTurns_succ, turns_succ]

/-- The last turn of a span is the last there is room for, waits or fails for good. -/
theorem IsSpan.last {limit count : Nat} (h : IsSpan skipUnknown m limit count)
    (hf : faultOfTurns? skipUnknown m count = none) :
    count = limit ∨ ∃ last, count = last + 1 ∧ resultOfTurn skipUnknown m last = .ok .wait := by
  rcases h.ends with hall | ⟨last, hlast, hend⟩
  · exact .inl hall
  · refine .inr ⟨last, hlast, ?_⟩
    rcases hr : resultOfTurn skipUnknown m last with fault | signal
    · -- a fault behind which the frame does not go on is the fault of the frame
      have hsome : faultOfTurns? skipUnknown m count = some fault :=
        faultOfTurns?_eq_some_iff.2 ⟨last, hlast, hr, hend⟩
      rw [hf] at hsome
      cases hsome
    · rw [hr] at hend
      cases signal with
      | wait => rfl
      | tone edge | quiet | redraw => cases hend

/-- The cycles of a span failed for good only if the last one did. -/
theorem IsSpan.harmless {limit count : Nat} (h : IsSpan skipUnknown m limit count)
    (hf : faultOfTurns? skipUnknown m count = none) {number : Nat} (hn : number < count)
    {fault : Fault} (hr : resultOfTurn skipUnknown m number = .error fault) :
    goesOn skipUnknown (.error fault) = true := by
  rw [← hr]
  by_cases hlast : number + 1 < count
  · exact h.onward number hlast
  · rcases hg : goesOn skipUnknown (resultOfTurn skipUnknown m number) with - | -
    · have hsome : faultOfTurns? skipUnknown m count = some fault :=
        faultOfTurns?_eq_some_iff.2 ⟨number, by omega, hr, hg⟩
      rw [hf] at hsome
      cases hsome
    · rfl

/-! ### The keypad -/

theorem keypad_turns (count : Nat) : (turns skipUnknown m count).keypad = m.keypad := by
  induction count generalizing m with
  | zero => rfl
  | succ count ih =>
    have hturn : (turn skipUnknown m).keypad = m.cycle.2.keypad :=
      agree_turn (p := .keypad) (by decide)
    rw [turns_succ, ih, hturn, keypad_cycle]

/-! ### The frame -/

/-- A tick reports an end exactly if it takes the sound timer to zero. -/
theorem tick_fst (m : Machine) :
    m.tick.1.toList = if m.sound ≠ 0 ∧ m.tick.2.sound = 0 then [.stop] else [] := by
  show (if m.sound = 1 then some Tone.stop else none).toList =
    if m.sound ≠ 0 ∧ countDown m.sound = 0 then [.stop] else []
  have hzero : m.sound ≠ 0 ∧ countDown m.sound = 0 ↔ m.sound = 1 := by
    simp only [ne_eq, ← UInt8.toNat_inj, toNat_countDown, UInt8.toNat_zero, UInt8.toNat_one]
    omega
  by_cases h : m.sound = 1
  · rw [if_pos h, if_pos (hzero.2 h)]
    rfl
  · rw [if_neg h, if_neg fun hz => h (hzero.1 hz)]
    rfl

/-- `FrameCase pacing keys m r`: a frame of `m` can come to `r`, and this is how. -/
inductive FrameCase (pacing : Pacing) (keys : Keypad) (m : Machine) : FrameReport → Prop
  /-- The last turn fails for good, and the frame ends with it. -/
  | failed {count : Nat} {fault : Fault}
      (hspan : IsSpan pacing.skipUnknown { m with keypad := keys } pacing.cyclesPerTick count)
      (hf : faultOfTurns? pacing.skipUnknown { m with keypad := keys } count = some fault) :
      FrameCase pacing keys m
        ⟨some fault,
          .readKeypad ::
            (edgesOfTurns pacing.skipUnknown { m with keypad := keys } count).map .tone,
          turns pacing.skipUnknown { m with keypad := keys } count⟩
  /-- No turn fails for good; the picture, if there is one to show, and the tick follow. -/
  | done {count : Nat}
      (hspan : IsSpan pacing.skipUnknown { m with keypad := keys } pacing.cyclesPerTick count)
      (hf : faultOfTurns? pacing.skipUnknown { m with keypad := keys } count = none) :
      FrameCase pacing keys m
        (let before := turns pacing.skipUnknown { m with keypad := keys } count
        ⟨none,
          .readKeypad ::
            ((edgesOfTurns pacing.skipUnknown { m with keypad := keys } count).map .tone ++
              before.pictureCall ++ before.markShown.tick.1.toList.map .tone),
          before.markShown.tick.2⟩)

/-- Every frame goes one of these ways. -/
theorem frameCase (pacing : Pacing) (keys : Keypad) (m : Machine) :
    FrameCase pacing keys m (frame pacing keys m) := by
  obtain ⟨count, hspan, hburst⟩ :=
    burst_turns pacing.skipUnknown pacing.cyclesPerTick { m with keypad := keys }
  unfold frame
  rw [hburst]
  rcases hf : faultOfTurns? pacing.skipUnknown { m with keypad := keys } count with - | fault
  · exact .done hspan hf
  · exact .failed hspan hf

/-- The machine behind a turn that failed for good is as the failed cycle left it. -/
theorem turns_of_fault {last : Nat}
    (h : goesOn skipUnknown (resultOfTurn skipUnknown m last) = false) :
    turns skipUnknown m (last + 1) = (turns skipUnknown m last).cycle.2 := by
  rw [turns_last]
  exact turn_of_not_goesOn h

/-- **The schedule of a frame.**  A frame reads the keypad once and first of all, and the
machine has these keys all along.  It takes the turns of a span, and completes them if it
goes well, and aborts with the last of them if it fails. -/
theorem frame_schedule (pacing : Pacing) (keys : Keypad) (m : Machine) :
    let start := { m with keypad := keys }
    let r := frame pacing keys m
    ∃ count, IsSpan pacing.skipUnknown start pacing.cyclesPerTick count ∧
      (∀ number ≤ count, (turns pacing.skipUnknown start number).keypad = keys) ∧
      r.machine.keypad = keys ∧
      (r.fault? = none → Completes pacing start count r) ∧
      ∀ fault, r.fault? = some fault → Aborts pacing start count fault r := by
  intro start r
  have hkeys : ∀ number, (turns pacing.skipUnknown start number).keypad = keys := keypad_turns
  have hc : FrameCase pacing keys m r := frameCase pacing keys m
  clear_value r
  cases hc with
  | @failed count fault hspan hf =>
    -- the fault is that of the last turn, and the span ends with it
    obtain ⟨last, rfl, hfault, hend⟩ := faultOfTurns?_eq_some_iff.1 hf
    refine ⟨last + 1, hspan, fun number _ => hkeys number, hkeys _, nofun, ?_⟩
    rintro _ ⟨⟩
    have hfinal : goesOn pacing.skipUnknown (.error fault) = false := by
      rw [← hend, hfault]
    exact ⟨rfl, hfinal, last, rfl, hfault, turns_of_fault hend⟩
  | @done count hspan hf =>
    refine ⟨count, hspan, fun number _ => hkeys number, hkeys count, fun _ => ?_, nofun⟩
    refine ⟨hspan.last hf, fun number hn fault hr => hspan.harmless hf hn hr, ?_, rfl⟩
    dsimp only
    rw [tick_fst, apply_ite (List.map HostCall.tone)]
    rfl

end ChipEight.Machine

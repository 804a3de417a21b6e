/-
ChipEight/Frame.lean

A frame: what the machine does between two ticks of its timers, and what it asks of its
host meanwhile.  The host is a keypad, a screen and a beeper.  A frame reads the keypad
once, runs the cycles of the period, lets the host show the screen if it changed, and ticks
the timers.

The cycles end early when the machine waits for a key, and when a cycle fails; a frame with
a failed cycle ends there, with neither a picture nor a tick.  A word that stands for no
instruction is stepped over instead if the pacing says so.
-/
import ChipEight.Machine.Cycle

namespace ChipEight

/-- How the machine is driven: the cycles between two ticks of the timers, and whether words
that stand for no instruction are stepped over. -/
structure Pacing where
  cyclesPerTick : Nat
  skipUnknown : Bool
  deriving DecidableEq, Repr

namespace Pacing

/-- The cycles of a second. -/
def clockRate : Nat := 500

/-- The ticks of a second. -/
def tickRate : Nat := 60

-- milliseconds, rounded down
def clockInterval : Nat := 1000 / clockRate

def tickInterval : Nat := 1000 / tickRate

/-- As many cycles to a tick as the two rates give, and no word stepped over. -/
def usual : Pacing := ⟨clockRate / tickRate, false⟩

end Pacing

/-- What is asked of the host. -/
inductive HostCall where
  | readKeypad
  | tone (edge : Tone)
  | picture (screen : Screen)

/-- What the cycles of a frame came to: why the last one failed, if it did, the edges of the
beeper in order, and the machine after the last one. -/
structure Burst where
  fault? : Option Fault
  edges : List Tone
  machine : Machine

/-- What a frame came to: why a cycle failed, if one did, what was asked of the host in order,
and the machine after the frame. -/
structure FrameReport where
  fault? : Option Fault
  calls : List HostCall
  machine : Machine

namespace Machine

/-- Run up to so many cycles, ending when the machine waits or a cycle fails. -/
def burst (skipUnknown : Bool) : Nat → Machine → Burst
  | 0, m => ⟨none, [], m⟩
  | n + 1, m =>
    match m.cycle with
    | (.ok .wait, after) => ⟨none, [], after⟩
    | (.ok (.tone edge), after) =>
      let later := burst skipUnknown n after
      { later with edges := edge :: later.edges }
    | (.ok .quiet, after) => burst skipUnknown n after
    | (.ok .redraw, after) => burst skipUnknown n after
    | (.error fault, after) =>
      match fault, skipUnknown with
      | .word (.unknown _), true => burst skipUnknown n after.stepOver
      | _, _ => ⟨some fault, [], after⟩

/-- The call that shows the screen, if it changed. -/
def pictureCall (m : Machine) : List HostCall :=
  if m.needsRedraw then [.picture m.screen] else []

/-- Run one frame, with these keys held down on the host. -/
def frame (pacing : Pacing) (keys : Keypad) (m : Machine) : FrameReport :=
  let b := burst pacing.skipUnknown pacing.cyclesPerTick { m with keypad := keys }
  match b.fault? with
  | some fault => ⟨some fault, .readKeypad :: b.edges.map .tone, b.machine⟩
  | none =>
    let ticked := b.machine.markShown.tick
    ⟨none,
      .readKeypad :: (b.edges.map .tone ++ b.machine.pictureCall ++ ticked.1.toList.map .tone),
      ticked.2⟩

end Machine

end ChipEight

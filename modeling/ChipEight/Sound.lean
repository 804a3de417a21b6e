/-
ChipEight/Sound.lean

The beeper.  It sounds exactly while the sound timer is not zero, and what the host is told
are the edges: a tone begins when the timer leaves zero and ends when it comes back to it.
-/

namespace ChipEight

/-- An edge of the beeper: the sound timer left zero or came to it. -/
inductive Tone where
  | start
  | stop
  deriving DecidableEq, Repr

namespace Tone

/-- The edge between two values of the sound timer, if there is one. -/
def edge? (before after : UInt8) : Option Tone :=
  if before = 0 then
    if after = 0 then none else some start
  else
    if after = 0 then some stop else none

end Tone

/-- Timers count down by one a tick and stay at zero. -/
def countDown (timer : UInt8) : UInt8 :=
  if timer = 0 then 0 else timer - 1

theorem toNat_countDown (timer : UInt8) : (countDown timer).toNat = timer.toNat - 1 := by
  unfold countDown
  split
  · subst timer
    rfl
  · rename_i h
    have h' : timer.toNat ≠ 0 := fun e => h (UInt8.toNat_inj.1 e)
    have := timer.toNat_lt
    rw [UInt8.toNat_sub_of_le]
    · rfl
    · rw [UInt8.le_iff_toNat_le]
      show 1 ≤ timer.toNat
      omega

end ChipEight

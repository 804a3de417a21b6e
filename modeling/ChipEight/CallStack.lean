/-
ChipEight/CallStack.lean

The call stack: the addresses of the calls that have not returned yet, at most sixteen of
them.  That bound is part of the type, so a call that finds no room is refused and no stack
ever holds more.

Main statements: `push_eq_error_iff` and `pop_eq_error_iff` say when the stack refuses, and
`entries_of_push` and `entries_of_pop` what becomes of the open calls.
-/
import ChipEight.Fault

namespace ChipEight

/-- The addresses of the open calls, the latest first. -/
structure CallStack where
  entries : List Nat
  length_le : entries.length ≤ 16
  deriving DecidableEq

namespace CallStack

def capacity : Nat := 16

def empty : CallStack := ⟨[], by decide⟩

def depth (s : CallStack) : Nat := s.entries.length

/-- Open a call at the address. -/
def push (s : CallStack) (address : Nat) : Except StackFault CallStack :=
  if h : s.entries.length < 16 then .ok ⟨address :: s.entries, h⟩ else .error .full

/-- Close the latest call and give its address. -/
def pop : CallStack → Except StackFault (Nat × CallStack)
  | ⟨[], _⟩ => .error .empty
  | ⟨address :: rest, h⟩ => .ok (address, ⟨rest, Nat.le_of_succ_le h⟩)

/-- The addresses of the open calls, the earliest first. -/
def oldestFirst (s : CallStack) : List Nat := s.entries.reverse

/-! ### When the stack refuses -/

theorem depth_le (s : CallStack) : s.depth ≤ 16 := s.length_le

theorem push_eq_error_iff {s : CallStack} {address : Nat} {cause : StackFault} :
    s.push address = .error cause ↔ s.depth = 16 ∧ cause = .full := by
  have h := s.length_le
  unfold push depth
  split
  · simp; omega
  · simp only [Except.error.injEq]
    constructor
    · rintro rfl
      exact ⟨by omega, rfl⟩
    · rintro ⟨_, rfl⟩
      rfl

theorem pop_eq_error_iff {s : CallStack} {cause : StackFault} :
    s.pop = .error cause ↔ s.depth = 0 ∧ cause = .empty := by
  rcases s with ⟨_ | ⟨address, rest⟩, h⟩ <;> simp [pop, depth, eq_comm]

/-! ### What push and pop do to the entries -/

theorem entries_of_push {s t : CallStack} {address : Nat} (h : s.push address = .ok t) :
    t.entries = address :: s.entries := by
  unfold push at h
  split at h <;> cases h
  rfl

theorem entries_of_pop {s t : CallStack} {address : Nat} (h : s.pop = .ok (address, t)) :
    s.entries = address :: t.entries := by
  rcases s with ⟨_ | ⟨caller, rest⟩, _⟩ <;> cases h
  rfl

theorem eq_of_entries {s t : CallStack} (h : s.entries = t.entries) : s = t := by
  cases s
  cases t
  cases h
  rfl

end CallStack

end ChipEight

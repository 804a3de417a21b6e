/-
ChipEight/Memory.lean

The memory: 4096 bytes, addressed from zero, with programs placed from address `0x200` on.

A block of memory is read and written as a list of bytes.  `slice` and `overwrite` do so
without a check, and `check` refuses a block that does not end inside the memory; `block`
and `store` are the two in one.  A word is read from any array of bytes, of which the memory
is one.

Addresses are plain numbers, but the sums that find the end of a word or of a block are
computed in 64 bits: where such a sum does not fit, there is no answer but a crash.

Main statements: `wordAt_eq_error_iff` and `check_eq_error_iff` (what is refused, and how),
`getElem_overwrite` (a byte is new exactly inside the block) and `slice_overwrite` (a block
that was written reads back).
-/
import ChipEight.Fault

namespace ChipEight

/-- The bytes a machine works on. -/
abbrev Memory := Vector UInt8 4096

namespace Memory

def capacity : Nat := 4096

/-- The highest address, which has all twelve bits of an address set. -/
def lastAddress : Nat := capacity - 1

def programStart : Nat := 0x200

/-- The room from the start of programs to the end of the memory. -/
def programRoom : Nat := capacity - programStart

def blank : Memory := Vector.replicate 4096 0

def clear (m : Memory) : Memory := m.map fun _ => 0

/-! ### Words -/

/-- The word at the pointer, if both its bytes are there.  The pointer behind the first byte
is computed in 64 bits. -/
def wordAt (bytes : Array UInt8) (pointer : Nat) : Except Fault Word :=
  if UInt64.size ≤ pointer + 1 then .error .crash
  else if h : pointer + 1 < bytes.size then
    .ok (Word.ofBytes bytes[pointer] bytes[pointer + 1])
  else .error (.word (.outside pointer bytes.size))

/-- The word at an address of the memory. -/
def fetch (m : Memory) (address : Nat) : Except Fault Word :=
  wordAt m.toArray address

/-- A sum within sixteen bits fits into 64. -/
theorem lt_size_of_lt {n : Nat} (h : n < 65536) : n < UInt64.size :=
  Nat.lt_trans h (by decide)

/-- There is a word at the pointer unless one of its bytes is missing or the pointer to the
second one does not fit into 64 bits. -/
theorem wordAt_eq_error_iff {bytes : Array UInt8} {pointer : Nat} {fault : Fault} :
    wordAt bytes pointer = .error fault ↔
      UInt64.size ≤ pointer + 1 ∧ fault = .crash ∨
        pointer + 1 < UInt64.size ∧ bytes.size ≤ pointer + 1 ∧
          fault = .word (.outside pointer bytes.size) := by
  unfold wordAt
  by_cases hcrash : UInt64.size ≤ pointer + 1
  · simp only [if_pos hcrash, Except.error.injEq, eq_comm]
    grind
  · rw [if_neg hcrash]
    split
    · simp only [reduceCtorEq, false_iff, not_or, not_and]
      omega
    · simp only [Except.error.injEq]
      grind

/-- A word that is fetched is made up of the two bytes at the address. -/
theorem fetch_eq_ok_iff {m : Memory} {address : Nat} {w : Word} :
    m.fetch address = .ok w ↔
      ∃ h : address + 1 < 4096, Word.ofBytes m[address] m[address + 1] = w := by
  have hsize : m.toArray.size = 4096 := m.size_toArray
  unfold fetch wordAt
  split
  · rename_i hcrash
    refine iff_of_false nofun ?_
    rintro ⟨h, -⟩
    exact Nat.not_le_of_lt (lt_size_of_lt (by omega)) hcrash
  · split
    · rename_i h
      rw [Except.ok.injEq]
      exact ⟨fun hw => ⟨hsize ▸ h, hw⟩, fun ⟨_, hw⟩ => hw⟩
    · rename_i hout
      exact iff_of_false nofun fun ⟨h, _⟩ => hout (hsize.symm ▸ h)

/-! ### Blocks -/

/-- The bytes from an address on; those past the end count as zero. -/
def slice (m : Memory) (address length : Nat) : List UInt8 :=
  (List.range length).map fun i => m[address + i]?.getD 0

/-- Write the bytes from an address on; those past the end are dropped. -/
def overwrite (m : Memory) (address : Nat) : List UInt8 → Memory
  | [] => m
  | byte :: rest => overwrite (m.setIfInBounds address byte) (address + 1) rest

/-- Refuse a block that leaves the memory.  Where it ends is computed in 64 bits. -/
def check (address length : Nat) : Except Fault Unit :=
  if UInt64.size ≤ address + length then .error .crash
  else if 4096 < address + length then .error (.access ⟨address, length⟩)
  else .ok ()

/-- Read a block, or refuse it if it leaves the memory. -/
def block (m : Memory) (address length : Nat) : Except Fault (List UInt8) :=
  (check address length).map fun _ => m.slice address length

/-- Write a block, or refuse it if it leaves the memory. -/
def store (m : Memory) (address : Nat) (bytes : List UInt8) : Except Fault Memory :=
  (check address bytes.length).map fun _ => m.overwrite address bytes

/-! ### Which blocks are refused -/

theorem check_eq_ok_iff {address length : Nat} :
    check address length = .ok () ↔ address + length ≤ 4096 := by
  unfold check
  split
  · rename_i hcrash
    simp only [reduceCtorEq, false_iff]
    exact fun hfits => Nat.not_le_of_lt (lt_size_of_lt (by omega)) hcrash
  · split <;> simp only [reduceCtorEq, false_iff, true_iff] <;> omega

theorem check_of_fits {address length : Nat} (h : address + length ≤ 4096) :
    check address length = .ok () := check_eq_ok_iff.2 h

theorem check_eq_error_iff {address length : Nat} {fault : Fault} :
    check address length = .error fault ↔
      UInt64.size ≤ address + length ∧ fault = .crash ∨
        4096 < address + length ∧ address + length < UInt64.size ∧
          fault = .access ⟨address, length⟩ := by
  unfold check
  split
  · simp only [Except.error.injEq, eq_comm]
    grind
  · split
    · simp only [Except.error.injEq, eq_comm]
      grind
    · simp only [reduceCtorEq, false_iff, not_or, not_and]
      omega

theorem block_of_fits (m : Memory) {address length : Nat} (h : address + length ≤ 4096) :
    m.block address length = .ok (m.slice address length) := by
  rw [block, check_of_fits h]
  rfl

theorem store_of_fits (m : Memory) {address : Nat} {bytes : List UInt8}
    (h : address + bytes.length ≤ 4096) :
    m.store address bytes = .ok (m.overwrite address bytes) := by
  rw [store, check_of_fits h]
  rfl

/-! ### What a write changes -/

theorem clear_eq_blank (m : Memory) : m.clear = blank := by
  ext i h
  simp [clear, blank]

theorem length_slice (m : Memory) (address length : Nat) :
    (m.slice address length).length = length := by
  simp [slice]

/-- A block that is read lies in the memory. -/
theorem eq_slice_of_block {m : Memory} {address length : Nat} {bytes : List UInt8}
    (h : m.block address length = .ok bytes) :
    address + length ≤ 4096 ∧ bytes = m.slice address length := by
  unfold block at h
  rcases hc : check address length with fault | ⟨⟩ <;> rw [hc] at h <;> cases h
  exact ⟨check_eq_ok_iff.1 hc, rfl⟩

theorem length_of_block {m : Memory} {address length : Nat} {bytes : List UInt8}
    (h : m.block address length = .ok bytes) : bytes.length = length := by
  rw [(eq_slice_of_block h).2, length_slice]

/-- A block that is written lies in the memory. -/
theorem eq_overwrite_of_store {m after : Memory} {address : Nat} {bytes : List UInt8}
    (h : m.store address bytes = .ok after) :
    address + bytes.length ≤ 4096 ∧ after = m.overwrite address bytes := by
  unfold store at h
  rcases hc : check address bytes.length with fault | ⟨⟩ <;> rw [hc] at h <;> cases h
  exact ⟨check_eq_ok_iff.1 hc, rfl⟩

theorem getElem_slice (m : Memory) (address length : Nat) {i : Nat}
    (h : i < (m.slice address length).length) :
    (m.slice address length)[i] = m[address + i]?.getD 0 := by
  simp [slice]

/-- A byte is new inside the block and old outside. -/
theorem getElem_overwrite (m : Memory) (address : Nat) (bytes : List UInt8) {a : Nat}
    (ha : a < 4096) :
    (m.overwrite address bytes)[a] =
      if address ≤ a ∧ a < address + bytes.length then bytes[a - address]?.getD 0 else m[a] := by
  induction bytes generalizing m address with
  | nil =>
    rw [if_neg (by simp only [List.length_nil]; omega)]
    rfl
  | cons byte rest ih =>
    rw [overwrite, ih, List.length_cons]
    by_cases h : address + 1 ≤ a ∧ a < address + 1 + rest.length
    · have e : a - address = (a - (address + 1)) + 1 := by omega
      rw [if_pos h, if_pos (by omega), e, List.getElem?_cons_succ]
    · rw [if_neg h, Vector.getElem_setIfInBounds]
      by_cases e : address = a
      · subst e
        simp
      · rw [if_neg e, if_neg (by omega)]

/-- A block that was written inside the memory reads back. -/
theorem slice_overwrite (m : Memory) (address : Nat) (bytes : List UInt8)
    (h : address + bytes.length ≤ 4096) :
    (m.overwrite address bytes).slice address bytes.length = bytes := by
  apply List.ext_getElem (length_slice ..)
  intro i h₁ h₂
  have hi : address + i < 4096 := by omega
  rw [getElem_slice, Vector.getElem?_eq_getElem hi, Option.getD_some,
    getElem_overwrite _ _ _ hi, if_pos (by omega), Nat.add_sub_cancel_left,
    List.getElem?_eq_getElem h₂, Option.getD_some]

end Memory

end ChipEight

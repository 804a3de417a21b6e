/-
ChipEight/Alu.lean

The arithmetic and logic operations of the family `8XYN`.  An operation takes the values
of two registers and gives a result and, for five of the nine, a flag: the carry of an
addition, the absence of a borrow of a subtraction, the bit that a shift drops.

Everything here is on values; which registers are read and written, and in which order, is
the machine's concern.
-/

namespace ChipEight

/-- What the family `8XYN` does with the registers `x` and `y`; shifts are of `x`. -/
inductive Alu where
  | copy
  | or
  | and
  | xor
  | add
  | subtract
  | shiftRight
  | subtractFrom
  | shiftLeft
  deriving DecidableEq, Repr

namespace Alu

/-- The operation that a last digit selects, if any. -/
def ofDigit? : Nat → Option Alu
  | 0x0 => some copy
  | 0x1 => some or
  | 0x2 => some and
  | 0x3 => some xor
  | 0x4 => some add
  | 0x5 => some subtract
  | 0x6 => some shiftRight
  | 0x7 => some subtractFrom
  | 0xE => some shiftLeft
  | _ => none

/-- The last digit that selects the operation. -/
def digit : Alu → Nat
  | copy => 0x0
  | or => 0x1
  | and => 0x2
  | xor => 0x3
  | add => 0x4
  | subtract => 0x5
  | shiftRight => 0x6
  | subtractFrom => 0x7
  | shiftLeft => 0xE

/-- The result of the operation on the values of `x` and `y`. -/
def result (op : Alu) (a b : UInt8) : UInt8 :=
  match op with
  | copy => b
  | or => a ||| b
  | and => a &&& b
  | xor => a ^^^ b
  | add => a + b
  | subtract => a - b
  | shiftRight => a / 2
  | subtractFrom => b - a
  | shiftLeft => a + a

/-- The flag of the operation, for the five operations that have one: the carry, no borrow,
or the bit that is shifted out. -/
def flag? (op : Alu) (a b : UInt8) : Option UInt8 :=
  match op with
  | add => some (decide (255 < a.toNat + b.toNat)).toUInt8
  | subtract => some (decide (b ≤ a)).toUInt8
  | shiftRight => some (a % 2)
  | subtractFrom => some (decide (a ≤ b)).toUInt8
  | shiftLeft => some (a / 128)
  | _ => none

theorem ofDigit?_digit (op : Alu) : ofDigit? op.digit = some op := by
  cases op <;> rfl

theorem digit_of_ofDigit? {d : Nat} {op : Alu} (h : ofDigit? d = some op) : op.digit = d := by
  unfold ofDigit? at h
  split at h <;> cases h <;> rfl

theorem digit_lt (op : Alu) : op.digit < 16 := by
  cases op <;> decide

end Alu

end ChipEight

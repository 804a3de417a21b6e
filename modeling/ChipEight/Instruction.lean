/-
ChipEight/Instruction.lean

The instruction set.  Each constructor is one form of the instruction table, with its
fields already read; only the nine operations of the family `8XYN` share a constructor,
since they differ in what they compute and in nothing else.

Targets and sprite heights are plain numbers: an instruction that comes from a word has
twelve bits of address and four of height, and `Instruction.InRange` says so, but nothing
the machine does with an instruction depends on it.
-/
import ChipEight.Alu
import ChipEight.Word

namespace ChipEight

/-- A decoded instruction. -/
inductive Instruction where
  | clearScreen                                  -- 00E0
  | ret                                          -- 00EE
  | jump (target : Nat)                          -- 1NNN
  | call (target : Nat)                          -- 2NNN
  | skipIfByte (x : Register) (byte : UInt8)     -- 3XNN
  | skipUnlessByte (x : Register) (byte : UInt8) -- 4XNN
  | skipIfSame (x y : Register)                  -- 5XY0
  | setByte (x : Register) (byte : UInt8)        -- 6XNN
  | addByte (x : Register) (byte : UInt8)        -- 7XNN
  | combine (op : Alu) (x y : Register)          -- 8XYN
  | skipUnlessSame (x y : Register)              -- 9XY0
  | setIndex (target : Nat)                      -- ANNN
  | jumpOffset (target : Nat)                    -- BNNN
  | random (x : Register) (mask : UInt8)         -- CXNN
  | draw (x y : Register) (height : Nat)         -- DXYN
  | skipIfKey (x : Register)                     -- EX9E
  | skipUnlessKey (x : Register)                 -- EXA1
  | readDelay (x : Register)                     -- FX07
  | awaitKey (x : Register)                      -- FX0A
  | setDelay (x : Register)                      -- FX15
  | setSound (x : Register)                      -- FX18
  | addToIndex (x : Register)                    -- FX1E
  | pointToGlyph (x : Register)                  -- FX29
  | storeDecimal (x : Register)                  -- FX33
  | storeRegisters (x : Register)                -- FX55
  | fillRegisters (x : Register)                 -- FX65
  deriving DecidableEq, Repr

namespace Instruction

/-- The fields fit the bits that a word has for them. -/
def InRange : Instruction → Prop
  | jump target | call target | setIndex target | jumpOffset target => target < 4096
  | draw _ _ height => height < 16
  | _ => True

instance (i : Instruction) : Decidable i.InRange := by
  cases i <;> unfold InRange <;> infer_instance

end Instruction

end ChipEight

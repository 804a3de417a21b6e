/-
ChipEight/Program.lean

A program: a name and the bytes that go into memory from the start of programs on.  That
the bytes fit there is part of the type, so a program that was made once can be loaded into
every machine.
-/
import ChipEight.Memory

namespace ChipEight

/-- A named program that fits into memory. -/
structure Program where
  name : String
  data : List UInt8
  fits : data.length ≤ Memory.programRoom

namespace Program

def make (name : String) (data : List UInt8) : Except LoadFault Program :=
  if h : data.length ≤ Memory.programRoom then .ok ⟨name, data, h⟩
  else .error ⟨data.length, Memory.programRoom⟩

end Program

end ChipEight

/-
ChipEight/ByteSource.lean

Where random bytes come from: any stream of bytes, of which so many have been drawn.  Which
stream it is the host decides; the machine knows of it only that the next byte can be drawn.
-/

namespace ChipEight

/-- A stream of bytes and how many of them have been drawn. -/
structure ByteSource where
  stream : Nat → UInt8
  drawn : Nat

namespace ByteSource

/-- The source that gives zeros for ever. -/
def zeros : ByteSource := ⟨fun _ => 0, 0⟩

/-- The lowest eight bits of a counter that moves on by a fixed stride after each byte, with
wrap-around. -/
def counting (state stride : UInt64) : ByteSource :=
  ⟨fun k => UInt8.ofNat ((Nat.repeat (· + stride) k state).toNat % 256), 0⟩

def byte (s : ByteSource) : UInt8 := s.stream s.drawn

/-- The source after a byte is drawn. -/
def rest (s : ByteSource) : ByteSource := { s with drawn := s.drawn + 1 }

end ByteSource

end ChipEight

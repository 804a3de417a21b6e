/-
ChipEight/Memory/Font.lean

The built-in font: a glyph for each of the sixteen digits, five rows of eight cells each,
of which the left four are used.  The glyphs lie one after the other from the start of the
memory, so the glyph of digit `d` begins at `d` times the glyph size.
-/
import ChipEight.Memory

namespace ChipEight.Font

def location : Nat := 0

/-- The rows of a glyph, one byte each. -/
def glyphSize : Nat := 5

def glyphs : List UInt8 :=
  [0xF0, 0x90, 0x90, 0x90, 0xF0,
   0x20, 0x60, 0x20, 0x20, 0x70,
   0xF0, 0x10, 0xF0, 0x80, 0xF0,
   0xF0, 0x10, 0xF0, 0x10, 0xF0,
   0x90, 0x90, 0xF0, 0x10, 0x10,
   0xF0, 0x80, 0xF0, 0x10, 0xF0,
   0xF0, 0x80, 0xF0, 0x90, 0xF0,
   0xF0, 0x10, 0x20, 0x40, 0x40,
   0xF0, 0x90, 0xF0, 0x90, 0xF0,
   0xF0, 0x90, 0xF0, 0x10, 0xF0,
   0xF0, 0x90, 0xF0, 0x90, 0x90,
   0xE0, 0x90, 0xE0, 0x90, 0xE0,
   0xF0, 0x80, 0x80, 0x80, 0xF0,
   0xE0, 0x90, 0x90, 0x90, 0xE0,
   0xF0, 0x80, 0xF0, 0x80, 0xF0,
   0xF0, 0x80, 0xF0, 0x80, 0x80]

/-- The address of the glyph of a digit; numbers above fifteen lead past the font. -/
def address (digit : UInt8) : Nat :=
  location + glyphSize * digit.toNat

/-- Copy the glyphs into a memory. -/
def install (m : Memory) : Memory :=
  m.overwrite location glyphs

end ChipEight.Font

/-
ChipEight/Word.lean

The words a program consists of.  A word is two bytes of memory, the high one first, and
its sixteen bits are read in the fields the instruction tables name by letters: for `DXYN`
the family is `D`, `x` and `y` name registers, and `n`, `nn` and `nnn` are the lowest four,
eight and twelve bits.

The fields are defined by division and remainder, so that facts about them are facts of
linear arithmetic.  Main statements: `toNat_ofBytes` (a word is its two bytes in base 256),
`ofBytes_bytes` (the two bytes of a word make up the word again) and `toNat_eq_fields` (the
four digits of a word determine it).
-/

namespace ChipEight

/-- Sixteen bits, the unit in which instructions are stored. -/
abbrev Word := UInt16

/-- The number of one of the sixteen data registers. -/
abbrev Register := Fin 16

namespace Word

/-- The bytes that a word takes up in memory. -/
def size : Nat := 2

/-! ### Fields -/

/-- The topmost four bits, which select the instruction family. -/
def family (w : Word) : Fin 16 :=
  ⟨w.toNat / 4096, by have := w.toNat_lt; omega⟩

/-- The register in the second digit. -/
def x (w : Word) : Register :=
  ⟨w.toNat / 256 % 16, Nat.mod_lt _ (by decide)⟩

/-- The register in the third digit. -/
def y (w : Word) : Register :=
  ⟨w.toNat / 16 % 16, Nat.mod_lt _ (by decide)⟩

/-- The lowest four bits. -/
def n (w : Word) : Fin 16 :=
  ⟨w.toNat % 16, Nat.mod_lt _ (by decide)⟩

/-- The lowest eight bits. -/
def nn (w : Word) : UInt8 :=
  UInt8.ofNat (w.toNat % 256)

/-- The lowest twelve bits, an address. -/
def nnn (w : Word) : Nat :=
  w.toNat % 4096

/-! ### Bytes -/

/-- The word stored as these two bytes. -/
def ofBytes (high low : UInt8) : Word :=
  UInt16.ofNat (256 * high.toNat + low.toNat)

/-- The two bytes that store the word, the high one first. -/
def bytes (w : Word) : List UInt8 :=
  [UInt8.ofNat (w.toNat / 256), UInt8.ofNat (w.toNat % 256)]

theorem toNat_ofBytes (high low : UInt8) :
    (ofBytes high low).toNat = 256 * high.toNat + low.toNat := by
  have h := high.toNat_lt
  have l := low.toNat_lt
  simp only [ofBytes, UInt16.toNat_ofNat']
  omega

/-- The two bytes of a word make up the word again. -/
theorem ofBytes_bytes (w : Word) :
    ofBytes (UInt8.ofNat (w.toNat / 256)) (UInt8.ofNat (w.toNat % 256)) = w := by
  have h := w.toNat_lt
  apply UInt16.toNat_inj.1
  rw [toNat_ofBytes]
  simp only [UInt8.toNat_ofNat']
  omega

theorem toNat_nn (w : Word) : w.nn.toNat = w.toNat % 256 := by
  simp only [nn, UInt8.toNat_ofNat']
  omega

theorem nnn_lt (w : Word) : w.nnn < 4096 :=
  Nat.mod_lt _ (by decide)

/-- A word is its four digits in base sixteen. -/
theorem toNat_eq_fields (w : Word) :
    w.toNat = 4096 * w.family.val + 256 * w.x.val + 16 * w.y.val + w.n.val := by
  simp only [family, x, y, n]
  omega

end Word

end ChipEight

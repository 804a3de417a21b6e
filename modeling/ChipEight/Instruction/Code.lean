/-
ChipEight/Instruction/Code.lean

The code of the instruction set: `ofWord?` reads a word as an instruction and `toWord`
writes the word of an instruction.  The topmost digit selects a family; within a family
the remaining digits are fields, or select a form, and a word that selects none of the
forms is no instruction.

Main statements: `toWord_of_ofWord?` (a word that can be read is the word of what was read)
and `ofWord?_toWord` (an instruction with its fields in range is read from its word).
-/
import ChipEight.Instruction

namespace ChipEight.Instruction

/-- The instruction that a word stands for, if it stands for one. -/
def ofWord? (w : Word) : Option Instruction :=
  match w.family.val with
  | 0x0 =>
    match w.toNat with
    | 0x00E0 => some clearScreen
    | 0x00EE => some ret
    | _ => none
  | 0x1 => some (jump w.nnn)
  | 0x2 => some (call w.nnn)
  | 0x3 => some (skipIfByte w.x w.nn)
  | 0x4 => some (skipUnlessByte w.x w.nn)
  | 0x5 => if w.n.val = 0 then some (skipIfSame w.x w.y) else none
  | 0x6 => some (setByte w.x w.nn)
  | 0x7 => some (addByte w.x w.nn)
  | 0x8 => (Alu.ofDigit? w.n.val).map fun op => combine op w.x w.y
  | 0x9 => if w.n.val = 0 then some (skipUnlessSame w.x w.y) else none
  | 0xA => some (setIndex w.nnn)
  | 0xB => some (jumpOffset w.nnn)
  | 0xC => some (random w.x w.nn)
  | 0xD => some (draw w.x w.y w.n.val)
  | 0xE =>
    match w.nn.toNat with
    | 0x9E => some (skipIfKey w.x)
    | 0xA1 => some (skipUnlessKey w.x)
    | _ => none
  | 0xF =>
    match w.nn.toNat with
    | 0x07 => some (readDelay w.x)
    | 0x0A => some (awaitKey w.x)
    | 0x15 => some (setDelay w.x)
    | 0x18 => some (setSound w.x)
    | 0x1E => some (addToIndex w.x)
    | 0x29 => some (pointToGlyph w.x)
    | 0x33 => some (storeDecimal w.x)
    | 0x55 => some (storeRegisters w.x)
    | 0x65 => some (fillRegisters w.x)
    | _ => none
  | _ => none

/-! ### Writing -/

/-- The word of a family with an address. -/
def addressForm (family target : Nat) : Word :=
  UInt16.ofNat (4096 * family + target)

/-- The word of a family with a register and a byte. -/
def byteForm (family : Nat) (x : Register) (byte : Nat) : Word :=
  UInt16.ofNat (4096 * family + 256 * x.val + byte)

/-- The word of a family with two registers and a last digit. -/
def digitForm (family : Nat) (x y : Register) (digit : Nat) : Word :=
  UInt16.ofNat (4096 * family + 256 * x.val + 16 * y.val + digit)

/-- The word that stands for an instruction whose fields are in range. -/
def toWord : Instruction → Word
  | clearScreen => 0x00E0
  | ret => 0x00EE
  | jump target => addressForm 0x1 target
  | call target => addressForm 0x2 target
  | skipIfByte x byte => byteForm 0x3 x byte.toNat
  | skipUnlessByte x byte => byteForm 0x4 x byte.toNat
  | skipIfSame x y => digitForm 0x5 x y 0x0
  | setByte x byte => byteForm 0x6 x byte.toNat
  | addByte x byte => byteForm 0x7 x byte.toNat
  | combine op x y => digitForm 0x8 x y op.digit
  | skipUnlessSame x y => digitForm 0x9 x y 0x0
  | setIndex target => addressForm 0xA target
  | jumpOffset target => addressForm 0xB target
  | random x mask => byteForm 0xC x mask.toNat
  | draw x y height => digitForm 0xD x y height
  | skipIfKey x => byteForm 0xE x 0x9E
  | skipUnlessKey x => byteForm 0xE x 0xA1
  | readDelay x => byteForm 0xF x 0x07
  | awaitKey x => byteForm 0xF x 0x0A
  | setDelay x => byteForm 0xF x 0x15
  | setSound x => byteForm 0xF x 0x18
  | addToIndex x => byteForm 0xF x 0x1E
  | pointToGlyph x => byteForm 0xF x 0x29
  | storeDecimal x => byteForm 0xF x 0x33
  | storeRegisters x => byteForm 0xF x 0x55
  | fillRegisters x => byteForm 0xF x 0x65

/-! ### Reading gives the word back -/

theorem addressForm_nnn {w : Word} {family : Nat} (h : w.family.val = family) :
    addressForm family w.nnn = w := by
  have hw := w.toNat_lt
  apply UInt16.toNat_inj.1
  simp only [Word.family] at h
  simp only [addressForm, Word.nnn, UInt16.toNat_ofNat']
  omega

theorem byteForm_nn {w : Word} {family byte : Nat} (h : w.family.val = family)
    (hb : w.nn.toNat = byte) : byteForm family w.x byte = w := by
  have hw := w.toNat_lt
  apply UInt16.toNat_inj.1
  rw [Word.toNat_nn] at hb
  simp only [Word.family] at h
  simp only [byteForm, Word.x, UInt16.toNat_ofNat']
  omega

theorem digitForm_n {w : Word} {family digit : Nat} (h : w.family.val = family)
    (hd : w.n.val = digit) : digitForm family w.x w.y digit = w := by
  have hw := w.toNat_lt
  apply UInt16.toNat_inj.1
  simp only [Word.n] at hd
  simp only [Word.family] at h
  simp only [digitForm, Word.x, Word.y, UInt16.toNat_ofNat']
  omega

/-- A word that can be read is the word of what was read. -/
theorem toWord_of_ofWord? {w : Word} {i : Instruction} (h : ofWord? w = some i) :
    i.toWord = w := by
  unfold ofWord? at h
  split at h
  case h_1 hf =>
    split at h <;> cases h
    · rename_i hw
      exact UInt16.toNat_inj.1 (by rw [hw]; rfl)
    · rename_i hw
      exact UInt16.toNat_inj.1 (by rw [hw]; rfl)
  case h_6 hf | h_10 hf =>
    split at h <;> cases h
    exact digitForm_n hf ‹_›
  case h_9 hf =>
    obtain ⟨op, ho, rfl⟩ := Option.map_eq_some_iff.1 h
    exact digitForm_n hf (Alu.digit_of_ofDigit? ho).symm
  case h_14 hf =>
    cases h
    exact digitForm_n hf rfl
  case h_15 hf | h_16 hf =>
    split at h <;> cases h <;> exact byteForm_nn hf ‹_›
  case h_2 hf | h_3 hf | h_11 hf | h_12 hf =>
    cases h
    exact addressForm_nnn hf
  case h_4 hf | h_5 hf | h_7 hf | h_8 hf | h_13 hf =>
    cases h
    exact byteForm_nn hf rfl
  case h_17 => cases h

/-- What a word can be read as has its fields in range. -/
theorem inRange_of_ofWord? {w : Word} {i : Instruction} (h : ofWord? w = some i) :
    i.InRange := by
  unfold ofWord? at h
  split at h
  case h_9 =>
    obtain ⟨op, _, rfl⟩ := Option.map_eq_some_iff.1 h
    trivial
  case h_14 =>
    cases h
    exact w.n.isLt
  case h_2 | h_3 | h_11 | h_12 =>
    cases h
    exact w.nnn_lt
  all_goals (try split at h) <;> cases h <;> trivial

/-! ### Writing gives the instruction back -/

theorem family_addressForm {family target : Nat} (hf : family < 16) (ht : target < 4096) :
    (addressForm family target).family.val = family := by
  simp only [Word.family, addressForm, UInt16.toNat_ofNat']
  omega

theorem nnn_addressForm {family target : Nat} (ht : target < 4096) :
    (addressForm family target).nnn = target := by
  simp only [Word.nnn, addressForm, UInt16.toNat_ofNat']
  omega

theorem family_byteForm {family byte : Nat} (x : Register) (hf : family < 16)
    (hb : byte < 256) : (byteForm family x byte).family.val = family := by
  simp only [Word.family, byteForm, UInt16.toNat_ofNat']
  omega

theorem x_byteForm {family byte : Nat} (x : Register) (hb : byte < 256) :
    (byteForm family x byte).x = x := by
  simp only [Word.x, byteForm, UInt16.toNat_ofNat', Fin.ext_iff]
  omega

theorem nn_byteForm {family byte : Nat} (x : Register) (hb : byte < 256) :
    (byteForm family x byte).nn.toNat = byte := by
  simp only [Word.toNat_nn, byteForm, UInt16.toNat_ofNat']
  omega

theorem family_digitForm {family digit : Nat} (x y : Register) (hf : family < 16)
    (hd : digit < 16) : (digitForm family x y digit).family.val = family := by
  simp only [Word.family, digitForm, UInt16.toNat_ofNat']
  omega

theorem x_digitForm {family digit : Nat} (x y : Register) (hd : digit < 16) :
    (digitForm family x y digit).x = x := by
  simp only [Word.x, digitForm, UInt16.toNat_ofNat', Fin.ext_iff]
  omega

theorem y_digitForm {family digit : Nat} (x y : Register) (hd : digit < 16) :
    (digitForm family x y digit).y = y := by
  simp only [Word.y, digitForm, UInt16.toNat_ofNat', Fin.ext_iff]
  omega

theorem n_digitForm {family digit : Nat} (x y : Register) (hd : digit < 16) :
    (digitForm family x y digit).n.val = digit := by
  simp only [Word.n, digitForm, UInt16.toNat_ofNat']
  omega

/-- A family with an address is read from its word. -/
theorem ofWord?_addressForm {family target : Nat} {make : Nat → Instruction}
    (hf : family < 16) (ht : target < 4096)
    (h : ∀ w : Word, w.family.val = family → ofWord? w = some (make w.nnn)) :
    ofWord? (addressForm family target) = some (make target) := by
  rw [h _ (family_addressForm hf ht), nnn_addressForm ht]

/-- A family with a register and a byte is read from its word. -/
theorem ofWord?_byteForm {family : Nat} {make : Register → UInt8 → Instruction}
    (x : Register) (byte : UInt8) (hf : family < 16)
    (h : ∀ w : Word, w.family.val = family → ofWord? w = some (make w.x w.nn)) :
    ofWord? (byteForm family x byte.toNat) = some (make x byte) := by
  have hb : byte.toNat < 256 := byte.toNat_lt
  rw [h _ (family_byteForm x hf hb), x_byteForm x hb]
  exact congrArg (some <| make x ·) (UInt8.toNat_inj.1 (nn_byteForm x hb))

/-- A form that a byte selects in its family is read from its word. -/
theorem ofWord?_byteForm_select {family byte : Nat} {make : Register → Instruction}
    (x : Register) (hf : family < 16) (hb : byte < 256)
    (h : ∀ w : Word, w.family.val = family → w.nn.toNat = byte → ofWord? w = some (make w.x)) :
    ofWord? (byteForm family x byte) = some (make x) := by
  rw [h _ (family_byteForm x hf hb) (nn_byteForm x hb), x_byteForm x hb]

/-- A family with two registers and a last digit is read from its word. -/
theorem ofWord?_digitForm {family digit : Nat} (make : Register → Register → Instruction)
    (x y : Register) (hf : family < 16) (hd : digit < 16)
    (h : ∀ w : Word, w.family.val = family → w.n.val = digit →
      ofWord? w = some (make w.x w.y)) :
    ofWord? (digitForm family x y digit) = some (make x y) := by
  rw [h _ (family_digitForm x y hf hd) (n_digitForm x y hd), x_digitForm x y hd,
    y_digitForm x y hd]

/-- An instruction with its fields in range is read from its word. -/
theorem ofWord?_toWord {i : Instruction} (h : i.InRange) : ofWord? i.toWord = some i := by
  cases i with
  | clearScreen => rfl
  | ret => rfl
  | jump target | call target | setIndex target | jumpOffset target =>
    exact ofWord?_addressForm (by decide) h fun w hw => by simp only [ofWord?, hw]
  | skipIfByte x byte | skipUnlessByte x byte | setByte x byte | addByte x byte
  | random x byte =>
    exact ofWord?_byteForm x byte (by decide) fun w hw => by simp only [ofWord?, hw]
  | skipIfSame x y | skipUnlessSame x y =>
    exact ofWord?_digitForm _ x y (by decide) (by decide) fun w hw hn => by
      simp only [ofWord?, hw, hn, if_true]
  | combine op x y =>
    exact ofWord?_digitForm _ x y (by decide) op.digit_lt fun w hw hn => by
      simp only [ofWord?, hw, hn, Alu.ofDigit?_digit, Option.map_some]
  | draw x y height =>
    exact ofWord?_digitForm (draw · · height) x y (by decide) h fun w hw hn => by
      simp only [ofWord?, hw, hn]
  | skipIfKey x | skipUnlessKey x | readDelay x | awaitKey x | setDelay x | setSound x
  | addToIndex x | pointToGlyph x | storeDecimal x | storeRegisters x | fillRegisters x =>
    exact ofWord?_byteForm_select x (by decide) (by decide) fun w hw hb => by
      simp only [ofWord?, hw, hb]

end ChipEight.Instruction

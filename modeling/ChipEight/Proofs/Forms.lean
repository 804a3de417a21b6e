/-
ChipEight/Proofs/Forms.lean

The table of the instruction forms, and that words are read by it.  A form is written as the
table writes it, four characters of which the hexadecimal digits stand for themselves and
the letters N, X and Y for any digit:

    w fits 5XY0  ↔  the first digit of w is 5 and the last one is 0.

There are thirty-four forms, and each instruction belongs to one of them, `Instruction.form`.

Main statements: `fits_iff_of_ofWord?`, a word that is read as an instruction fits the form
of that and no other, and `ofWord?_eq_none_iff`, a word is read as nothing exactly if it fits
no form.
-/
import ChipEight.Instruction.Code
import Mathlib.Data.List.Forall2
import Mathlib.Tactic.FinCases

namespace ChipEight

/-! ### Forms -/

/-- The digit that a character of a form stands for; a letter stands for any. -/
def formDigit? : Char → Option Nat
  | '0' => some 0x0
  | '1' => some 0x1
  | '2' => some 0x2
  | '3' => some 0x3
  | '4' => some 0x4
  | '5' => some 0x5
  | '6' => some 0x6
  | '7' => some 0x7
  | '8' => some 0x8
  | '9' => some 0x9
  | 'A' => some 0xA
  | 'B' => some 0xB
  | 'C' => some 0xC
  | 'D' => some 0xD
  | 'E' => some 0xE
  | 'F' => some 0xF
  | _ => none

/-- The four digits of a word, the topmost first. -/
def Word.digits (w : Word) : List Nat := [w.family, w.x, w.y, w.n]

/-- A word fits a form if it has the digits of the form where the form has digits. -/
def Word.Fits (w : Word) (form : String) : Prop :=
  List.Forall₂ (fun c digit => ∀ d ∈ formDigit? c, digit = d) form.toList w.digits

/-- The lowest byte of a word is its last two digits. -/
theorem Word.toNat_nn_eq_digits (w : Word) : w.nn.toNat = 16 * w.y.val + w.n.val := by
  rw [Word.toNat_nn, Word.toNat_eq_fields]
  omega

namespace Instruction

/-- The table of the forms. -/
def forms : List String :=
  ["00E0", "00EE", "1NNN", "2NNN", "3XNN", "4XNN", "5XY0", "6XNN", "7XNN",
    "8XY0", "8XY1", "8XY2", "8XY3", "8XY4", "8XY5", "8XY6", "8XY7", "8XYE",
    "9XY0", "ANNN", "BNNN", "CXNN", "DXYN", "EX9E", "EXA1",
    "FX07", "FX0A", "FX15", "FX18", "FX1E", "FX29", "FX33", "FX55", "FX65"]

/-- The form that an instruction belongs to. -/
def form : Instruction → String
  | clearScreen => "00E0"
  | ret => "00EE"
  | jump _ => "1NNN"
  | call _ => "2NNN"
  | skipIfByte .. => "3XNN"
  | skipUnlessByte .. => "4XNN"
  | skipIfSame .. => "5XY0"
  | setByte .. => "6XNN"
  | addByte .. => "7XNN"
  | combine op .. =>
    match op with
    | .copy => "8XY0"
    | .or => "8XY1"
    | .and => "8XY2"
    | .xor => "8XY3"
    | .add => "8XY4"
    | .subtract => "8XY5"
    | .shiftRight => "8XY6"
    | .subtractFrom => "8XY7"
    | .shiftLeft => "8XYE"
  | skipUnlessSame .. => "9XY0"
  | setIndex _ => "ANNN"
  | jumpOffset _ => "BNNN"
  | random .. => "CXNN"
  | draw .. => "DXYN"
  | skipIfKey _ => "EX9E"
  | skipUnlessKey _ => "EXA1"
  | readDelay _ => "FX07"
  | awaitKey _ => "FX0A"
  | setDelay _ => "FX15"
  | setSound _ => "FX18"
  | addToIndex _ => "FX1E"
  | pointToGlyph _ => "FX29"
  | storeDecimal _ => "FX33"
  | storeRegisters _ => "FX55"
  | fillRegisters _ => "FX65"

variable {w : Word} {i : Instruction} {form : String}

/-- Every form is in the table. -/
theorem form_mem_forms (i : Instruction) : i.form ∈ forms := by
  cases i with
  | combine op x y => cases op <;> simp [Instruction.form, forms]
  | _ => simp [Instruction.form, forms]

/-! ### Reading by the table -/

/-- A word fits the form of what it is read as. -/
theorem fits_of_ofWord? (h : ofWord? w = some i) : w.Fits i.form := by
  have hx := w.x.isLt
  have hy := w.y.isLt
  have hn := w.n.isLt
  unfold ofWord? at h
  split at h
  case h_1 hf =>
    -- the words of this family are fixed, and so are all their digits
    split at h <;> cases h
    all_goals
      rename_i hw
      rw [Word.toNat_eq_fields, hf] at hw
      simp [Word.Fits, Word.digits, formDigit?, Instruction.form, hf]
      omega
  case h_6 hf | h_10 hf =>
    split at h <;> cases h
    have hzero : w.n = 0 := Fin.ext ‹_›
    simp [Word.Fits, Word.digits, formDigit?, Instruction.form, hf, hzero]
  case h_9 hf =>
    obtain ⟨op, ho, rfl⟩ := Option.map_eq_some_iff.1 h
    have hd : op.digit = w.n.val := Alu.digit_of_ofDigit? ho
    cases op <;>
      simp [Word.Fits, Word.digits, formDigit?, Instruction.form, hf, ← hd, Alu.digit]
  case h_15 hf | h_16 hf =>
    -- the lower byte selects the form: it is the last two digits
    split at h <;> cases h
    all_goals
      rename_i hb
      rw [Word.toNat_nn_eq_digits] at hb
      simp [Word.Fits, Word.digits, formDigit?, Instruction.form, hf]
      omega
  case h_17 => cases h
  all_goals
    rename_i hf
    cases h
    simp [Word.Fits, Word.digits, formDigit?, Instruction.form, hf]

/-- A word that fits a form is read as an instruction of that form. -/
theorem ofWord?_of_fits (hform : form ∈ forms) (h : w.Fits form) :
    ∃ i, ofWord? w = some i ∧ i.form = form := by
  fin_cases hform
  all_goals
    simp [Word.Fits, Word.digits, formDigit?] at h
    simp [ofWord?, h, Word.toNat_nn_eq_digits, Word.toNat_eq_fields, Alu.ofDigit?,
      Instruction.form]

/-- A word that is read as an instruction fits its form and no other. -/
theorem fits_iff_of_ofWord? (h : ofWord? w = some i) (hform : form ∈ forms) :
    w.Fits form ↔ i.form = form := by
  constructor
  · intro hfits
    obtain ⟨j, hj, rfl⟩ := ofWord?_of_fits hform hfits
    rw [h] at hj
    cases hj
    rfl
  · rintro rfl
    exact fits_of_ofWord? h

/-- A word is read as nothing exactly if it fits no form. -/
theorem ofWord?_eq_none_iff : ofWord? w = none ↔ ∀ form ∈ forms, ¬ w.Fits form := by
  constructor
  · intro h form hform hfits
    obtain ⟨i, hi, -⟩ := ofWord?_of_fits hform hfits
    rw [h] at hi
    cases hi
  · intro h
    rcases hi : ofWord? w with - | i
    · rfl
    · exact absurd (fits_of_ofWord? hi) (h i.form i.form_mem_forms)

/-! ### Fields -/

/-- The height of a sprite is the last digit of the word. -/
theorem height_of_ofWord? {x y : Register} {height : Nat}
    (h : ofWord? w = some (draw x y height)) : height = w.n.val := by
  have hheight : height < 16 := inRange_of_ofWord? h
  rw [← toWord_of_ofWord? h]
  exact (n_digitForm x y hheight).symm

/-- The register of a form of the family `F` is the second digit of the word. -/
theorem register_of_byteForm {x : Register} {byte : Nat} (hw : byteForm 0xF x byte = w)
    (hbyte : byte < 256) : x = w.x := by
  rw [← hw]
  exact (x_byteForm x hbyte).symm

end Instruction

end ChipEight

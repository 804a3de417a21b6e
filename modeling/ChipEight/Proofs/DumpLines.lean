/-
ChipEight/Proofs/DumpLines.lean

What a dump looks like, line by line.  The lines are those of the rows that are shown, in ascending
order and each once, where a row is shown if it holds a byte other than zero, or is the first one,
or comes behind a row that holds such a byte.  A line is described by what can be read off it, not
by how it is made:

    (tabs) 0x(first address) - 0x(last address) :(bytes, or dots)

Its addresses and bytes are numerals of base sixteen, `IsNumeral`: digits that stand for the number,
as many as the width asks for and without a zero in front beyond that.

Nothing is lost.  The first line tells the indent and all lines together the bytes, once their
number is known.

Main statement: `dump_by_rows`.
-/
import ChipEight.Proofs.DumpRows
import Mathlib.Data.List.Forall2
import Mathlib.Tactic.Choose

namespace ChipEight

namespace Numeral

variable {width n : Nat}

/-- The digits are the numeral of a number, filled up with zeros to a width. -/
structure IsNumeral (width n : Nat) (ds : List Char) : Prop where
  all_digits : ∀ c ∈ ds, c ∈ digits
  value_eq : value ds = n
  filled : width ≤ ds.length
  tight : width < ds.length → ds.head? ≠ some '0'

theorem hexDigits_ne_nil (n : Nat) : hexDigits n ≠ [] := by
  rw [hexDigits_eq]
  exact List.concat_ne_nil _ _

/-- The first digit of a number is no zero, unless the number is zero. -/
theorem head?_hexDigits (h : n ≠ 0) : (hexDigits n).head? ≠ some '0' := by
  induction n using Nat.strongRecOn with
  | ind n ih =>
    rw [hexDigits_eq]
    by_cases hn : n < 16
    · have hall : ∀ d : Fin 16, d.val ≠ 0 → d.val.digitChar.toUpper ≠ '0' := by decide
      rw [if_pos hn, Nat.mod_eq_of_lt hn]
      intro hzero
      exact hall ⟨n, hn⟩ h (Option.some.inj hzero)
    · rw [if_neg hn, List.head?_append_of_ne_nil _ (hexDigits_ne_nil _)]
      exact ih (n / 16) (by omega) (by omega)

theorem isNumeral_padded (hwidth : 0 < width) (n : Nat) : IsNumeral width n (padded width n) where
  all_digits := fun _ => mem_digits_of_mem_padded
  value_eq := value_padded width n
  filled := by
    rw [length_padded]
    exact Nat.le_max_left _ _
  tight := by
    intro hlong
    rw [length_padded] at hlong
    have hmore : width < (hexDigits n).length := by omega
    have hn : n ≠ 0 := by
      rintro rfl
      have hone : (hexDigits 0).length = 1 := rfl
      omega
    rw [padded, Nat.sub_eq_zero_of_le (Nat.le_of_lt hmore)]
    exact head?_hexDigits hn

/-- No line ends within a numeral. -/
theorem IsNumeral.newline_not_mem {ds : List Char} (h : IsNumeral width n ds) : '\n' ∉ ds := by
  intro hmem
  exact absurd (h.all_digits _ hmem) (by decide)

end Numeral

namespace Dump

open Numeral

variable {indent indent' number : Nat} {bytes bytes' : List UInt8}

/-! ### Lines -/

/-- A text that tells a row: the numerals of its bytes, each behind a blank, or dots. -/
inductive TellsRow (row : List UInt8) : List Char → Prop
  | bytes {numerals : List (List Char)} (hrow : ∃ byte ∈ row, byte ≠ 0)
      (hnumerals : List.Forall₂ (fun byte ds => IsNumeral 2 byte.toNat ds ∧ ds.length = 2)
        row numerals) :
      TellsRow row (numerals.flatMap (' ' :: ·))
  | dots (hrow : ∀ byte ∈ row, byte = 0) : TellsRow row " ...".toList

/-- The line of a row, without its end: tabs, the addresses of the first and the last byte, and
what tells the row. -/
def IsLine (indent : Nat) (bytes : List UInt8) (number : Nat) (line : List Char) : Prop :=
  ∃ first last content : List Char,
    line = List.replicate indent '\t' ++ "0x".toList ++ first ++ " - 0x".toList ++ last ++
      " :".toList ++ content ∧
    IsNumeral 4 (16 * number) first ∧
    IsNumeral 4 (16 * number + (row bytes number).length - 1) last ∧
    TellsRow (row bytes number) content

theorem isBlank_eq_true_iff {row : List UInt8} : isBlank row = true ↔ ∀ byte ∈ row, byte = 0 := by
  simp [isBlank]

theorem isBlank_eq_false_iff {row : List UInt8} :
    isBlank row = false ↔ ∃ byte ∈ row, byte ≠ 0 := by
  simp [isBlank]

/-- The numeral of a byte has two digits. -/
theorem isNumeral_byte (byte : UInt8) :
    IsNumeral 2 byte.toNat (padded 2 byte.toNat) ∧ (padded 2 byte.toNat).length = 2 := by
  refine ⟨isNumeral_padded (by decide) _, ?_⟩
  have hone : ∀ k < 16, (hexDigits k).length = 1 := by
    intro k hk
    rw [hexDigits_eq, if_pos hk]
    rfl
  have hlt : byte.toNat < 256 := byte.toNat_lt
  rw [length_padded, hexDigits_eq]
  by_cases hsmall : byte.toNat < 16
  · rw [if_pos hsmall]
    rfl
  · rw [if_neg hsmall, List.length_append, hone _ (by omega)]
    rfl

theorem tellsRow_content (row : List UInt8) :
    TellsRow row (if isBlank row then " ..." else bytesText row).toList := by
  rcases hrow : isBlank row with - | -
  · have hchars : (bytesText row).toList =
        (row.map fun byte => padded 2 byte.toNat).flatMap (' ' :: ·) := by
      rw [bytesText, String.toList_join, List.flatMap_map, List.flatMap_map]
      refine List.flatMap_congr fun byte _ => ?_
      simp only [String.toList_append, bareHex, String.toList_ofList]
      rfl
    rw [if_neg Bool.false_ne_true, hchars]
    refine .bytes (isBlank_eq_false_iff.1 hrow) ?_
    rw [List.forall₂_map_right_iff]
    exact List.forall₂_same.2 fun byte _ => isNumeral_byte byte
  · exact .dots (isBlank_eq_true_iff.1 hrow)

/-- What is made for a row is a line of it. -/
theorem exists_isLine (indent : Nat) (bytes : List UInt8) (number : Nat) :
    ∃ line, IsLine indent bytes number line ∧
      (rowLine indent bytes number).toList = line ++ ['\n'] := by
  refine ⟨_, ⟨_, _, _, rfl, isNumeral_padded (by decide) _, isNumeral_padded (by decide) _,
    tellsRow_content _⟩, ?_⟩
  simp only [rowLine, line, hex, bareHex, String.toList_append, String.toList_ofList,
    List.append_assoc]
  rfl

theorem newline_not_mem_numerals {row : List UInt8} {numerals : List (List Char)}
    (h : List.Forall₂ (fun byte ds => IsNumeral 2 byte.toNat ds ∧ ds.length = 2) row numerals) :
    '\n' ∉ numerals.flatMap (' ' :: ·) := by
  induction h with
  | nil => exact List.not_mem_nil
  | cons hds _ ih =>
    rw [List.flatMap_cons, List.mem_append, List.mem_cons]
    rintro ((hblank | hdigit) | hrest)
    · exact absurd hblank (by decide)
    · exact hds.1.newline_not_mem hdigit
    · exact ih hrest

theorem TellsRow.newline_not_mem {row : List UInt8} {content : List Char}
    (h : TellsRow row content) : '\n' ∉ content := by
  cases h with
  | bytes hrow hnumerals => exact newline_not_mem_numerals hnumerals
  | dots hrow => decide

theorem IsLine.newline_not_mem {line : List Char} (h : IsLine indent bytes number line) :
    '\n' ∉ line := by
  obtain ⟨first, last, content, rfl, hfirst, hlast, hcontent⟩ := h
  simp only [List.mem_append]
  rintro ((((((htab | hmark) | hdigit) | hmark) | hdigit) | hmark) | hrow)
  · exact absurd (List.eq_of_mem_replicate htab) (by decide)
  · exact absurd hmark (by decide)
  · exact hfirst.newline_not_mem hdigit
  · exact absurd hmark (by decide)
  · exact hlast.newline_not_mem hdigit
  · exact absurd hmark (by decide)
  · exact hcontent.newline_not_mem hrow

/-! ### The whole text -/

/-- A row holds a byte other than zero. -/
def HoldsByte (bytes : List UInt8) (number : Nat) : Prop :=
  ∃ byte ∈ row bytes number, byte ≠ 0

/-- Which rows there are and are shown. -/
theorem mem_shownRows_iff :
    number ∈ shownRows bytes ↔ 16 * number < bytes.length ∧
      (HoldsByte bytes number ∨ number = 0 ∨ HoldsByte bytes (number - 1)) := by
  rw [shownRows, List.mem_filter, List.mem_range, decide_eq_true_iff, Shown, isBlank_eq_false_iff,
    isBlank_eq_false_iff]
  have hrow : number < rowCount bytes ↔ 16 * number < bytes.length := by
    unfold rowCount width
    omega
  exact and_congr_left' hrow

/-- A dump is cut at its line ends into the lines of the rows that are shown. -/
theorem exists_lines (indent : Nat) (bytes : List UInt8) :
    ∃ lines : List (List Char), (text indent bytes).toList = lines.flatMap (· ++ ['\n']) ∧
      List.Forall₂ (IsLine indent bytes) (shownRows bytes) lines ∧
      ∀ line ∈ lines, '\n' ∉ line := by
  choose lineOf hline hchars using exists_isLine indent bytes
  refine ⟨(shownRows bytes).map lineOf, ?_, ?_, ?_⟩
  · rw [text_eq, String.toList_join, List.flatMap_map, List.flatMap_map]
    exact List.flatMap_congr fun number _ => hchars number
  · rw [List.forall₂_map_right_iff]
    exact List.forall₂_same.2 fun number _ => hline number
  · exact List.forall_mem_map.2 fun number _ => (hline number).newline_not_mem

/-- A dump of any bytes begins with its tabs. -/
theorem exists_toList_text (indent : Nat) (h : 0 < bytes.length) :
    ∃ r, (text indent bytes).toList = List.replicate indent '\t' ++ '0' :: r := by
  obtain ⟨count, hcount⟩ : ∃ count, rowCount bytes = count + 1 := by
    refine Nat.exists_eq_succ_of_ne_zero ?_
    unfold rowCount width
    omega
  have hfirst : Shown bytes 0 := .inr (.inl rfl)
  rw [text_eq, shownRows, hcount, List.range_succ_eq_map,
    List.filter_cons_of_pos (by rwa [decide_eq_true_iff]), List.map_cons, String.toList_join,
    List.flatMap_cons]
  simp only [rowLine, line, hex, String.toList_append, String.toList_ofList, List.append_assoc]
  exact ⟨_, rfl⟩

/-- The indent can be read off a dump of any bytes. -/
theorem indent_eq_of_text_eq (h : 0 < bytes.length) (h' : 0 < bytes'.length)
    (heq : text indent bytes = text indent' bytes') : indent = indent' := by
  have htabs : ∀ (count : Nat) (r : List Char),
      ((List.replicate count '\t' ++ '0' :: r).takeWhile (· == '\t')).length = count := by
    intro count r
    rw [List.takeWhile_append_of_pos (by simp), List.takeWhile_cons_of_neg (by decide),
      List.append_nil, List.length_replicate]
  obtain ⟨r, hr⟩ := exists_toList_text indent h
  obtain ⟨r', hr'⟩ := exists_toList_text indent' h'
  rw [← htabs indent r, ← htabs indent' r', ← hr, ← hr', heq]

/-- **A dump collapses the rows of zeros and loses nothing.**  It has one line for each row that
holds a byte other than zero, or is the first one, or comes behind a row that holds such a byte, in
ascending order, and no other line.  The line tells the first and the last address of its row, and
its bytes, or by dots that they are zero.  Bytes of the same number with the same dump are the same,
whatever their indents. -/
theorem dump_by_rows (indent : Nat) (bytes : List UInt8) :
    (shownRows bytes).Pairwise (· < ·) ∧
    (∀ number, number ∈ shownRows bytes ↔ 16 * number < bytes.length ∧
      (HoldsByte bytes number ∨ number = 0 ∨ HoldsByte bytes (number - 1))) ∧
    (∃ lines : List (List Char), (text indent bytes).toList = lines.flatMap (· ++ ['\n']) ∧
      List.Forall₂ (IsLine indent bytes) (shownRows bytes) lines ∧
      ∀ line ∈ lines, '\n' ∉ line) ∧
    ∀ indent' bytes', bytes.length = bytes'.length →
      text indent bytes = text indent' bytes' → bytes = bytes' := by
  refine ⟨List.pairwise_lt_range.filter _, fun number => mem_shownRows_iff,
    exists_lines indent bytes, ?_⟩
  intro indent' bytes' hlen heq
  rcases Nat.eq_zero_or_pos bytes.length with hzero | hpos
  · -- no bytes have no line that tells the indent
    have hzero' : bytes'.length = 0 := by rwa [← hlen]
    rw [List.length_eq_zero_iff.1 hzero, List.length_eq_zero_iff.1 hzero']
  · have hpos' : 0 < bytes'.length := by rwa [← hlen]
    obtain rfl := indent_eq_of_text_eq hpos hpos' heq
    exact text_inj hlen heq

end Dump

end ChipEight

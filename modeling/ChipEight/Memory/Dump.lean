/-
ChipEight/Memory/Dump.lean

The memory as text, sixteen bytes to a line.  A line gives the first and the last address
of its row and then its bytes; a row of zeros is shown by dots instead, and of several
rows of zeros in succession only the first is shown at all.

The rows are gone through once, from the first to the last, remembering whether the row
before was one of zeros.
-/
import ChipEight.Numeral

namespace ChipEight.Dump

/-- The bytes to a line. -/
def width : Nat := 16

/-- The number of rows; the last one may be shorter. -/
def rowCount (bytes : List UInt8) : Nat :=
  (bytes.length + (width - 1)) / width

def row (bytes : List UInt8) (number : Nat) : List UInt8 :=
  (bytes.drop (width * number)).take width

/-- A row without a byte that differs from zero. -/
def isBlank (row : List UInt8) : Bool :=
  row.all (· == 0)

/-- The bytes of a row that is shown in full. -/
def bytesText (row : List UInt8) : String :=
  String.join (row.map fun byte => " " ++ Numeral.bareHex 2 byte.toNat)

/-- The line of a row: its addresses, and its bytes or dots. -/
def line (indent first : Nat) (row : List UInt8) : String :=
  String.ofList (List.replicate indent '\t') ++ Numeral.hex 4 first ++ " - " ++
    Numeral.hex 4 (first + row.length - 1) ++ " :" ++
    (if isBlank row then " ..." else bytesText row) ++ "\n"

/-- The lines of the rows with these numbers, given whether a blank row came before. -/
def lines (indent : Nat) (bytes : List UInt8) (afterBlank : Bool) : List Nat → List String
  | [] => []
  | number :: rest =>
    let r := row bytes number
    if isBlank r && afterBlank then
      lines indent bytes afterBlank rest
    else
      line indent (width * number) r :: lines indent bytes (isBlank r) rest

/-- The text of a list of bytes, each line behind so many tabs. -/
def text (indent : Nat) (bytes : List UInt8) : String :=
  String.join (lines indent bytes false (List.range (rowCount bytes)))

end ChipEight.Dump

/-
ChipEight/Numeral.lean

Numbers as text.  Addresses, words and bytes are shown in base sixteen with capital
digits; a numeral is filled up with zeros on the left to a least width and is never cut,
so a number with more digits than the width is shown whole.

`hex width n` carries the mark `0x` in front of the digits and `bareHex width n` does not.
-/

namespace ChipEight.Numeral

/-- The digits of `n` in base sixteen, in capitals and most significant first. -/
def hexDigits (n : Nat) : List Char :=
  (Nat.toDigits 16 n).map Char.toUpper

/-- The digits of `n`, with zeros in front up to `width` digits. -/
def padded (width n : Nat) : List Char :=
  List.replicate (width - (hexDigits n).length) '0' ++ hexDigits n

/-- The numeral without a mark, at least `width` digits long. -/
def bareHex (width n : Nat) : String :=
  String.ofList (padded width n)

/-- The numeral behind the mark `0x`, at least `width` digits long. -/
def hex (width n : Nat) : String :=
  "0x" ++ bareHex width n

theorem length_padded (width n : Nat) :
    (padded width n).length = max width (hexDigits n).length := by
  simp only [padded, List.length_append, List.length_replicate]
  omega

end ChipEight.Numeral

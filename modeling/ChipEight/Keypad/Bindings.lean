/-
ChipEight/Keypad/Bindings.lean

Which key of a host keyboard stands for which key of the keypad.  A host key is named by
its character, and the two cases of an ASCII letter name the same key; other characters
are told apart as they are.  The usual binding puts the keypad onto the left block of a
keyboard.
-/
import ChipEight.Keypad
import Std.Data.HashMap

namespace ChipEight

/-- Host keys are hashed by the core library's rule, whatever else is imported. -/
instance hashableHostKey : Hashable Char := instHashableChar

/-- The keypad key of each bound host key, by its character with letters in lower case. -/
structure Bindings where
  table : Std.HashMap Char Key

namespace Bindings

/-- The character that both cases of a host key share. -/
def fold (host : Char) : Char := host.toLower

def empty : Bindings := ⟨∅⟩

/-- The keypad key bound to a host key. -/
def get? (b : Bindings) (host : Char) : Option Key := b.table[fold host]?

/-- Bind a host key, and give the binding it had before. -/
def bindKey (b : Bindings) (host : Char) (key : Key) : Option Key × Bindings :=
  (b.get? host, ⟨b.table.insert (fold host) key⟩)

/-- Bind a host key to the key of a number. -/
def insert (b : Bindings) (host : Char) (number : Nat) :
    Except KeyFault (Option Key × Bindings) :=
  match Key.ofNat number with
  | .ok key => .ok (b.bindKey host key)
  | .error fault => .error fault

/-- The keypad after a host key goes down or up, if that host key is bound. -/
def press? (b : Bindings) (keypad : Keypad) (host : Char) (down : Bool) : Option Keypad :=
  (b.get? host).map fun key => keypad.set key down

/-! ### The usual binding -/

/-- The rows of the keypad. -/
def keyRows : List (List Key) :=
  [[0x1, 0x2, 0x3, 0xC],
   [0x4, 0x5, 0x6, 0xD],
   [0x7, 0x8, 0x9, 0xE],
   [0xA, 0x0, 0xB, 0xF]]

/-- The rows of host keys at the same positions. -/
def hostRows : List String := ["1234", "qwer", "asdf", "zxcv"]

/-- The host keys with their keypad keys, position by position. -/
def usualPairs : List (Char × Key) :=
  (hostRows.flatMap String.toList).zip keyRows.flatten

def usual : Bindings := ⟨Std.HashMap.ofList usualPairs⟩

/-! ### Looking up -/

theorem get?_bindKey (b : Bindings) (host other : Char) (key : Key) :
    (b.bindKey host key).2.get? other =
      if fold host = fold other then some key else b.get? other := by
  simp [bindKey, get?, Std.HashMap.getElem?_insert]

theorem get?_empty (host : Char) : empty.get? host = none := by
  simp [empty, get?]

end Bindings

end ChipEight

/-
ChipEight/Keypad.lean

The keypad: sixteen keys, numbered from zero, each held down or not.  A key is a number
below sixteen by its type; a number from outside becomes a key by `Key.ofNat`, which
refuses the others.

Main statement: `lowestDown_eq_some_iff`, the key reported to a waiting program is the
least one that is held down.
-/
import ChipEight.Numeral

namespace ChipEight

/-- The number of a key. -/
abbrev Key := Fin 16

/-- A number that is no key's. -/
structure KeyFault where
  number : Nat
  deriving DecidableEq, Repr

def KeyFault.message (fault : KeyFault) : String :=
  "There is no keypad key " ++ Numeral.hex 0 fault.number ++ "."

/-- The key of a number. -/
def Key.ofNat (number : Nat) : Except KeyFault Key :=
  if h : number < 16 then .ok ⟨number, h⟩ else .error ⟨number⟩

/-- Which keys are held down. -/
structure Keypad where
  keys : Vector Bool 16
  deriving DecidableEq

namespace Keypad

/-- The keypad with no key held down. -/
def idle : Keypad := ⟨Vector.replicate 16 false⟩

/-- Let go of every key. -/
def release (k : Keypad) : Keypad := ⟨k.keys.map fun _ => false⟩

/-- The keypad with these keys held down, if there are sixteen of them. -/
def ofList? (keys : List Bool) : Option Keypad :=
  if h : keys.length = 16 then some ⟨⟨keys.toArray, h⟩⟩ else none

def isDown (k : Keypad) (key : Key) : Bool := k.keys[key]

/-- Press a key or let go of it. -/
def set (k : Keypad) (key : Key) (down : Bool) : Keypad := ⟨k.keys.set key down⟩

/-- Press a key if it is up, and let go of it if it is down. -/
def toggle (k : Keypad) (key : Key) : Keypad := k.set key (!k.isDown key)

def lowestDown (k : Keypad) : Option Key := (List.finRange 16).find? k.isDown

/-! ### One key at a time -/

theorem isDown_set (k : Keypad) (key other : Key) (down : Bool) :
    (k.set key down).isDown other = if key = other then down else k.isDown other := by
  simp [set, isDown, Vector.getElem_set, Fin.ext_iff]

theorem release_eq_idle (k : Keypad) : k.release = idle := by
  simp only [release, idle, mk.injEq]
  ext i h
  simp

/-- The key reported is held down, and none below it is. -/
theorem lowestDown_eq_some_iff {k : Keypad} {key : Key} :
    k.lowestDown = some key ↔ k.isDown key = true ∧ ∀ other < key, k.isDown other = false := by
  simp only [lowestDown, List.find?_eq_some_iff_getElem, List.getElem_finRange,
    List.length_finRange, Bool.not_eq_true', Fin.cast_mk]
  constructor
  · rintro ⟨hk, i, hi, rfl, hlow⟩
    exact ⟨hk, fun other ho => hlow other.val ho⟩
  · rintro ⟨hk, hlow⟩
    exact ⟨hk, key.val, key.isLt, rfl, fun j hj => hlow ⟨j, by omega⟩ hj⟩

/-- No key is reported exactly if none is held down. -/
theorem lowestDown_eq_none_iff {k : Keypad} :
    k.lowestDown = none ↔ ∀ key, k.isDown key = false := by
  simp [lowestDown]

end Keypad

end ChipEight

/-
ChipEight/Screen.lean

The screen: 64 columns and 32 rows of cells that are on or off, stored row by row from the
top left.  Columns and rows are counted beyond the edges, a position there meaning the cell
on the other side, so the screen is a torus.

A screen also knows whether it changed since the host last showed it; a new screen and a
cleared one count as changed.

Main statements: `get_flip` (a flip turns over one cell and no other) and `flip_fst` (a
flip reports that the cell was on).
-/

namespace ChipEight

/-- The cells, row by row, and whether they changed since they were last shown. -/
structure Screen where
  cells : Vector Bool 2048
  changed : Bool
  deriving DecidableEq

namespace Screen

def width : Nat := 64

def height : Nat := 32

def cellCount : Nat := width * height

/-- A screen with every cell off, not shown yet. -/
def blank : Screen := ⟨Vector.replicate 2048 false, true⟩

/-- Where the cell at a column and a row is stored; positions wrap around the edges. -/
def place (x y : Nat) : Fin 2048 :=
  ⟨y % 32 * 64 + x % 64, by omega⟩

/-- Whether the cell at a column and a row is on. -/
def get (s : Screen) (x y : Nat) : Bool :=
  s.cells[place x y]

/-- Turn the cell over, and report whether it was on. -/
def flip (s : Screen) (x y : Nat) : Bool × Screen :=
  (s.get x y, ⟨s.cells.set (place x y) (!s.get x y), true⟩)

def clear (s : Screen) : Screen :=
  ⟨s.cells.map fun _ => false, true⟩

def markChanged (s : Screen) : Screen := { s with changed := true }

def markShown (s : Screen) : Screen := { s with changed := false }

/-! ### Views -/

/-- The rows from the top, each from the left. -/
def rows (s : Screen) : List (List Bool) :=
  (List.range height).map fun y => (s.cells.toList.drop (width * y)).take width

/-- The places of the cells that are on, in order. -/
def litPlaces (s : Screen) : List (Fin 2048) :=
  (List.finRange 2048).filter fun i => s.cells[i]

/-- How a cell is shown in text. -/
def cellChar (on : Bool) : Char :=
  if on then '█' else ' '

/-- A line of text for each row. -/
def text (s : Screen) : String :=
  String.join (s.rows.map fun row => String.ofList (row.map cellChar) ++ "\n")

/-! ### One cell at a time -/

/-- Two positions name the same cell exactly if they agree up to wrapping. -/
theorem place_eq_iff {x y x' y' : Nat} :
    place x y = place x' y' ↔ x % 64 = x' % 64 ∧ y % 32 = y' % 32 := by
  simp only [place, Fin.mk.injEq]
  omega

theorem flip_fst (s : Screen) (x y : Nat) : (s.flip x y).1 = s.get x y := rfl

/-- A flip turns over the cell it names and no other. -/
theorem get_flip (s : Screen) (x y x' y' : Nat) :
    (s.flip x y).2.get x' y' =
      (s.get x' y' ^^ decide (x % 64 = x' % 64 ∧ y % 32 = y' % 32)) := by
  simp only [flip, get, Fin.getElem_fin, Vector.getElem_set, ← Fin.ext_iff]
  by_cases h : place x y = place x' y'
  · have h' := place_eq_iff.1 h
    simp [h, h']
  · have h' := fun e => h (place_eq_iff.2 e)
    rw [if_neg h, decide_eq_false h', Bool.xor_false]

theorem clear_eq_blank (s : Screen) : s.clear = blank := by
  simp only [clear, blank, mk.injEq, and_true]
  ext i h
  simp

theorem get_clear (s : Screen) (x y : Nat) : s.clear.get x y = false := by
  simp [clear, get]

theorem get_blank (x y : Nat) : blank.get x y = false := by
  simp [blank, get]

end Screen

end ChipEight

/-
ChipEight/Screen/Sprite.lean

Sprites.  A sprite is a list of rows of eight cells, one byte a row, the highest bit being
the leftmost cell.  To draw it is to flip, row by row, the cells under its set bits; it
collides if one of them was on.
-/
import ChipEight.Screen

namespace ChipEight

namespace Sprite

/-- The columns of the set bits of a row. -/
def columns (row : UInt8) : List Nat :=
  (List.range 8).filter fun j => row.toNat.testBit (7 - j)

/-- The column and the row of every set bit, row by row. -/
def points (rows : List UInt8) : List (Nat × Nat) :=
  rows.zipIdx.flatMap fun (row, i) => (columns row).map fun j => (j, i)

theorem mem_columns {row : UInt8} {j : Nat} :
    j ∈ columns row ↔ j < 8 ∧ row.toNat.testBit (7 - j) = true := by
  simp [columns]

/-- The points are the set bits. -/
theorem mem_points {rows : List UInt8} {j i : Nat} :
    (j, i) ∈ points rows ↔ ∃ row, rows[i]? = some row ∧ j ∈ columns row := by
  simp only [points, List.mem_flatMap, List.mem_map, Prod.mk.injEq, Prod.exists]
  constructor
  · rintro ⟨row, i', hm, j', hj, rfl, rfl⟩
    exact ⟨row, List.mem_zipIdx_iff_getElem?.1 hm, hj⟩
  · rintro ⟨row, hr, hj⟩
    exact ⟨row, i, List.mem_zipIdx_iff_getElem?.2 hr, j, hj, rfl, rfl⟩

end Sprite

namespace Screen

/-- Flip the cells at these positions in turn, and report whether one of them was on. -/
def flipAll (s : Screen) : List (Nat × Nat) → Bool × Screen
  | [] => (false, s)
  | (x, y) :: rest =>
    let first := s.flip x y
    let others := first.2.flipAll rest
    (first.1 || others.1, others.2)

/-- Draw a sprite with its top left corner at a column and a row, and report a collision. -/
def draw (s : Screen) (x y : Nat) (rows : List UInt8) : Bool × Screen :=
  let drawn := s.flipAll ((Sprite.points rows).map fun (j, i) => (x + j, y + i))
  (drawn.1, drawn.2.markChanged)

end Screen

end ChipEight

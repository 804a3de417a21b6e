/-
ChipEight/Proofs/Drawing.lean

What a sprite does to the screen.  To draw is to flip cells one after the other, and a flip
looks at its own cell only, so what becomes of a cell is a matter of how often it is flipped:

    (s.flipAll ps).2.get x y = (s.get x y ^^ decide (Odd (the flips of that cell))).

A sprite that is no taller than the screen flips no cell twice, also where it wraps around the
edges: the eight columns of a row stay apart, and so do the rows.  Then the order of the flips
is of no account.  The cells under set bits change and no others, and the collision that is put
together flip by flip is the question whether one of those cells was on before all of them.

Main statement: `draw_exactly`, for the instruction alone and for the cycle that runs it.
-/
import ChipEight.Proofs.Footprint
import ChipEight.Proofs.Writes
import Mathlib.Algebra.Ring.Parity
import Mathlib.Data.List.Nodup

namespace ChipEight

/-! ### Flips -/

namespace Screen

variable {s : Screen} {x y : Nat} {ps : List (Nat × Nat)}

/-- The cells that some positions name, in order. -/
def places (ps : List (Nat × Nat)) : List (Fin 2048) :=
  ps.map fun p => place p.1 p.2

/-- Positions beyond the edges name the cells on the other side. -/
theorem get_wrap (s : Screen) (a b : Nat) : s.get (a % 64) (b % 32) = s.get a b := by
  have hplace : place (a % 64) (b % 32) = place a b := by
    rw [place_eq_iff]
    omega
  exact congrArg (fun i : Fin 2048 => s.cells[i]) hplace

/-- A flip turns over the cell that it names. -/
theorem get_flip_place (a b : Nat) :
    (s.flip a b).2.get x y = (s.get x y ^^ decide (place a b = place x y)) := by
  rw [get_flip]
  simp only [place_eq_iff]

/-- A cell is turned over as often as it is flipped. -/
theorem get_flipAll (s : Screen) (ps : List (Nat × Nat)) (x y : Nat) :
    (s.flipAll ps).2.get x y =
      (s.get x y ^^ decide (Odd ((places ps).count (place x y)))) := by
  induction ps generalizing s with
  | nil => simp [flipAll, places]
  | cons p rest ih =>
    obtain ⟨a, b⟩ := p
    show ((s.flip a b).2.flipAll rest).2.get x y = _
    rw [ih, get_flip_place]
    show _ = (s.get x y ^^ decide (Odd ((place a b :: places rest).count (place x y))))
    by_cases h : place a b = place x y
    · rw [h, List.count_cons_self, decide_eq_true rfl, Bool.xor_assoc]
      simp only [Nat.odd_add_one, Bool.true_xor, decide_not]
    · rw [List.count_cons_of_ne h, decide_eq_false h, Bool.xor_false]

/-- Flips of different cells do not meet: a collision is a cell that was on before all of
them. -/
theorem flipAll_fst (hnodup : (places ps).Nodup) :
    (s.flipAll ps).1 = true ↔ ∃ p ∈ ps, s.get p.1 p.2 = true := by
  induction ps generalizing s with
  | nil => simp [flipAll]
  | cons p rest ih =>
    obtain ⟨a, b⟩ := p
    obtain ⟨hnew, hrest⟩ := List.nodup_cons.1 hnodup
    -- no later flip finds what the first one has done
    have hlater : ∀ q ∈ rest, (s.flip a b).2.get q.1 q.2 = s.get q.1 q.2 := by
      intro q hq
      have hne : place a b ≠ place q.1 q.2 := fun he =>
        hnew (List.mem_map.2 ⟨q, hq, he.symm⟩)
      rw [get_flip_place, decide_eq_false hne, Bool.xor_false]
    show ((s.flip a b).1 || ((s.flip a b).2.flipAll rest).1) = true ↔ _
    rw [Bool.or_eq_true, ih hrest, flip_fst, List.exists_mem_cons_iff]
    refine or_congr_right (exists_congr fun q => and_congr_right fun hq => ?_)
    rw [hlater q hq]

/-- Flips of different cells change those cells and no others. -/
theorem get_flipAll_ne_iff (hnodup : (places ps).Nodup) :
    (s.flipAll ps).2.get x y ≠ s.get x y ↔ place x y ∈ places ps := by
  rw [get_flipAll]
  by_cases h : place x y ∈ places ps
  · rw [List.count_eq_one_of_mem hnodup h]
    simp [h]
  · rw [List.count_eq_zero_of_not_mem h]
    simp [h]

end Screen

/-! ### Sprites -/

namespace Sprite

variable {rows : List UInt8} {x y : Nat}

/-- No set bit is listed twice. -/
theorem nodup_points (rows : List UInt8) : (points rows).Nodup := by
  refine List.nodup_flatMap.2 ⟨?_, ?_⟩
  · rintro ⟨row, i⟩ -
    have hcolumns : (columns row).Nodup := List.nodup_range.filter _
    exact hcolumns.map fun j j' he => congrArg Prod.fst he
  · -- bits of different rows differ in the row
    have hnumbers : (rows.zipIdx.map Prod.snd).Nodup := by
      rw [List.zipIdx_map_snd]
      exact List.nodup_range'
    refine (List.pairwise_map.1 hnumbers).imp fun {r r'} hne => ?_
    intro p hp hp'
    obtain ⟨j, -, rfl⟩ := List.mem_map.1 hp
    obtain ⟨j', -, he⟩ := List.mem_map.1 hp'
    exact hne (congrArg Prod.snd he).symm

/-- The positions of the set bits, with the sprite at a column and a row. -/
def positions (x y : Nat) (rows : List UInt8) : List (Nat × Nat) :=
  (points rows).map fun (j, i) => (x + j, y + i)

theorem mem_positions {p : Nat × Nat} :
    p ∈ positions x y rows ↔
      ∃ i row, rows[i]? = some row ∧ ∃ j ∈ columns row, p = (x + j, y + i) := by
  simp only [positions, List.mem_map, Prod.exists, mem_points]
  constructor
  · rintro ⟨j, i, ⟨row, hrow, hj⟩, rfl⟩
    exact ⟨i, row, hrow, j, hj, rfl⟩
  · rintro ⟨i, row, hrow, j, hj, rfl⟩
    exact ⟨j, i, ⟨row, hrow, hj⟩, rfl⟩

/-- A sprite that is no taller than the screen names no cell twice. -/
theorem nodup_places_positions (h : rows.length ≤ 32) :
    (Screen.places (positions x y rows)).Nodup := by
  unfold Screen.places positions
  rw [List.map_map]
  refine (nodup_points rows).map_on ?_
  rintro ⟨j, i⟩ hp ⟨j', i'⟩ hp' he
  obtain ⟨row, hrow, hj⟩ := mem_points.1 hp
  obtain ⟨row', hrow', hj'⟩ := mem_points.1 hp'
  have hi : i < rows.length := (List.getElem?_eq_some_iff.1 hrow).1
  have hi' : i' < rows.length := (List.getElem?_eq_some_iff.1 hrow').1
  have hlt : j < 8 := (mem_columns.1 hj).1
  have hlt' : j' < 8 := (mem_columns.1 hj').1
  -- less than one turn around the screen apart, so equal cells are equal positions
  obtain ⟨hx, hy⟩ := Screen.place_eq_iff.1 he
  dsimp only at hx hy
  rw [Prod.mk.injEq]
  omega

end Sprite

/-! ### The instruction -/

namespace Machine

/-- The cell at a column and a row is under a set bit of the sprite at the index. -/
def Covers (m : Machine) (x y : Register) (height column row : Nat) : Prop :=
  ∃ i < height, ∃ byte, m.memory[m.index + i]? = some byte ∧
    ∃ j < 8, byte.toNat.testBit (7 - j) = true ∧
      column = ((m.registers.get x).toNat + j) % 64 ∧
      row = ((m.registers.get y).toNat + i) % 32

/-- The second machine is the first one with the sprite at the index drawn: the cells that it
covers are turned over and no others, the flag tells whether one of them was on, the screen is
marked, and the counter is at the next instruction.  Registers give the corner of the sprite
as they were before, the flag register included. -/
structure Draws (m : Machine) (x y : Register) (height : Nat) (n : Machine) : Prop where
  cells : ∀ column < 64, ∀ row < 32,
    n.screen.get column row ≠ m.screen.get column row ↔ m.Covers x y height column row
  lit : (∃ column row, m.Covers x y height column row ∧ m.screen.get column row = true) →
    n.registers.get flagRegister = 1
  unlit : (¬ ∃ column row, m.Covers x y height column row ∧ m.screen.get column row = true) →
    n.registers.get flagRegister = 0
  marked : n.needsRedraw = true
  registers : ∀ r ≠ flagRegister, n.registers.get r = m.registers.get r
  counter : n.counter = m.counter + 2
  rest : ∀ p ∉ [.registers, .screen, .counter, .word], m.Agree n p

variable {m : Machine} {x y : Register} {height column row : Nat}

/-- The rows of the sprite at the index. -/
def spriteRows (m : Machine) (height : Nat) : List UInt8 := m.memory.slice m.index height

/-- The positions under the set bits of the sprite at the index. -/
def spritePositions (m : Machine) (x y : Register) (height : Nat) : List (Nat × Nat) :=
  Sprite.positions (m.registers.get x).toNat (m.registers.get y).toNat (m.spriteRows height)

theorem nodup_spritePositions (h : height ≤ 32) :
    (Screen.places (m.spritePositions x y height)).Nodup := by
  refine Sprite.nodup_places_positions ?_
  rw [spriteRows, Memory.length_slice]
  exact h

/-- The rows of a sprite that ends inside the memory are bytes of the memory. -/
theorem getElem?_spriteRows (hfits : m.index + height ≤ 4096) {i : Nat} {byte : UInt8} :
    (m.spriteRows height)[i]? = some byte ↔
      i < height ∧ m.memory[m.index + i]? = some byte := by
  by_cases hi : i < height
  · have hlength : i < (m.spriteRows height).length := by
      rw [spriteRows, Memory.length_slice]
      exact hi
    have hin : m.index + i < 4096 := by omega
    rw [List.getElem?_eq_getElem hlength, Vector.getElem?_eq_getElem hin]
    simp only [spriteRows, Memory.getElem_slice, Vector.getElem?_eq_getElem hin,
      Option.getD_some, hi, true_and]
  · rw [List.getElem?_eq_none (by rw [spriteRows, Memory.length_slice]; omega)]
    exact iff_of_false nofun fun h => hi h.1

/-- The cells that are covered are those that the positions name. -/
theorem covers_iff (hfits : m.index + height ≤ 4096) :
    m.Covers x y height column row ↔
      ∃ p ∈ m.spritePositions x y height, column = p.1 % 64 ∧ row = p.2 % 32 := by
  simp only [spritePositions, Sprite.mem_positions, getElem?_spriteRows hfits,
    Sprite.mem_columns]
  constructor
  · rintro ⟨i, hi, byte, hbyte, j, hj, hbit, hcolumn, hrow⟩
    exact ⟨_, ⟨i, byte, ⟨hi, hbyte⟩, j, ⟨hj, hbit⟩, rfl⟩, hcolumn, hrow⟩
  · rintro ⟨_, ⟨i, byte, ⟨hi, hbyte⟩, j, ⟨hj, hbit⟩, rfl⟩, hcolumn, hrow⟩
    exact ⟨i, hi, byte, hbyte, j, hj, hbit, hcolumn, hrow⟩

/-- On the screen, a cell is covered exactly if its place is among those that are flipped. -/
theorem covers_iff_place_mem (hfits : m.index + height ≤ 4096) (hcolumn : column < 64)
    (hrow : row < 32) :
    m.Covers x y height column row ↔
      Screen.place column row ∈ Screen.places (m.spritePositions x y height) := by
  rw [covers_iff hfits, Screen.places, List.mem_map]
  refine exists_congr fun p => and_congr_right fun _ => ?_
  rw [Screen.place_eq_iff]
  omega

/-- A covered cell was on exactly if one of the positions found it on. -/
theorem exists_covers_lit_iff (hfits : m.index + height ≤ 4096) :
    (∃ column row, m.Covers x y height column row ∧ m.screen.get column row = true) ↔
      ∃ p ∈ m.spritePositions x y height, m.screen.get p.1 p.2 = true := by
  simp only [covers_iff hfits]
  constructor
  · rintro ⟨_, _, ⟨p, hp, rfl, rfl⟩, hlit⟩
    exact ⟨p, hp, (m.screen.get_wrap p.1 p.2).symm.trans hlit⟩
  · rintro ⟨p, hp, hlit⟩
    exact ⟨_, _, ⟨p, hp, rfl, rfl⟩, (m.screen.get_wrap p.1 p.2).trans hlit⟩

/-- Drawing the sprite at the index draws it. -/
theorem draws_drawSprite (hheight : height ≤ 32) (hfits : m.index + height ≤ 4096) :
    m.Draws x y height (m.drawSprite x y (m.spriteRows height)).settle := by
  have hnodup : (Screen.places (m.spritePositions x y height)).Nodup :=
    nodup_spritePositions hheight
  have hflag : (m.drawSprite x y (m.spriteRows height)).settle.registers.get flagRegister =
      (m.screen.flipAll (m.spritePositions x y height)).1.toUInt8 :=
    (get_put _ flagRegister flagRegister _).trans (if_pos rfl)
  refine ⟨fun column hcolumn row hrow => ?_, fun hlit => ?_, fun hunlit => ?_, rfl,
    fun r hr => get_put_of_ne hr _ _, rfl, fun p hp => ?_⟩
  · rw [covers_iff_place_mem hfits hcolumn hrow]
    exact Screen.get_flipAll_ne_iff hnodup
  · rw [exists_covers_lit_iff hfits, ← Screen.flipAll_fst hnodup] at hlit
    rw [hflag, hlit]
    rfl
  · rw [exists_covers_lit_iff hfits, ← Screen.flipAll_fst hnodup, Bool.not_eq_true] at hunlit
    rw [hflag, hunlit]
    rfl
  · have hdrawn : p ∉ [.registers, .screen] := fun h => hp (List.mem_append_left _ h)
    have hcounter : p ≠ .counter := by
      rintro rfl
      exact hp (by decide)
    exact (agree_drawSprite x y _ hdrawn).trans (agree_settle _ hcounter)

/-- A draw inside the memory does not fail. -/
theorem effect_draw (hfits : m.index + height ≤ 4096) :
    m.effect (.draw x y height) = .ok (m.drawSprite x y (m.spriteRows height)) := by
  simp only [effect, Memory.block_of_fits m.memory hfits]
  rfl

/-- **A draw draws the sprite.**  If a sprite, no taller than the screen, ends inside the
memory, then the instruction that draws it goes well, tells the host about the screen, and
leaves the machine with exactly the sprite drawn; and so does a cycle that comes upon it. -/
theorem draw_exactly (m : Machine) (x y : Register) {height : Nat} (hheight : height ≤ 32)
    (hfits : m.index + height ≤ 4096) :
    (∃ n, m.execute (.draw x y height) = (.ok .redraw, n) ∧ m.Draws x y height n) ∧
      (m.IsAt (.draw x y height) →
        ∃ n, m.cycle = (.ok .redraw, n) ∧ m.Draws x y height n) := by
  constructor
  · exact ⟨_, execute_of_effect (effect_draw hfits), draws_drawSprite hheight hfits⟩
  · rintro ⟨hm, w, hf, hi⟩
    have he := effect_draw (m := { m with word := w }) (x := x) (y := y) hfits
    have hdraws := draws_drawSprite (m := { m with word := w }) (x := x) (y := y) hheight hfits
    refine ⟨_, ?_, hdraws.cells, hdraws.lit, hdraws.unlit, hdraws.marked, hdraws.registers,
      hdraws.counter, fun p hp => ?_⟩
    · rw [cycle_of_fetch hm hf, runWord_of_effect hi he]
      rfl
    · have hword : p ≠ .word := by
        rintro rfl
        exact hp (by decide)
      exact (agree_withWord m w hword).trans (hdraws.rest p hp)

/-- The glyph of the digit 0 drawn over the lower right corner, with its column in the flag
register: it goes on at the left and at the top, and collides with the one cell that was on. -/
theorem draw_exactly_wrapped :
    let m := { ((powerOn ByteSource.zeros).put flagRegister 62).put 0 31 with
      screen := (Screen.blank.flip 0 31).2.markShown }
    5 ≤ 32 ∧ m.index + 5 ≤ 4096 ∧
      ∃ n, m.execute (.draw flagRegister 0 5) = (.ok .redraw, n) ∧
        n.registers.get flagRegister = 1 ∧ n.screen.get 62 31 = true ∧
        n.screen.get 0 31 = false ∧ n.screen.get 1 0 = true := by
  intro m
  have hheight : 5 ≤ 32 := by decide
  have hfits : m.index + 5 ≤ 4096 := by decide
  obtain ⟨⟨n, hn, hdraws⟩, -⟩ := draw_exactly m flagRegister 0 hheight hfits
  have hbefore : m.screen.get 62 31 = false ∧ m.screen.get 0 31 = true ∧
      m.screen.get 1 0 = false := by
    decide +kernel
  have hfirst : m.Covers flagRegister 0 5 62 31 :=
    ⟨0, by decide, 0xF0, by decide +kernel, 0, by decide +kernel⟩
  have hleft : m.Covers flagRegister 0 5 0 31 :=
    ⟨0, by decide, 0xF0, by decide +kernel, 2, by decide +kernel⟩
  have htop : m.Covers flagRegister 0 5 1 0 :=
    ⟨1, by decide, 0x90, by decide +kernel, 3, by decide +kernel⟩
  have hchanged := fun column hcolumn row hrow => (hdraws.cells column hcolumn row hrow).2
  have h₁ := hchanged 62 (by decide) 31 (by decide) hfirst
  have h₂ := hchanged 0 (by decide) 31 (by decide) hleft
  have h₃ := hchanged 1 (by decide) 0 (by decide) htop
  rw [hbefore.1, ne_eq, Bool.not_eq_false] at h₁
  rw [hbefore.2.1, ne_eq, Bool.not_eq_true] at h₂
  rw [hbefore.2.2, ne_eq, Bool.not_eq_false] at h₃
  exact ⟨hheight, hfits, n, hn, hdraws.lit ⟨0, 31, hleft, hbefore.2.1⟩, h₁, h₂, h₃⟩

end Machine

end ChipEight

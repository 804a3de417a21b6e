/-
ChipEight/Proofs/Overlay.lean

Several sprites drawn over each other.  A draw flips the cells under the set bits of its sprite
and looks at no other, so a run of draws is one list of flips:

    m.ServesAll qs n  →  n.screen.get x y = (m.screen.get x y ^^ decide (Odd (flips of the cell))).

In a count the order is of no account, and a request that is there twice adds an even number.
So the requests can be served in any order, and two equal ones can be left out wherever they
stand.

What a request asks for is put into the index and two registers before each draw; how that is
done, and what else happens to the machine, is left open, as long as it touches neither the
memory nor the cells.  The registers may be any two, the flag register included.

The flag tells the two draws of a pair apart: the first one finds the covered cells that are on,
the second one those that the first has turned on, and each covered cell is one or the other.

Main statement: `draws_commute_and_cancel`.
-/
import ChipEight.Proofs.Drawing
import ChipEight.Proofs.Executions

namespace ChipEight

/-! ### Parity -/

namespace Screen

/-- Cells that are read alike at all positions are the same. -/
theorem cells_eq_of_get {s t : Screen} (h : ∀ x y, s.get x y = t.get x y) :
    s.cells = t.cells := by
  apply Vector.ext
  intro i hi
  have hplace : place (i % 64) (i / 64) = ⟨i, hi⟩ := by
    apply Fin.ext
    show i / 64 % 32 * 64 + i % 64 % 64 = i
    omega
  have hcell : s.cells.get (place (i % 64) (i / 64)) = t.cells.get (place (i % 64) (i / 64)) :=
    h _ _
  rw [hplace] at hcell
  exact hcell

/-- A cell that is flipped so often, and then so often again. -/
theorem decide_odd_add (a b : Nat) :
    decide (Odd (a + b)) = (decide (Odd a) ^^ decide (Odd b)) := by
  by_cases ha : Odd a <;> by_cases hb : Odd b <;> simp [Nat.odd_add, ← Nat.not_odd_iff_even, ha, hb]

end Screen

/-! ### Requests -/

/-- A sprite to be drawn: where its rows are in memory and how many, and the bytes that tell the
column and the row of its corner, not wrapped yet.  Its rows end inside the memory. -/
structure DrawRequest where
  address : Nat
  height : Nat
  column : UInt8
  row : UInt8
  height_le : height ≤ 15
  fits : address + height ≤ 4096

namespace DrawRequest

/-- The positions under the set bits of the sprite. -/
def positions (q : DrawRequest) (memory : Memory) : List (Nat × Nat) :=
  Sprite.positions q.column.toNat q.row.toNat (memory.slice q.address q.height)

/-- The cells that some requests flip, one request after the other. -/
def flips (memory : Memory) (qs : List DrawRequest) : List (Fin 2048) :=
  qs.flatMap fun q => Screen.places (q.positions memory)

/-- The cell at a column and a row is under a set bit of the sprite. -/
def Covers (q : DrawRequest) (memory : Memory) (column row : Nat) : Prop :=
  ∃ i < q.height, ∃ byte, memory[q.address + i]? = some byte ∧
    ∃ j < 8, byte.toNat.testBit (7 - j) = true ∧
      column = (q.column.toNat + j) % 64 ∧ row = (q.row.toNat + i) % 32

/-- The sprite has a set bit. -/
def HasSetBit (q : DrawRequest) (memory : Memory) : Prop :=
  ∃ i < q.height, ∃ byte, memory[q.address + i]? = some byte ∧
    ∃ j < 8, byte.toNat.testBit (7 - j) = true

variable {q : DrawRequest} {memory : Memory} {column row : Nat}

/-- Covered cells are on the screen. -/
theorem Covers.bounds (h : q.Covers memory column row) : column < 64 ∧ row < 32 := by
  obtain ⟨i, -, byte, -, j, -, -, rfl, rfl⟩ := h
  exact ⟨Nat.mod_lt _ (by decide), Nat.mod_lt _ (by decide)⟩

/-- A sprite covers something exactly if it has a set bit. -/
theorem exists_covers_iff : (∃ column row, q.Covers memory column row) ↔ q.HasSetBit memory := by
  constructor
  · rintro ⟨column, row, i, hi, byte, hbyte, j, hj, hbit, -, -⟩
    exact ⟨i, hi, byte, hbyte, j, hj, hbit⟩
  · rintro ⟨i, hi, byte, hbyte, j, hj, hbit⟩
    exact ⟨_, _, i, hi, byte, hbyte, j, hj, hbit, rfl, rfl⟩

end DrawRequest

namespace Machine

/-- The two machines have the same memory and the same cells. -/
def SamePicture (m n : Machine) : Prop :=
  n.memory = m.memory ∧ n.screen.cells = m.screen.cells

/-- The machine draws what is requested and becomes `n`: its index and two of its registers hold
what the request says, and it does the instruction that draws. -/
def Serves (m : Machine) (q : DrawRequest) (n : Machine) : Prop :=
  m.index = q.address ∧ ∃ x y, m.registers.get x = q.column ∧ m.registers.get y = q.row ∧
    m.Does (.draw x y q.height) n

/-- The machine draws what some requests say, one after the other, and becomes `n`.  Before each
draw and at the end anything may happen to it that leaves the memory and the cells alone. -/
inductive ServesAll : Machine → List DrawRequest → Machine → Prop
  | none {m n : Machine} (h : m.SamePicture n) : ServesAll m [] n
  | next {m k l n : Machine} {q : DrawRequest} {qs : List DrawRequest} (h : m.SamePicture k)
      (hq : k.Serves q l) (hqs : ServesAll l qs n) : ServesAll m (q :: qs) n

variable {m n k l : Machine} {q : DrawRequest} {qs qs' : List DrawRequest}

theorem SamePicture.refl (m : Machine) : m.SamePicture m := ⟨rfl, rfl⟩

theorem SamePicture.get (h : m.SamePicture n) (x y : Nat) :
    n.screen.get x y = m.screen.get x y := by
  unfold Screen.get
  rw [h.2]

/-! ### One request -/

/-- What a request covers is what the sprite at the index covers, if the machine holds what the
request says. -/
theorem covers_iff_of_request {x y : Register} (hindex : m.index = q.address)
    (hx : m.registers.get x = q.column) (hy : m.registers.get y = q.row) (column row : Nat) :
    m.Covers x y q.height column row ↔ q.Covers m.memory column row := by
  unfold Machine.Covers DrawRequest.Covers
  rw [hindex, hx, hy]

/-- Whoever serves a request draws its sprite. -/
theorem Serves.draws (h : m.Serves q n) :
    ∃ x y w, n = ({ m with word := w }.drawSprite x y (m.spriteRows q.height)).settle ∧
      m.spritePositions x y q.height = q.positions m.memory ∧
      { m with word := w }.Draws x y q.height n ∧
      ∀ column row, m.Covers x y q.height column row ↔ q.Covers m.memory column row := by
  obtain ⟨hindex, x, y, hx, hy, hdoes⟩ := h
  obtain ⟨w, e, he, rfl⟩ := hdoes.effect
  have hheight : q.height ≤ 32 := Nat.le_trans q.height_le (by decide)
  have hfits : m.index + q.height ≤ 4096 := hindex ▸ q.fits
  rw [effect_draw (m := { m with word := w }) hfits] at he
  cases he
  refine ⟨x, y, w, rfl, ?_, draws_drawSprite hheight hfits, covers_iff_of_request hindex hx hy⟩
  rw [spritePositions, spriteRows, hx, hy, hindex]
  rfl

theorem Serves.memory (h : m.Serves q n) : n.memory = m.memory := by
  obtain ⟨-, x, y, -, -, hdoes⟩ := h
  exact hdoes.agree (p := .memory) (by decide) (by simp [Instruction.changes])

/-- Serving a request turns a cell over as often as the request flips it. -/
theorem Serves.get (h : m.Serves q n) (x y : Nat) :
    n.screen.get x y =
      (m.screen.get x y ^^
        decide (Odd ((Screen.places (q.positions m.memory)).count (Screen.place x y)))) := by
  obtain ⟨vx, vy, w, rfl, hpositions, -, -⟩ := h.draws
  rw [← hpositions]
  exact Screen.get_flipAll m.screen (m.spritePositions vx vy q.height) x y

/-- Serving a request turns the cells over that it covers, and no others. -/
theorem Serves.get_ne_iff (h : m.Serves q n) {column row : Nat} (hcolumn : column < 64)
    (hrow : row < 32) :
    n.screen.get column row ≠ m.screen.get column row ↔ q.Covers m.memory column row := by
  obtain ⟨x, y, w, -, -, hdraws, hcovers⟩ := h.draws
  rw [← hcovers]
  exact hdraws.cells column hcolumn row hrow

/-- The flag tells whether a covered cell was on. -/
theorem Serves.flag_iff (h : m.Serves q n) :
    n.registers.get flagRegister = 1 ↔
      ∃ column row, q.Covers m.memory column row ∧ m.screen.get column row = true := by
  obtain ⟨x, y, w, -, -, hdraws, hcovers⟩ := h.draws
  simp only [← hcovers]
  refine ⟨fun hflag => Classical.byContradiction fun hnone => ?_, hdraws.lit⟩
  rw [hdraws.unlit hnone] at hflag
  cases hflag

/-- Every request can be served: the index and two registers are set, and the instruction that
draws is handed in. -/
theorem exists_serves (m : Machine) (q : DrawRequest) :
    ∃ k l, m.SamePicture k ∧ k.Serves q l := by
  let k : Machine := { (m.put 0 q.column).put 1 q.row with index := q.address }
  have hx : k.registers.get 0 = q.column := by
    show ((m.put 0 q.column).put 1 q.row).registers.get 0 = q.column
    rw [get_put_of_ne (by decide), get_put_self]
  have hy : k.registers.get 1 = q.row := get_put_self _ 1 q.row
  have he : k.effect (.draw 0 1 q.height) = .ok (k.drawSprite 0 1 (k.spriteRows q.height)) :=
    effect_draw q.fits
  exact ⟨k, _, ⟨rfl, rfl⟩, rfl, 0, 1, hx, hy, .inl ⟨_, execute_of_effect he⟩⟩

/-! ### Many requests -/

theorem exists_servesAll (m : Machine) (qs : List DrawRequest) : ∃ n, m.ServesAll qs n := by
  induction qs generalizing m with
  | nil => exact ⟨m, .none (.refl m)⟩
  | cons q rest ih =>
    obtain ⟨k, l, hk, hq⟩ := m.exists_serves q
    obtain ⟨n, hn⟩ := ih l
    exact ⟨n, .next hk hq hn⟩

/-- Serving requests turns a cell over as often as all of them together flip it. -/
theorem ServesAll.get (h : m.ServesAll qs n) (x y : Nat) :
    n.screen.get x y =
      (m.screen.get x y ^^
        decide (Odd ((DrawRequest.flips m.memory qs).count (Screen.place x y)))) := by
  induction h with
  | none h =>
    rw [h.get]
    simp [DrawRequest.flips]
  | @next m k l n q qs h hq hqs ih =>
    have hmemory : l.memory = m.memory := hq.memory.trans h.1
    rw [ih, hq.get, h.get, hmemory, h.1, Bool.xor_assoc, ← Screen.decide_odd_add,
      ← List.count_append]
    rfl

/-- Requests that flip every cell equally often, up to an even number, lead to the same cells. -/
theorem ServesAll.cells_eq {n' : Machine} (h : m.ServesAll qs n) (h' : m.ServesAll qs' n')
    (hparity : ∀ place, (DrawRequest.flips m.memory qs').count place % 2 =
      (DrawRequest.flips m.memory qs).count place % 2) :
    n'.screen.cells = n.screen.cells := by
  apply Screen.cells_eq_of_get
  intro x y
  rw [h.get, h'.get]
  simp only [Nat.odd_iff, hparity]

/-- A request that is served twice in a row, with the memory and the cells left alone in
between: the second draw meets exactly the cells that the first one has turned on. -/
theorem Serves.flag_again_iff (h : m.Serves q n) (hk : n.SamePicture k) (hl : k.Serves q l) :
    l.registers.get flagRegister = 1 ↔
      ∃ column row, q.Covers m.memory column row ∧ m.screen.get column row = false := by
  rw [hl.flag_iff, hk.1, h.memory]
  refine exists_congr fun column => exists_congr fun row => and_congr_right fun hcovers => ?_
  obtain ⟨hcolumn, hrow⟩ := hcovers.bounds
  have hturned := (h.get_ne_iff hcolumn hrow).2 hcovers
  rw [hk.get]
  revert hturned
  cases n.screen.get column row <;> cases m.screen.get column row <;> simp

/-- **Draws commute and cancel.**  Any requests can be served, and the cells in the end are the
same in whatever order that is done, and the same without two requests that are equal.  If one
request is served twice in a row, then the second flag tells whether the first draw turned a cell
on, and one of the two flags is set exactly if the sprite has a set bit. -/
theorem draws_commute_and_cancel (m : Machine) :
    (∀ qs, ∃ n, m.ServesAll qs n) ∧
    (∀ qs qs' n n', m.ServesAll qs n → m.ServesAll qs' n' → qs.Perm qs' →
      n'.screen.cells = n.screen.cells) ∧
    (∀ q before between behind n n', m.ServesAll (before ++ q :: (between ++ q :: behind)) n →
      m.ServesAll (before ++ (between ++ behind)) n' → n'.screen.cells = n.screen.cells) ∧
    ∀ q n k l, m.Serves q n → n.SamePicture k → k.Serves q l →
      (l.registers.get flagRegister = 1 ↔ ∃ column < 64, ∃ row < 32,
        m.screen.get column row = false ∧ n.screen.get column row = true) ∧
      (n.registers.get flagRegister = 1 ∨ l.registers.get flagRegister = 1 ↔
        q.HasSetBit m.memory) := by
  refine ⟨m.exists_servesAll, fun qs qs' n n' h h' hperm => ?_,
    fun q before between behind n n' h h' => ?_, fun q n k l h hk hl => ⟨?_, ?_⟩⟩
  · have hflips : (DrawRequest.flips m.memory qs).Perm (DrawRequest.flips m.memory qs') :=
      hperm.flatMap_right _
    exact h.cells_eq h' fun place => by rw [hflips.count_eq]
  · apply h.cells_eq h'
    intro place
    simp only [DrawRequest.flips, List.flatMap_append, List.flatMap_cons, List.count_append]
    omega
  · rw [h.flag_again_iff hk hl]
    constructor
    · rintro ⟨column, row, hcovers, hoff⟩
      obtain ⟨hcolumn, hrow⟩ := hcovers.bounds
      have hturned := (h.get_ne_iff hcolumn hrow).2 hcovers
      rw [hoff, ne_eq, Bool.not_eq_false] at hturned
      exact ⟨column, hcolumn, row, hrow, hoff, hturned⟩
    · rintro ⟨column, hcolumn, row, hrow, hoff, hon⟩
      refine ⟨column, row, (h.get_ne_iff hcolumn hrow).1 ?_, hoff⟩
      rw [hoff, hon]
      decide
  · rw [h.flag_iff, h.flag_again_iff hk hl, ← DrawRequest.exists_covers_iff]
    constructor
    · rintro (⟨column, row, hcovers, -⟩ | ⟨column, row, hcovers, -⟩) <;>
        exact ⟨column, row, hcovers⟩
    · rintro ⟨column, row, hcovers⟩
      rcases hcell : m.screen.get column row with - | -
      · exact .inr ⟨column, row, hcovers, hcell⟩
      · exact .inl ⟨column, row, hcovers, hcell⟩

/-- Two glyphs that overlap beyond the lower right corner: the first one drawn twice, around the
second, leaves the second; and drawn twice in a row it collides with itself. -/
theorem draws_commute_and_cancel_glyphs :
    let zero : DrawRequest := ⟨0, 5, 62, 31, by decide, by decide⟩
    let one : DrawRequest := ⟨5, 5, 61, 30, by decide, by decide⟩
    let m := { (powerOn ByteSource.zeros).put 0 62 with index := 0 }.put 1 31
    (∃ n n', m.ServesAll [zero, one] n ∧ m.ServesAll [one, zero] n' ∧
      n'.screen.cells = n.screen.cells) ∧
    (∃ n n', m.ServesAll [zero, one, zero] n ∧ m.ServesAll [one] n' ∧
      n'.screen.cells = n.screen.cells) ∧
    ∃ n l, m.Serves zero n ∧ n.Serves zero l ∧ n.registers.get flagRegister = 0 ∧
      l.registers.get flagRegister = 1 := by
  intro zero one m
  obtain ⟨hall, hcommute, hcancel, htwice⟩ := draws_commute_and_cancel m
  refine ⟨?_, ?_, ?_⟩
  · obtain ⟨n, hn⟩ := hall [zero, one]
    obtain ⟨n', hn'⟩ := hall [one, zero]
    exact ⟨n, n', hn, hn', hcommute _ _ n n' hn hn' (.swap one zero [])⟩
  · obtain ⟨n, hn⟩ := hall [zero, one, zero]
    obtain ⟨n', hn'⟩ := hall [one]
    exact ⟨n, n', hn, hn', hcancel zero [] [one] [] n n' hn hn'⟩
  · have he : m.effect (.draw 0 1 5) = .ok (m.drawSprite 0 1 (m.spriteRows 5)) :=
      effect_draw (by decide)
    let n := (m.drawSprite 0 1 (m.spriteRows 5)).settle
    have hn : m.Serves zero n := ⟨rfl, 0, 1, by decide +kernel, by decide +kernel,
      .inl ⟨_, execute_of_effect he⟩⟩
    have he' : n.effect (.draw 0 1 5) = .ok (n.drawSprite 0 1 (n.spriteRows 5)) :=
      effect_draw (by decide +kernel)
    let l := (n.drawSprite 0 1 (n.spriteRows 5)).settle
    have hl : n.Serves zero l := ⟨rfl, 0, 1, by decide +kernel, by decide +kernel,
      .inl ⟨_, execute_of_effect he'⟩⟩
    refine ⟨n, l, hn, hl, by decide +kernel, ?_⟩
    rw [(htwice zero n n l hn (.refl n) hl).1]
    exact ⟨62, by decide, 31, by decide, by decide +kernel⟩

end Machine

end ChipEight

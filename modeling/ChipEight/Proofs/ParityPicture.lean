/-
ChipEight/Proofs/ParityPicture.lean

A screen by itself, in the hands of anyone who flips its cells, clears it and takes it as shown.
What such a history leaves behind is a picture of parities on a torus: a cell is on exactly if it
was flipped an odd number of times since the screen was last cleared, where columns count modulo
64 and rows modulo 32,

    (afterAll actions).get x y  =  (flips of that cell since the last clearing) mod 2.

Each action is looked at once, at the end of the history, since a clearing forgets what comes
before it and not what comes after.

There are four ways to read the picture: the cells in a row, the rows, a cell by its position and
the text.  They agree on every screen, whatever its history; the text lets every cell be read off,
so that it tells the cells.

Main statement: `parity_in_every_view`.
-/
import ChipEight.Proofs.Overlay
import Mathlib.Data.List.DropRight

namespace ChipEight.Screen

/-! ### Histories -/

/-- What can be done to a screen from outside. -/
inductive Action where
  | flip (x y : Nat)
  | clear
  | markShown
  deriving DecidableEq

namespace Action

/-- The screen after an action. -/
def perform (s : Screen) : Action → Screen
  | .flip x y => (s.flip x y).2
  | .clear => s.clear
  | .markShown => s.markShown

/-- It flips the cell at a column and a row, both counted beyond the edges. -/
def flips (x y : Nat) : Action → Bool
  | .flip x' y' => x' % 64 = x % 64 ∧ y' % 32 = y % 32
  | .clear => false
  | .markShown => false

/-- After it there is something new to be shown. -/
def Changes : Action → Prop
  | .flip _ _ => True
  | .clear => True
  | .markShown => False

end Action

variable {s t : Screen} {x y : Nat}

/-- A new screen after some actions. -/
def afterAll (actions : List Action) : Screen :=
  actions.foldl Action.perform blank

/-- How often a cell is flipped after the last clearing, or at all if there is none. -/
def flipsSinceClear (actions : List Action) (x y : Nat) : Nat :=
  (actions.rtakeWhile (· ≠ .clear)).countP (Action.flips x y)

theorem afterAll_concat (actions : List Action) (a : Action) :
    afterAll (actions ++ [a]) = a.perform (afterAll actions) :=
  List.foldl_concat ..

theorem flipsSinceClear_clear (actions : List Action) (x y : Nat) :
    flipsSinceClear (actions ++ [.clear]) x y = 0 := by
  rw [flipsSinceClear, List.rtakeWhile_concat, if_neg (by decide)]
  rfl

theorem flipsSinceClear_concat (actions : List Action) {a : Action} (ha : a ≠ .clear)
    (x y : Nat) :
    flipsSinceClear (actions ++ [a]) x y =
      flipsSinceClear actions x y + (a.flips x y).toNat := by
  rw [flipsSinceClear, List.rtakeWhile_concat, if_pos (decide_eq_true ha), List.countP_append,
    List.countP_singleton]
  cases a.flips x y <;> rfl

/-- A flip before the clearing does not count, and one beyond the edges does. -/
example : flipsSinceClear [.flip 0 1, .clear, .flip 64 33, .markShown, .flip 0 1] 0 1 = 2 := by
  decide

/-- One more flip, or none, turns a parity over accordingly. -/
theorem toNat_xor_eq_mod {on flipped : Bool} {n : Nat} (h : on.toNat = n % 2) :
    (on ^^ flipped).toNat = (n + flipped.toNat) % 2 := by
  cases on <;> cases flipped <;> simp only [Bool.toNat_false, Bool.toNat_true, Bool.xor_false,
    Bool.xor_true, Bool.not_false, Bool.not_true] at h ⊢ <;> omega

/-- A cell is on exactly if it was flipped an odd number of times since the last clearing. -/
theorem toNat_get_afterAll (actions : List Action) (x y : Nat) :
    ((afterAll actions).get x y).toNat = flipsSinceClear actions x y % 2 := by
  induction actions using List.reverseRecOn with
  | nil =>
    show (blank.get x y).toNat = 0
    rw [get_blank]
    rfl
  | append_singleton earlier a ih =>
    rw [afterAll_concat]
    cases a with
    | flip x' y' =>
      rw [flipsSinceClear_concat earlier (a := .flip x' y') nofun]
      show (((afterAll earlier).flip x' y').2.get x y).toNat = _
      rw [get_flip]
      exact toNat_xor_eq_mod ih
    | clear =>
      rw [flipsSinceClear_clear]
      show ((afterAll earlier).clear.get x y).toNat = _
      rw [get_clear]
      rfl
    | markShown =>
      rw [flipsSinceClear_concat earlier (a := .markShown) nofun]
      exact ih

/-- The last action alone decides whether there is something new to be shown. -/
theorem changed_perform_eq_false_iff (a : Action) :
    (a.perform s).changed = false ↔ ¬ a.Changes := by
  cases a with
  | flip x y => exact iff_of_false nofun (not_not_intro trivial)
  | clear => exact iff_of_false nofun (not_not_intro trivial)
  | markShown => exact iff_of_true rfl not_false

theorem changed_afterAll_eq_false_iff (actions : List Action) :
    (afterAll actions).changed = false ↔
      ∃ earlier later, actions = earlier ++ .markShown :: later ∧
        .markShown ∉ later ∧ ∀ a ∈ later, ¬ a.Changes := by
  rcases List.eq_nil_or_concat' actions with rfl | ⟨before, last, rfl⟩
  · refine iff_of_false nofun ?_
    rintro ⟨earlier, later, h, -⟩
    exact List.append_ne_nil_of_right_ne_nil earlier (List.cons_ne_nil _ _) h.symm
  · rw [afterAll_concat, changed_perform_eq_false_iff]
    constructor
    · intro hlast
      cases last with
      | flip x y => exact absurd trivial hlast
      | clear => exact absurd trivial hlast
      | markShown => exact ⟨before, [], rfl, List.not_mem_nil, nofun⟩
    · rintro ⟨earlier, later, h, -, hlater⟩ hlast
      -- the last action is the one taken as shown, or one behind it
      have hends := congrArg List.getLast? h
      rw [List.getLast?_concat, List.getLast?_append_of_ne_nil _ (List.cons_ne_nil _ _)] at hends
      rcases List.mem_cons.1 (List.mem_of_getLast? hends.symm) with rfl | hmem
      · exact hlast
      · exact hlater last hmem hlast

/-- What a screen tells about its history: each cell the parity of its flips since the last
clearing, a flip whether that parity was odd before, and the mark whether the screen was taken as
shown with no flip and no clearing after the last time. -/
structure Records (s : Screen) (actions : List Action) : Prop where
  cell : ∀ x y, (s.get x y).toNat = flipsSinceClear actions x y % 2
  flip : ∀ x y, (s.flip x y).1 = true ↔ flipsSinceClear actions x y % 2 = 1
  changed : s.changed = false ↔ ∃ earlier later, actions = earlier ++ .markShown :: later ∧
    .markShown ∉ later ∧ ∀ a ∈ later, ¬ a.Changes

theorem records_afterAll (actions : List Action) : (afterAll actions).Records actions where
  cell := toNat_get_afterAll actions
  flip := fun x y => by
    rw [flip_fst, ← toNat_get_afterAll, Bool.toNat_eq_one]
  changed := changed_afterAll_eq_false_iff actions

/-! ### Views -/

/-- The cells one after the other, row by row. -/
theorem getElem?_cells (s : Screen) (x y : Nat) :
    s.cells[64 * (y % 32) + x % 64]? = some (s.get x y) := by
  have hplace : 64 * (y % 32) + x % 64 = place x y := by
    show _ = y % 32 * 64 + x % 64
    omega
  rw [hplace]
  exact Vector.getElem?_eq_getElem (place x y).isLt

theorem length_rows (s : Screen) : s.rows.length = 32 := by
  rw [rows, List.length_map, List.length_range]
  rfl

theorem getElem?_rows (s : Screen) (hy : y < 32) :
    s.rows[y]? = some ((s.cells.toList.drop (64 * y)).take 64) := by
  have hnumber : (List.range height)[y]? = some y := List.getElem?_range hy
  rw [rows, List.getElem?_map, hnumber]
  rfl

theorem length_of_mem_rows {row : List Bool} (h : row ∈ s.rows) : row.length = 64 := by
  obtain ⟨y, hy, rfl⟩ := List.mem_map.1 h
  have hy' : y < 32 := List.mem_range.1 hy
  rw [List.length_take, List.length_drop, Vector.length_toList]
  show min 64 (2048 - 64 * y) = 64
  omega

/-- The cells row by row. -/
theorem getElem?_getElem?_rows (s : Screen) (x y : Nat) :
    s.rows[y % 32]?.bind (·[x % 64]?) = some (s.get x y) := by
  have hx : x % 64 < 64 := Nat.mod_lt _ (by decide)
  have hy : y % 32 < 32 := Nat.mod_lt _ (by decide)
  rw [getElem?_rows s hy, Option.bind_some, List.getElem?_take_of_lt hx, List.getElem?_drop,
    Vector.getElem?_toList, getElem?_cells]

/-- The lines of the text, without their ends. -/
def lines (s : Screen) : List (List Char) :=
  s.rows.map fun row => row.map cellChar

theorem toList_text (s : Screen) : s.text.toList = s.lines.flatMap (· ++ ['\n']) := by
  rw [text, lines, String.toList_join, List.flatMap_map, List.flatMap_map]
  refine List.flatMap_congr fun row _ => ?_
  rw [String.toList_append, String.toList_ofList]
  rfl

theorem length_lines (s : Screen) : s.lines.length = 32 := by
  rw [lines, List.length_map, length_rows]

theorem length_of_mem_lines {line : List Char} (h : line ∈ s.lines) : line.length = 64 := by
  obtain ⟨row, hrow, rfl⟩ := List.mem_map.1 h
  rw [List.length_map, length_of_mem_rows hrow]

theorem getElem?_getElem?_lines (s : Screen) (hx : x < 64) (hy : y < 32) :
    s.lines[y]?.bind (·[x]?) = some (cellChar (s.get x y)) := by
  have hrow := getElem?_getElem?_rows s x y
  rw [Nat.mod_eq_of_lt hx, Nat.mod_eq_of_lt hy, getElem?_rows s hy, Option.bind_some] at hrow
  rw [lines, List.getElem?_map, getElem?_rows s hy, Option.map_some, Option.bind_some,
    List.getElem?_map, hrow]
  rfl

theorem cellChar_inj {on on' : Bool} : cellChar on = cellChar on' ↔ on = on' := by
  revert on on'
  decide

theorem newline_ne_cellChar (on : Bool) : '\n' ≠ cellChar on := by
  revert on
  decide

/-- Screens with the same lines have the same cells. -/
theorem cells_eq_of_lines_eq (h : s.lines = t.lines) : s.cells = t.cells := by
  refine cells_eq_of_get fun x y => ?_
  have hx : x % 64 < 64 := Nat.mod_lt _ (by decide)
  have hy : y % 32 < 32 := Nat.mod_lt _ (by decide)
  have hchar := getElem?_getElem?_lines s hx hy
  rw [h, getElem?_getElem?_lines t hx hy, get_wrap, get_wrap, Option.some.injEq,
    cellChar_inj] at hchar
  exact hchar.symm

/-- Lines of one length can be told from the text. -/
theorem lines_eq_of_text_eq (h : s.text = t.text) : s.lines = t.lines := by
  -- with its end each line has 65 characters, so there is one way to cut the text
  have hlengths : ∀ u : Screen,
      (u.lines.map (· ++ ['\n'])).map List.length = List.replicate 32 65 := by
    intro u
    refine List.eq_replicate_iff.2 ⟨?_, fun n hn => ?_⟩
    · rw [List.length_map, List.length_map, length_lines]
    · rw [List.map_map] at hn
      obtain ⟨line, hline, rfl⟩ := List.mem_map.1 hn
      show (line ++ ['\n']).length = 65
      rw [List.length_append, length_of_mem_lines hline, List.length_singleton]
  have hchars := congrArg String.toList h
  rw [toList_text, toList_text, List.flatMap_def, List.flatMap_def] at hchars
  have hended := List.eq_iff_flatten_eq.2 ⟨hchars, (hlengths s).trans (hlengths t).symm⟩
  exact List.map_injective_iff.2 (List.append_left_injective _) hended

/-- All that can be read off a screen is the same picture: a cell at its place, in its row and by
its position, and in the text, which has a line of 64 characters for each of the 32 rows. -/
structure ViewsAgree (s : Screen) : Prop where
  cells : ∀ x y, s.cells[64 * (y % 32) + x % 64]? = some (s.get x y)
  rows : ∀ x y, s.rows[y % 32]?.bind (·[x % 64]?) = some (s.get x y)
  text : ∃ lines : List (List Char), s.text.toList = lines.flatMap (· ++ ['\n']) ∧
    lines.length = 32 ∧ (∀ line ∈ lines, line.length = 64 ∧ '\n' ∉ line) ∧
    ∀ x < 64, ∀ y < 32,
      lines[y]?.bind (·[x]?) = some (if s.get x y then '█' else ' ')

theorem viewsAgree (s : Screen) : s.ViewsAgree where
  cells := getElem?_cells s
  rows := getElem?_getElem?_rows s
  text := by
    refine ⟨s.lines, toList_text s, length_lines s,
      fun line h => ⟨length_of_mem_lines h, fun hmem => ?_⟩,
      fun x hx y hy => getElem?_getElem?_lines s hx hy⟩
    obtain ⟨row, -, rfl⟩ := List.mem_map.1 h
    obtain ⟨on, -, he⟩ := List.mem_map.1 hmem
    exact newline_ne_cellChar on he.symm

/-- **The screen is a picture of parities, and every view of it shows that picture.**  After any
actions on a new screen, each cell is the parity of its flips since the last clearing, a flip
reports whether that parity was odd, and nothing is new exactly if the screen was taken as shown
with no flip and no clearing since.  On every screen the cells, the rows, the positions and the
text agree, and two screens have the same text exactly if they have the same cells. -/
theorem parity_in_every_view :
    (∀ actions, (afterAll actions).Records actions) ∧
    (∀ s : Screen, s.ViewsAgree) ∧
    ∀ s t : Screen, s.text = t.text ↔ s.cells = t.cells := by
  refine ⟨records_afterAll, viewsAgree, fun s t => ⟨fun h => ?_, fun h => ?_⟩⟩
  · exact cells_eq_of_lines_eq (lines_eq_of_text_eq h)
  · rw [text, text, rows, rows, h]

end ChipEight.Screen

/-
ChipEight/Proofs/DumpRows.lean

Which rows a dump shows, and what can be read back from it.  The lines are made in one pass that
remembers whether the row before was one of zeros and does not renew this where it leaves a row
out.  It leaves out rows of zeros behind rows of zeros only, so what it remembers is right all
the same, and whether a row has a line is a matter of that row and the one before it:

    text indent bytes = String.join ((shownRows bytes).map (rowLine indent bytes)).

A line tells the number of its row by the first address and the bytes of it by its end.  The rows
that have none hold zeros, so that with the length all bytes are known.

Main statements: `text_eq` and `text_inj`.
-/
import ChipEight.Memory.Dump
import ChipEight.Proofs.Numerals

namespace ChipEight.Dump

variable {indent number first count : Nat} {bytes bytes' : List UInt8} {r r' : List Char}

/-! ### Rows -/

theorem length_row (bytes : List UInt8) (number : Nat) :
    (row bytes number).length = min width (bytes.length - width * number) := by
  rw [row, List.length_take, List.length_drop]

/-- A byte is in the row of its quotient, at the place of its remainder. -/
theorem getElem?_row (bytes : List UInt8) (i : Nat) :
    (row bytes (i / width))[i % width]? = bytes[i]? := by
  rw [row, List.getElem?_take_of_lt (Nat.mod_lt i (by decide)), List.getElem?_drop,
    Nat.div_add_mod]

/-- The rows determine the bytes. -/
theorem eq_of_row_eq (h : ∀ number, row bytes number = row bytes' number) : bytes = bytes' := by
  apply List.ext_getElem?
  intro i
  rw [← getElem?_row bytes, ← getElem?_row bytes', h]

theorem eq_replicate_of_isBlank {row : List UInt8} (h : isBlank row = true) :
    row = List.replicate row.length 0 := by
  refine List.eq_replicate_of_mem fun byte hbyte => ?_
  exact eq_of_beq (List.all_eq_true.1 h byte hbyte)

/-- Rows of zeros differ in their length only. -/
theorem eq_of_isBlank {row row' : List UInt8} (h : isBlank row = true)
    (h' : isBlank row' = true) (hlen : row.length = row'.length) : row = row' := by
  rw [eq_replicate_of_isBlank h, eq_replicate_of_isBlank h', hlen]

/-! ### Which rows have a line -/

/-- A row has a line if it holds a byte other than zero, or is the first one, or comes behind
a row that holds such a byte. -/
def Shown (bytes : List UInt8) (number : Nat) : Prop :=
  isBlank (row bytes number) = false ∨ number = 0 ∨ isBlank (row bytes (number - 1)) = false

instance (bytes : List UInt8) : DecidablePred (Shown bytes) := fun _ =>
  inferInstanceAs (Decidable (_ ∨ _))

/-- The rows that have a line, in ascending order. -/
def shownRows (bytes : List UInt8) : List Nat :=
  (List.range (rowCount bytes)).filter (Shown bytes ·)

/-- The line of the row with a number. -/
def rowLine (indent : Nat) (bytes : List UInt8) (number : Nat) : String :=
  line indent (width * number) (row bytes number)

/-- The lines from a row on, if what is remembered there is right. -/
theorem lines_range' {afterBlank : Bool}
    (hafter : afterBlank = true ↔ first ≠ 0 ∧ isBlank (row bytes (first - 1)) = true) :
    lines indent bytes afterBlank (List.range' first count) =
      ((List.range' first count).filter (Shown bytes ·)).map (rowLine indent bytes) := by
  induction count generalizing first afterBlank with
  | zero => rfl
  | succ count ih =>
    rw [List.range'_succ, lines]
    by_cases hskip : (isBlank (row bytes first) && afterBlank) = true
    · obtain ⟨hblank, hbefore⟩ := Bool.and_eq_true_iff.1 hskip
      have hnot : ¬Shown bytes first := by
        obtain ⟨hfirst, hlast⟩ := hafter.1 hbefore
        rintro (hrow | hzero | hrow)
        · rw [hblank] at hrow
          cases hrow
        · exact hfirst hzero
        · rw [hlast] at hrow
          cases hrow
      -- nothing is renewed, but the row left out is one of zeros, too
      rw [if_pos hskip, List.filter_cons_of_neg (by rwa [decide_eq_true_iff]), ih]
      rw [hbefore]
      exact ⟨fun _ => ⟨Nat.succ_ne_zero first, hblank⟩, fun _ => rfl⟩
    · have hshown : Shown bytes first := by
        by_contra hnot
        rw [Shown, not_or, not_or, Bool.not_eq_false, Bool.not_eq_false] at hnot
        exact hskip (Bool.and_eq_true_iff.2 ⟨hnot.1, hafter.2 hnot.2⟩)
      rw [if_neg hskip, List.filter_cons_of_pos (by rwa [decide_eq_true_iff]), List.map_cons, ih]
      · rfl
      · exact ⟨fun h => ⟨Nat.succ_ne_zero first, h⟩, fun h => h.2⟩

/-- **A dump has the lines of the rows that are shown**, in ascending order. -/
theorem text_eq (indent : Nat) (bytes : List UInt8) :
    text indent bytes = String.join ((shownRows bytes).map (rowLine indent bytes)) := by
  rw [text, List.range_eq_range', lines_range', shownRows, List.range_eq_range']
  exact ⟨fun h => Bool.noConfusion h, fun h => absurd rfl h.1⟩

/-- Four rows, of which the last one has a single byte: the second and the third are left out. -/
example : shownRows (List.replicate 48 0 ++ [7]) = [0, 3] := by decide

/-- A row without a line holds zeros, or is past the end. -/
theorem isBlank_of_not_mem_shownRows (h : number ∉ shownRows bytes) :
    isBlank (row bytes number) = true := by
  by_cases hlt : number < rowCount bytes
  · have hnot : ¬Shown bytes number := fun hshown =>
      h (List.mem_filter.2 ⟨List.mem_range.2 hlt, decide_eq_true hshown⟩)
    rw [Shown, not_or, Bool.not_eq_false] at hnot
    exact hnot.1
  · have hnil : row bytes number = [] := by
      rw [← List.length_eq_zero_iff, length_row]
      unfold rowCount width at *
      omega
    rw [hnil]
    rfl

/-! ### Reading a line -/

theorem bytesText_eq (row : List UInt8) :
    bytesText row = Numeral.spaced (fun byte : UInt8 => Numeral.bareHex 2 byte.toNat) row :=
  rfl

/-- Dots are no bytes. -/
theorem bytesText_append_ne_dots {row : List UInt8} (h : isBlank row = false) :
    (bytesText row).toList ++ r ≠ " ...".toList ++ r' := by
  intro heq
  cases row with
  | nil => cases h
  | cons byte rest =>
    have hchars : " ...".toList = ' ' :: ['.', '.', '.'] := rfl
    rw [bytesText_eq, Numeral.toList_spaced_cons, hchars, List.cons_append, List.cons_append,
      List.append_assoc] at heq
    have hdots : Numeral.Stops (['.', '.', '.'] ++ r') := Numeral.stops_append (by decide) r'
    rw [← (List.cons_eq_cons.1 heq).2] at hdots
    exact Numeral.not_stops_bareHex _ _ _ hdots

/-- What stands behind the addresses, up to the end of the line, tells a row of known length. -/
theorem content_append_inj {row row' : List UInt8} (hlen : row.length = row'.length)
    (h : (if isBlank row then " ..." else bytesText row).toList ++ ("\n".toList ++ r) =
      (if isBlank row' then " ..." else bytesText row').toList ++ ("\n".toList ++ r')) :
    row = row' ∧ r = r' := by
  rcases hrow : isBlank row with - | - <;> rcases hrow' : isBlank row' with - | -
  all_goals
    rw [hrow, hrow'] at h
  · exact ((Numeral.legible_bareHex 2).comp UInt8.toNat_inj.1).spaced h
  · exact absurd h (bytesText_append_ne_dots hrow)
  · exact absurd h.symm (bytesText_append_ne_dots hrow')
  · exact ⟨eq_of_isBlank hrow hrow' hlen,
      List.append_cancel_left (List.append_cancel_left h)⟩

/-- A line tells the number of its row and the row. -/
theorem rowLine_append_inj {number' : Nat} (hlen : bytes.length = bytes'.length)
    (h : (rowLine indent bytes number).toList ++ r =
      (rowLine indent bytes' number').toList ++ r') :
    number = number' ∧ row bytes number = row bytes' number ∧ r = r' := by
  simp only [rowLine, line, String.toList_append, List.append_assoc] at h
  obtain ⟨hfirst, h⟩ := (Numeral.legible_hex 4).before (by decide) (List.append_cancel_left h)
  obtain rfl : number = number' := Nat.eq_of_mul_eq_mul_left (by decide) hfirst
  obtain ⟨-, h⟩ := (Numeral.legible_hex 4).before (by decide) h
  have hrow : (row bytes number).length = (row bytes' number).length := by
    rw [length_row, length_row, hlen]
  obtain ⟨heq, hr⟩ := content_append_inj hrow h
  exact ⟨rfl, heq, hr⟩

/-! ### Reading the text -/

theorem rowLine_append_ne_nil : (rowLine indent bytes number).toList ++ r ≠ [] := by
  rw [rowLine, line, String.toList_append]
  intro h
  have hline := (List.append_eq_nil_iff.1 (List.append_eq_nil_iff.1 h).1).2
  cases hline

/-- Lines tell which rows they are of, and these rows. -/
theorem rowLines_inj {shown shown' : List Nat} (hlen : bytes.length = bytes'.length)
    (h : (shown.flatMap fun k => (rowLine indent bytes k).toList) =
      shown'.flatMap fun k => (rowLine indent bytes' k).toList) :
    shown = shown' ∧ ∀ k ∈ shown, row bytes k = row bytes' k := by
  induction shown generalizing shown' with
  | nil =>
    cases shown' with
    | nil => exact ⟨rfl, fun k hk => absurd hk List.not_mem_nil⟩
    | cons k rest => exact absurd h.symm rowLine_append_ne_nil
  | cons k rest ih =>
    cases shown' with
    | nil => exact absurd h rowLine_append_ne_nil
    | cons k' rest' =>
      rw [List.flatMap_cons, List.flatMap_cons] at h
      obtain ⟨rfl, hrow, hrest⟩ := rowLine_append_inj hlen h
      obtain ⟨rfl, hrows⟩ := ih hrest
      exact ⟨rfl, List.forall_mem_cons.2 ⟨hrow, hrows⟩⟩

/-- **A dump tells the bytes**: two lists of the same length that have the same dump are
equal. -/
theorem text_inj (hlen : bytes.length = bytes'.length)
    (h : text indent bytes = text indent bytes') : bytes = bytes' := by
  rw [text_eq, text_eq] at h
  have hchars := congrArg String.toList h
  rw [String.toList_join, String.toList_join, List.flatMap_map, List.flatMap_map] at hchars
  obtain ⟨hshown, hrows⟩ := rowLines_inj hlen hchars
  apply eq_of_row_eq
  intro number
  by_cases hmem : number ∈ shownRows bytes
  · exact hrows number hmem
  · refine eq_of_isBlank (isBlank_of_not_mem_shownRows hmem)
      (isBlank_of_not_mem_shownRows (hshown ▸ hmem)) ?_
    rw [length_row, length_row, hlen]

end ChipEight.Dump

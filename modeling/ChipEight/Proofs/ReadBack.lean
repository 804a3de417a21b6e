/-
ChipEight/Proofs/ReadBack.lean

What can be read back from the text of a machine.  A listing leaves out the screen, the keypad
and the source of random bytes, and it tells all the rest:

    m.listing = n.listing  ↔  ∀ p ∉ Part.unlisted, m.Agree n p.

The listing is read line by line.  Each line ends where it is known to end, whatever comes after
it: a numeral stands before a text that does not begin with a digit, there are sixteen registers,
and the list of the calls, which may have any length, goes on to the end of its line.  The rest
of the text is the dump of 4096 bytes.

Main statement: `listing_eq_iff`.
-/
import ChipEight.Machine.Listing
import ChipEight.Proofs.DumpRows
import ChipEight.Proofs.Footprint

namespace ChipEight

/-- The parts that a listing leaves out. -/
def Part.unlisted : List Part := [screen, keypad, source]

variable {r r' : List Char}

/-- The mode and its register are told by their text, wherever that stands. -/
theorem Mode.text_append_inj {mode mode' : Mode}
    (h : mode.text.toList ++ r = mode'.text.toList ++ r') : mode = mode' ∧ r = r' := by
  cases mode with
  | running =>
    cases mode' with
    | running => exact ⟨rfl, List.append_cancel_left h⟩
    | awaitingKey y =>
      unfold text at h
      simp only [String.toList_append, List.append_assoc] at h
      have hhead : some 'R' = some 'A' := congrArg List.head? h
      cases hhead
  | awaitingKey x =>
    cases mode' with
    | running =>
      unfold text at h
      simp only [String.toList_append, List.append_assoc] at h
      have hhead : some 'A' = some 'R' := congrArg List.head? h
      cases hhead
    | awaitingKey y =>
      unfold text at h
      simp only [String.toList_append, List.append_assoc] at h
      obtain ⟨hnumber, hrest⟩ :=
        Numeral.legible_repr.before (by decide) (List.append_cancel_left h)
      exact ⟨congrArg awaitingKey hnumber, hrest⟩

namespace Machine

variable {m n : Machine}

/-! ### One line at a time -/

theorem countersLine_append_inj (h : m.countersLine.toList ++ r = n.countersLine.toList ++ r') :
    m.counter = n.counter ∧ m.index = n.index ∧ m.word = n.word ∧ r = r' := by
  unfold countersLine at h
  simp only [String.toList_append, List.append_assoc] at h
  obtain ⟨hcounter, h⟩ := (Numeral.legible_hex 4).before (by decide) (List.append_cancel_left h)
  obtain ⟨hindex, h⟩ := (Numeral.legible_hex 4).before (by decide) h
  obtain ⟨-, h⟩ := (Numeral.legible_hex 2).before (by decide) h
  obtain ⟨hword, h⟩ := ((Numeral.legible_hex 4).comp UInt16.toNat_inj.1).before (by decide) h
  exact ⟨hcounter, hindex, hword, h⟩

theorem timersLine_append_inj (h : m.timersLine.toList ++ r = n.timersLine.toList ++ r') :
    m.delay = n.delay ∧ m.sound = n.sound ∧ m.mode = n.mode ∧ r = r' := by
  unfold timersLine at h
  simp only [String.toList_append, List.append_assoc] at h
  obtain ⟨hdelay, h⟩ :=
    (Numeral.legible_repr.comp UInt8.toNat_inj.1).before (by decide) (List.append_cancel_left h)
  obtain ⟨hsound, h⟩ := (Numeral.legible_repr.comp UInt8.toNat_inj.1).before (by decide) h
  obtain ⟨hmode, h⟩ := Mode.text_append_inj h
  exact ⟨hdelay, hsound, hmode, List.append_cancel_left h⟩

theorem registerText_append_inj {number : Nat} {value value' : UInt8}
    (h : (registerText number value).toList ++ r = (registerText number value').toList ++ r') :
    value = value' ∧ r = r' := by
  simp only [registerText, String.toList_append, List.append_assoc] at h
  have hend : (if number % 8 = 7 then "\n" else " ").toList ≠ [] ∧
      Numeral.Stops (if number % 8 = 7 then "\n" else " ").toList := by
    split <;> decide
  have h := List.append_cancel_left (List.append_cancel_left (List.append_cancel_left h))
  exact ((Numeral.legible_hex 2).comp UInt8.toNat_inj.1).before hend h

/-- As many registers from one number on are told by their texts. -/
theorem registerTexts_append_inj {values values' : List UInt8} {number : Nat}
    (hlen : values.length = values'.length)
    (h : ((values.zipIdx number).flatMap fun e => (registerText e.2 e.1).toList) ++ r =
      ((values'.zipIdx number).flatMap fun e => (registerText e.2 e.1).toList) ++ r') :
    values = values' ∧ r = r' := by
  induction values generalizing values' number with
  | nil =>
    cases values' with
    | nil => exact ⟨rfl, h⟩
    | cons value' rest' => cases hlen
  | cons value rest ih =>
    cases values' with
    | nil => cases hlen
    | cons value' rest' =>
      rw [List.zipIdx_cons, List.zipIdx_cons, List.flatMap_cons, List.flatMap_cons,
        List.append_assoc, List.append_assoc] at h
      obtain ⟨rfl, htail⟩ := registerText_append_inj h
      obtain ⟨rfl, hrest⟩ := ih (Nat.succ.inj hlen) htail
      exact ⟨rfl, hrest⟩

theorem registerLines_append_inj
    (h : m.registerLines.toList ++ r = n.registerLines.toList ++ r') :
    m.registers = n.registers ∧ r = r' := by
  rw [registerLines, registerLines, String.toList_join, String.toList_join, List.flatMap_map,
    List.flatMap_map] at h
  have hlen : m.registers.toList.length = n.registers.toList.length := by
    rw [Vector.length_toList, Vector.length_toList]
  obtain ⟨hvalues, hrest⟩ := registerTexts_append_inj hlen h
  exact ⟨Vector.toList_inj.1 hvalues, hrest⟩

theorem stackLine_append_inj (h : m.stackLine.toList ++ r = n.stackLine.toList ++ r') :
    m.stack = n.stack ∧ r = r' := by
  simp only [stackLine, String.toList_append, List.append_assoc] at h
  obtain ⟨hcalls, hrest⟩ := (Numeral.legible_hex 4).spaced (List.append_cancel_left h)
  exact ⟨CallStack.eq_of_entries (List.reverse_injective hcalls), hrest⟩

/-! ### The whole text -/

/-- A listing is made of the listed parts only. -/
theorem listing_congr (h : ∀ p, p ∉ Part.unlisted → m.Agree n p) : m.listing = n.listing := by
  have hword : n.word = m.word := h .word (by decide)
  have hmemory : n.memory = m.memory := h .memory (by decide)
  have hregisters : n.registers = m.registers := h .registers (by decide)
  have hindex : n.index = m.index := h .index (by decide)
  have hcounter : n.counter = m.counter := h .counter (by decide)
  have hstack : n.stack = m.stack := h .stack (by decide)
  have hdelay : n.delay = m.delay := h .delay (by decide)
  have hsound : n.sound = m.sound := h .sound (by decide)
  have hmode : n.mode = m.mode := h .mode (by decide)
  unfold listing summary countersLine timersLine registerLines stackLine
  rw [hword, hmemory, hregisters, hindex, hcounter, hstack, hdelay, hsound, hmode]

/-- **A listing tells the machine**: two machines have the same listing exactly if they agree in
every part but the screen, the keypad and the source of random bytes. -/
theorem listing_eq_iff (m n : Machine) :
    m.listing = n.listing ↔ ∀ p, p ∉ Part.unlisted → m.Agree n p := by
  constructor
  · intro h p hp
    have h := congrArg String.toList h
    unfold listing summary at h
    simp only [String.toList_append, List.append_assoc] at h
    obtain ⟨hcounter, hindex, hword, h⟩ := countersLine_append_inj h
    obtain ⟨hdelay, hsound, hmode, h⟩ := timersLine_append_inj h
    obtain ⟨hregisters, h⟩ := registerLines_append_inj h
    obtain ⟨hstack, h⟩ := stackLine_append_inj h
    have hdump := List.append_cancel_left (List.append_cancel_left (List.append_cancel_left h))
    have hbytes : m.memory.toList = n.memory.toList := by
      refine Dump.text_inj ?_ (String.toList_inj.1 hdump)
      rw [Vector.length_toList, Vector.length_toList]
    cases p with
    | word => exact hword.symm
    | memory => exact (Vector.toList_inj.1 hbytes).symm
    | registers => exact hregisters.symm
    | index => exact hindex.symm
    | counter => exact hcounter.symm
    | stack => exact hstack.symm
    | delay => exact hdelay.symm
    | sound => exact hsound.symm
    | mode => exact hmode.symm
    | screen | keypad | source => exact absurd (by decide) hp
  · exact listing_congr

end Machine

end ChipEight

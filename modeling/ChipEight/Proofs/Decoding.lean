/-
ChipEight/Proofs/Decoding.lean

Words and instructions, one for one.  Reading a word and writing an instruction are inverse
to each other,

    ofWord? w = some i  ↔  the fields of i are in range and i.toWord = w,

so no two words are read as the same instruction and every instruction has a word.  The words
that are taken up this way are those that fit a form of the table.  Any other word is refused
as unknown and by its number, where a cycle comes upon it and where it is handed in alone, and
nothing else is refused so.

Main statement: `reading_inverts_writing`.
-/
import ChipEight.Proofs.Forms
import ChipEight.Proofs.Obstacle
import ChipEight.Session
import Mathlib.Data.Set.Function

namespace ChipEight

namespace Instruction

variable {w : Word} {i j : Instruction}

/-! ### Reading and writing -/

/-- A word is read as an instruction exactly if it is the word of that, with its fields in
range. -/
theorem ofWord?_eq_some_iff : ofWord? w = some i ↔ i.InRange ∧ i.toWord = w := by
  constructor
  · intro h
    exact ⟨inRange_of_ofWord? h, toWord_of_ofWord? h⟩
  · rintro ⟨hi, rfl⟩
    exact ofWord?_toWord hi

/-- A word is read as nothing exactly if it is the word of no instruction. -/
theorem ofWord?_eq_none_iff_ne_toWord :
    ofWord? w = none ↔ ∀ i : Instruction, i.InRange → i.toWord ≠ w := by
  rcases h : ofWord? w with - | i
  · refine iff_of_true rfl fun j hj hw => ?_
    rw [ofWord?_eq_some_iff.2 ⟨hj, hw⟩] at h
    cases h
  · obtain ⟨hi, hw⟩ := ofWord?_eq_some_iff.1 h
    exact iff_of_false nofun fun hne => hne i hi hw

/-- Instructions with their fields in range are told apart by their words. -/
theorem toWord_injOn : Set.InjOn toWord {i | i.InRange} := by
  intro i hi j hj hw
  -- both are read back from the one word
  have hread : ofWord? i.toWord = ofWord? j.toWord := congrArg ofWord? hw
  rw [ofWord?_toWord hi, ofWord?_toWord hj] at hread
  exact Option.some.inj hread

/-- The word of an instruction fits the form of that. -/
theorem fits_toWord (h : i.InRange) : i.toWord.Fits i.form :=
  fits_of_ofWord? (ofWord?_toWord h)

/-- A word that fits a form is the word of an instruction. -/
theorem exists_toWord_of_fits {form : String} (hform : form ∈ forms) (h : w.Fits form) :
    ∃ i : Instruction, i.InRange ∧ i.toWord = w := by
  obtain ⟨i, hi, -⟩ := ofWord?_of_fits hform h
  exact ⟨i, ofWord?_eq_some_iff.1 hi⟩

end Instruction

/-! ### Words that are refused -/

/-- A machine cannot run a word for want of an instruction exactly if the word has none. -/
theorem Machine.runWord_eq_unknown_iff {m : Machine} {w v : Word} :
    (m.runWord w).1 = .error (.word (.unknown v)) ↔ v = w ∧ Instruction.ofWord? w = none := by
  rcases hi : Instruction.ofWord? w with - | i
  · rw [runWord_of_unknown hi]
    simp [eq_comm]
  · refine iff_of_false ?_ nofun
    rcases he : m.effect i with fault | e
    · -- an instruction that fails has been read, so its fault is another one
      rw [runWord_of_fault hi he]
      rintro ⟨⟩
      exact obstacle?_ne_word (effect_eq_error_iff.1 he)
    · rw [runWord_of_effect hi he]
      nofun

/-- A word that is handed in alone is refused exactly if it has no instruction. -/
theorem Session.perform_executeWord_eq_unreadable_iff {s : Session} {w v : Word} :
    (s.perform (.executeWord w)).reply = .unreadable (.unknown v) ↔
      v = w ∧ Instruction.ofWord? w = none := by
  simp only [perform]
  rcases Instruction.ofWord? w with - | i
  · simp [refuse, eq_comm]
  · dsimp only
    rcases s.machine.execute i with ⟨fault | signal, after⟩ <;> simp [report, become]

/-- **Reading inverts writing.**  A word is read as an instruction exactly if the fields of
that are in range and this is its word.  Writing takes the instructions in range one for one to
the words that fit a form of the table, each to a word of its own form.  A word that no
instruction has, and no other, is refused as unknown, with the word itself as the reason, and
the refusal changes nothing. -/
theorem Instruction.reading_inverts_writing :
    (∀ w i, ofWord? w = some i ↔ i.InRange ∧ i.toWord = w) ∧
    Set.BijOn toWord {i | i.InRange} {w | ∃ form ∈ forms, w.Fits form} ∧
    (∀ i : Instruction, i.InRange → i.toWord.Fits i.form) ∧
    ∀ w v : Word,
      (∀ m : Machine, (m.runWord w).1 = .error (.word (.unknown v)) ↔
        v = w ∧ ∀ i : Instruction, i.InRange → i.toWord ≠ w) ∧
      (∀ s : Session, (s.perform (.executeWord w)).reply = .unreadable (.unknown v) ↔
        v = w ∧ ∀ i : Instruction, i.InRange → i.toWord ≠ w) ∧
      ((∀ i : Instruction, i.InRange → i.toWord ≠ w) →
        (∀ m : Machine, (m.runWord w).2 = m) ∧
        ∀ s : Session, (s.perform (.executeWord w)).session = s) := by
  have hbij : Set.BijOn toWord {i | i.InRange} {w | ∃ form ∈ forms, w.Fits form} := by
    refine ⟨fun i hi => ⟨i.form, i.form_mem_forms, fits_toWord hi⟩, toWord_injOn, ?_⟩
    rintro w ⟨form, hform, hfits⟩
    exact exists_toWord_of_fits hform hfits
  refine ⟨fun w i => ofWord?_eq_some_iff, hbij, fun i => fits_toWord, fun w v => ?_⟩
  simp only [← ofWord?_eq_none_iff_ne_toWord]
  refine ⟨fun m => Machine.runWord_eq_unknown_iff,
    fun s => Session.perform_executeWord_eq_unreadable_iff, fun hnone => ⟨fun m => ?_, fun s => ?_⟩⟩
  · rw [Machine.runWord_of_unknown hnone]
  · simp only [Session.perform, hnone]
    rfl

/-- The subroutine call `2ABC`, and a word of the family `8` with a last digit that selects
nothing. -/
example : Instruction.toWord (.call 0xABC) = 0x2ABC ∧
    Instruction.ofWord? 0x2ABC = some (.call 0xABC) ∧ Instruction.ofWord? 0x8128 = none := by
  decide

end ChipEight

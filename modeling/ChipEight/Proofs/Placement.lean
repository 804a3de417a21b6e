/-
ChipEight/Proofs/Placement.lean

From the bytes of a program to the words that a machine reads.  Placing a program writes its bytes
as they are, or nothing at all if there are too many; a word is read from any array of bytes by the
two bytes at a pointer, the high one first.  So the words of a placed program are those of its
bytes,

    word at 0x200 + 2 i  =  256 * data[2 i] + data[2 i + 1],

to the last two bytes of the memory, and words that are written out one after the other are read
back at twice their number.  A word that is not all there is refused, except where the pointer to
its second byte does not fit into 64 bits: reading crashes there.

That a program fits is asked twice, when it is made and when it is placed.  The two agree: what can
be made of some bytes, whatever file system or archive they come from, is placed by every machine.

Main statement: `placed_verbatim_or_refused`.
-/
import ChipEight.Proofs.FreshStart
import ChipEight.Storage

namespace ChipEight

/-! ### Words of bytes -/

namespace Memory

variable {bytes : Array UInt8} {pointer : Nat} {high low : UInt8}

/-- Two bytes that are there make up the word at the first of them. -/
theorem wordAt_of_getElem? (hpointer : pointer + 1 < UInt64.size)
    (hhigh : bytes[pointer]? = some high) (hlow : bytes[pointer + 1]? = some low) :
    wordAt bytes pointer = .ok (Word.ofBytes high low) := by
  obtain ⟨hin, hl⟩ := Array.getElem?_eq_some_iff.1 hlow
  obtain ⟨_, hh⟩ := Array.getElem?_eq_some_iff.1 hhigh
  rw [wordAt, if_neg (Nat.not_le.2 hpointer), dif_pos hin, hh, hl]

/-- A word is refused exactly if it is not all there. -/
theorem wordAt_eq_error_iff_of_lt {fault : Fault} (hpointer : pointer + 1 < UInt64.size) :
    wordAt bytes pointer = .error fault ↔
      bytes.size ≤ pointer + 1 ∧ fault = .word (.outside pointer bytes.size) := by
  rw [wordAt_eq_error_iff]
  constructor
  · rintro (⟨hcrash, -⟩ | ⟨-, hrefused⟩)
    · omega
    · exact hrefused
  · intro hrefused
    exact .inr ⟨hpointer, hrefused⟩

/-- Each word takes up two bytes of a list of words. -/
theorem getElem?_flatMap_bytes (words : List Word) (i j : Nat) (hj : j < 2) :
    (words.flatMap Word.bytes)[2 * i + j]? = words[i]?.bind fun w => w.bytes[j]? := by
  have hsize : ∀ w : Word, w.bytes.length = 2 := fun _ => rfl
  induction words generalizing i with
  | nil => rfl
  | cons w rest ih =>
    rw [List.flatMap_cons]
    cases i with
    | zero =>
      rw [List.getElem?_append_left (by rw [hsize]; omega), Nat.mul_zero, Nat.zero_add]
      rfl
    | succ i =>
      have hindex : 2 * (i + 1) + j - w.bytes.length = 2 * i + j := by
        rw [hsize]
        omega
      rw [List.getElem?_append_right (by rw [hsize]; omega), hindex, ih]
      rfl

/-- Words that are written out one after the other are read back. -/
theorem wordAt_flatMap_bytes (words : List Word) {i : Nat} (h : i < words.length)
    (hpointer : 2 * i + 1 < UInt64.size) :
    wordAt (words.flatMap Word.bytes).toArray (2 * i) = .ok words[i] := by
  have hbyte : ∀ j < 2,
      (words.flatMap Word.bytes).toArray[2 * i + j]? = words[i].bytes[j]? := by
    intro j hj
    rw [List.getElem?_toArray, getElem?_flatMap_bytes words i j hj, List.getElem?_eq_getElem h]
    rfl
  have hword : wordAt (words.flatMap Word.bytes).toArray (2 * i) = _ :=
    wordAt_of_getElem? hpointer (hbyte 0 (by decide)) (hbyte 1 (by decide))
  rw [hword, Word.ofBytes_bytes]

end Memory

/-! ### Programs -/

namespace Program

variable {name : String} {data : List UInt8} {program : Program}

/-- A program is made of the bytes as they are. -/
theorem data_of_make (h : make name data = .ok program) : program.data = data := by
  unfold make at h
  split at h <;> cases h
  rfl

/-- A program can be made of the bytes that there is room for and of no others. -/
theorem exists_make_iff :
    (∃ program, make name data = .ok program) ↔ data.length ≤ Memory.programRoom := by
  constructor
  · rintro ⟨program, h⟩
    rw [← data_of_make h]
    exact program.fits
  · intro h
    exact ⟨_, make_eq_ok name h⟩

/-- A program that is read is made of the bytes as they are. -/
theorem make_of_ofRead (h : ofRead name data = .ok program) : make name data = .ok program := by
  unfold ofRead at h
  rcases hmake : make name data with cause | made <;> rw [hmake] at h <;> cases h
  rfl

/-- A program that is read from a file is made of the bytes of the file. -/
theorem make_of_ofFile {files : Files} {path : String} (h : ofFile files path = .ok program) :
    ∃ data, files.read path = .ok data ∧
      make ((files.lastComponent? path).getD "") data = .ok program := by
  unfold ofFile at h
  rcases hread : files.read path with text | data <;> rw [hread] at h
  · cases h
  · exact ⟨data, rfl, make_of_ofRead h⟩

end Program

/-- A program that is taken from an archive is made of the bytes of an entry. -/
theorem Archive.make_of_program {archive : Archive} {name : String} {program : Program}
    (h : archive.program name = .ok program) :
    ∃ entry data, archive.entry name = .ok entry ∧ entry.unpack = .ok data ∧
      Program.make name data = .ok program := by
  unfold Archive.program at h
  rcases hentry : archive.entry name with fault | entry <;> rw [hentry] at h
  · cases h
  · dsimp only [bind, Except.bind] at h
    split at h
    · cases h
    · rcases hunpack : entry.unpack with fault | data <;> rw [hunpack] at h
      · cases h
      · exact ⟨entry, data, rfl, hunpack, Program.make_of_ofRead h⟩

/-! ### Placing -/

namespace Machine

variable {m n : Machine} {data : List UInt8}

/-- `m.Places data n`: the machine `n` is `m` with the bytes placed.  Nothing but the memory is
different, and there nothing outside the bytes; inside is each byte at its offset, and the words
are those of the bytes. -/
structure Places (m : Machine) (data : List UInt8) (n : Machine) : Prop where
  rest : ∀ p ≠ Part.memory, m.Agree n p
  outside : ∀ address (_ : address < 4096), address < 0x200 ∨ 0x200 + data.length ≤ address →
    n.memory[address] = m.memory[address]
  inside : ∀ i (_ : i < data.length), n.memory[0x200 + i]? = some data[i]
  words : ∀ i (_ : 2 * i + 1 < data.length), ∃ w,
    Memory.wordAt n.memory.toArray (0x200 + 2 * i) = .ok w ∧
      w.toNat = 256 * data[2 * i].toNat + data[2 * i + 1].toNat

theorem load_eq_error_iff {fault : LoadFault} :
    m.load data = .error fault ↔ 3584 < data.length ∧ fault = ⟨data.length, 3584⟩ := by
  unfold load
  split
  · rename_i hroom
    have hle : data.length ≤ 3584 := hroom
    refine iff_of_false nofun fun h => ?_
    omega
  · rename_i hroom
    have hlt : 3584 < data.length := Nat.lt_of_not_le hroom
    rw [Except.error.injEq, eq_comm]
    exact (and_iff_right hlt).symm

/-- A byte of a placed program. -/
theorem getElem?_overwrite_programStart (memory : Memory) (h : data.length ≤ 3584) {i : Nat}
    (hi : i < data.length) :
    (memory.overwrite Memory.programStart data)[0x200 + i]? = some data[i] := by
  have hin : 0x200 + i < 4096 := by omega
  have hblock : Memory.programStart ≤ 0x200 + i ∧
      0x200 + i < Memory.programStart + data.length := by
    show 0x200 ≤ 0x200 + i ∧ 0x200 + i < 0x200 + data.length
    omega
  have hoffset : 0x200 + i - Memory.programStart = i := Nat.add_sub_cancel_left ..
  rw [Vector.getElem?_eq_getElem hin, Memory.getElem_overwrite _ _ _ hin, if_pos hblock, hoffset,
    List.getElem?_eq_getElem hi, Option.getD_some]

theorem places_of_load (h : m.load data = .ok n) : m.Places data n := by
  have hroom : data.length ≤ 3584 := by
    refine Nat.le_of_not_lt fun hlt => ?_
    rw [load_eq_error_iff.2 ⟨hlt, rfl⟩] at h
    cases h
  rw [load_eq_ok hroom] at h
  cases h
  refine ⟨fun p hp => Session.agree_load (load_eq_ok hroom) hp, fun address ha hout => ?_,
    fun i => getElem?_overwrite_programStart m.memory hroom, fun i hi => ?_⟩
  · have hnot : ¬ (Memory.programStart ≤ address ∧
        address < Memory.programStart + data.length) := by
      show ¬ (0x200 ≤ address ∧ address < 0x200 + data.length)
      omega
    exact (Memory.getElem_overwrite _ _ _ ha).trans (if_neg hnot)
  · have hhigh := getElem?_overwrite_programStart m.memory hroom (i := 2 * i) (by omega)
    have hlow := getElem?_overwrite_programStart m.memory hroom hi
    have hpointer : 0x200 + 2 * i + 1 < UInt64.size := Memory.lt_size_of_lt (by omega)
    refine ⟨_, Memory.wordAt_of_getElem? hpointer ?_ ?_, Word.toNat_ofBytes _ _⟩
    · exact (Vector.getElem?_toArray ..).trans hhigh
    · exact (Vector.getElem?_toArray ..).trans hlow

end Machine

/-- The program is placed by every machine and by one that is switched on with it, and what is
placed are these bytes. -/
structure Program.Loads (program : Program) (data : List UInt8) : Prop where
  loaded : ∀ m : Machine, ∃ n, m.loadProgram program = .ok n ∧ m.Places data n
  switchedOn : ∀ source, ∃ n, Machine.withProgram source program = .ok n ∧
    (Machine.powerOn source).Places data n

/-- Every program is placed, since it fits by its type. -/
theorem Program.loads (program : Program) : program.Loads program.data := by
  have hload : ∀ m : Machine, ∃ n, m.load program.data = .ok n ∧ m.Places program.data n :=
    fun m => ⟨_, Machine.load_eq_ok program.fits,
      Machine.places_of_load (Machine.load_eq_ok program.fits)⟩
  exact ⟨hload, fun source => hload (Machine.powerOn source)⟩

theorem Program.loads_of_make {name : String} {data : List UInt8} {program : Program}
    (h : make name data = .ok program) : program.Loads data := by
  rw [← data_of_make h]
  exact program.loads

namespace Session

/-- What comes of placing bytes.  They are refused exactly if there are more than 3584 of them, and
then nothing at all is different; and otherwise they are placed. -/
structure LoadsOrRefuses (s : Session) (data : List UInt8) : Prop where
  refused : ∀ fault, s.machine.load data = .error fault ↔
    3584 < data.length ∧ fault = ⟨data.length, 3584⟩
  unchanged : ∀ fault, s.machine.load data = .error fault →
    s.perform (.load data) = ⟨.tooLong fault, [], s⟩
  placed : data.length ≤ 3584 → ∃ n, s.machine.load data = .ok n ∧
    s.perform (.load data) = ⟨.done, [], { s with machine := n }⟩ ∧ s.machine.Places data n

theorem loadsOrRefuses (s : Session) (data : List UInt8) : s.LoadsOrRefuses data where
  refused := fun _ => Machine.load_eq_error_iff
  unchanged := fun fault h => by
    simp only [perform, h]
    rfl
  placed := fun h => by
    have hload := Machine.load_eq_ok (m := s.machine) h
    exact ⟨_, hload, perform_load hload, Machine.places_of_load hload⟩

/-- **A program is placed as it is, or not at all.**  Bytes are placed if there are at most 3584 of
them, and otherwise refused with nothing changed.  As long as the pointer to its second byte fits
into 64 bits, a word cannot be read at a pointer exactly if one of its two bytes is missing, and
words that are written out are read back; behind that, reading from bytes that are there crashes.
A program can be made of exactly the bytes that can be placed; and whether it is made of bytes at
hand, read from a file or taken from an archive, it is placed by every machine, byte for byte. -/
theorem placed_verbatim_or_refused (s : Session) (data : List UInt8) (bytes : Array UInt8)
    (pointer : Nat) :
    s.LoadsOrRefuses data ∧
    (pointer + 1 < UInt64.size → ∀ fault, Memory.wordAt bytes pointer = .error fault ↔
      bytes.size ≤ pointer + 1 ∧ fault = .word (.outside pointer bytes.size)) ∧
    (UInt64.size ≤ pointer + 1 → 0 < bytes.size → Memory.wordAt bytes pointer = .error .crash) ∧
    (∀ (words : List Word) (i : Nat) (h : i < words.length), 2 * i + 1 < UInt64.size →
      Memory.wordAt (words.flatMap Word.bytes).toArray (2 * i) = .ok words[i]) ∧
    (∀ name, (∃ program, Program.make name data = .ok program) ↔ data.length ≤ 3584) ∧
    (∀ name program, Program.make name data = .ok program → program.Loads data) ∧
    (∀ (files : Files) path program, Program.ofFile files path = .ok program →
      ∃ data, files.read path = .ok data ∧ program.Loads data) ∧
    ∀ (archive : Archive) name program, archive.program name = .ok program →
      ∃ entry data, archive.entry name = .ok entry ∧ entry.unpack = .ok data ∧
        program.Loads data := by
  refine ⟨s.loadsOrRefuses data, fun hpointer _ => Memory.wordAt_eq_error_iff_of_lt hpointer,
    fun hpointer _ => Memory.wordAt_eq_error_iff.2 (.inl ⟨hpointer, rfl⟩),
    fun words _ => Memory.wordAt_flatMap_bytes words, fun _ => Program.exists_make_iff,
    fun _ _ => Program.loads_of_make, fun files path program h => ?_,
    fun archive name program h => ?_⟩
  · obtain ⟨data, hread, hmake⟩ := Program.make_of_ofFile h
    exact ⟨data, hread, Program.loads_of_make hmake⟩
  · obtain ⟨entry, data, hentry, hunpack, hmake⟩ := Archive.make_of_program h
    exact ⟨entry, data, hentry, hunpack, Program.loads_of_make hmake⟩

/-- A program that goes to the end of the memory is read there to its last word, also if it comes
from a file, and one of a byte more is refused.  Of its bytes no word can be read at the last of
them, and reading at the last pointer there is crashes. -/
theorem placed_verbatim_or_refused_at_the_end :
    let s := start (Machine.powerOn ByteSource.zeros) Pacing.usual
    let data : List UInt8 := List.replicate 3582 0 ++ [0xAB, 0xCD]
    let files : Files := ⟨fun _ => .ok data, some⟩
    (∃ n, s.machine.load data = .ok n ∧ ∃ w, Memory.wordAt n.memory.toArray 0xFFE = .ok w ∧
      w.toNat = 0xABCD) ∧
    (∃ program, Program.ofFile files "full" = .ok program ∧ program.Loads data) ∧
    s.machine.load (0 :: data) = .error ⟨3585, 3584⟩ ∧
    (∀ fault, Memory.wordAt data.toArray 3583 = .error fault ↔
      fault = .word (.outside 3583 3584)) ∧
    Memory.wordAt data.toArray (UInt64.size - 1) = .error .crash := by
  intro s data files
  have hlength : data.length = 3584 := by decide +kernel
  have hlast : data[3582]? = some 0xAB ∧ data[3583]? = some 0xCD := by decide +kernel
  obtain ⟨hload, hword, -, -, hmake, -, hfile, -⟩ :=
    placed_verbatim_or_refused s data data.toArray 3583
  obtain ⟨hlonger, -⟩ := placed_verbatim_or_refused s (0 :: data) data.toArray 3583
  obtain ⟨-, -, hcrash, -⟩ := placed_verbatim_or_refused s data data.toArray (UInt64.size - 1)
  have hsize : data.toArray.size = 3584 := hlength
  refine ⟨?_, ?_, ?_, fun fault => ?_, hcrash (by decide) (by omega)⟩
  · obtain ⟨n, hn, -, hplaced⟩ := hload.placed (by omega)
    obtain ⟨w, hw, hvalue⟩ := hplaced.words 1791 (by omega)
    refine ⟨n, hn, w, hw, ?_⟩
    rw [hvalue, (List.getElem?_eq_some_iff.1 hlast.1).2, (List.getElem?_eq_some_iff.1 hlast.2).2]
    rfl
  · obtain ⟨program, hprogram⟩ := (hmake "full").2 (by omega)
    have hread : Program.ofFile files "full" = .ok program := by
      show Program.ofRead "full" data = .ok program
      rw [Program.ofRead, hprogram]
    obtain ⟨_, ⟨⟩, hloads⟩ := hfile files "full" program hread
    exact ⟨program, hread, hloads⟩
  · refine (hlonger.refused _).2 ⟨?_, ?_⟩
    · rw [List.length_cons]
      omega
    · rw [List.length_cons, hlength]
  · rw [hword (by decide), hsize]
    exact and_iff_right (Nat.le_refl _)

/-- At the last pointer of 64 bits no byte is there, but that is not what a reader is told. -/
theorem wordAt_crashes_at_last_pointer :
    let bytes : Array UInt8 := #[0x12, 0x00]
    bytes.size ≤ (UInt64.size - 1) + 1 ∧
      Memory.wordAt bytes (UInt64.size - 1) = .error .crash ∧
      Memory.wordAt bytes (UInt64.size - 1) ≠
        .error (.word (.outside (UInt64.size - 1) bytes.size)) := by
  intro bytes
  have hcrash : Memory.wordAt bytes (UInt64.size - 1) = .error .crash :=
    Memory.wordAt_eq_error_iff.2 (.inl ⟨by decide, rfl⟩)
  refine ⟨by decide, hcrash, ?_⟩
  rw [hcrash]
  nofun

end Session

end ChipEight

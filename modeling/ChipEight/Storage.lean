/-
ChipEight/Storage.lean

Programs from files and from archives.  What is read there is up to the host: `Files` stands
for its file system and `Archive` for an archive that a reader of zip files has opened, each
by what it answers.  What becomes of the answers is told here: a file is a program called by
the last component of its path, an entry of an archive a program called by the entry's name,
and the bytes of either make a program if they fit into memory.
-/
import ChipEight.Program

namespace ChipEight

/-- A file system: the bytes at a path or the words of the refusal, and the last component
of a path, if it names a file. -/
structure Files where
  read : String → Except String (List UInt8)
  lastComponent? : String → Option String

/-- An entry of an archive: how many bytes it is said to hold, and the bytes as they are
unpacked. -/
structure ArchiveEntry where
  size : Nat
  unpack : Except ReadFault (List UInt8)

/-- An opened archive: the names in it, and the entry of a name. -/
structure Archive where
  names : List String
  entry : String → Except ReadFault ArchiveEntry

namespace Program

def ofRead (name : String) (data : List UInt8) : Except ReadFault Program :=
  match make name data with
  | .ok program => .ok program
  | .error cause => .error (.program cause)

/-- The program in the file at a path. -/
def ofFile (files : Files) (path : String) : Except ReadFault Program :=
  match files.read path with
  | .ok data => ofRead ((files.lastComponent? path).getD "") data
  | .error text => .error (.unreadable text)

end Program

/-- The most bytes that can be set aside at once. -/
def maxSpace : Nat := 0x7FFFFFFFFFFFFFFF

/-- The program in the entry of a name.  Room is made for as many bytes as the entry is said
to hold before any of them are unpacked. -/
def Archive.program (archive : Archive) (name : String) : Except ReadFault Program := do
  let entry ← archive.entry name
  if maxSpace < entry.size then throw .crash
  let data ← entry.unpack
  Program.ofRead name data

end ChipEight

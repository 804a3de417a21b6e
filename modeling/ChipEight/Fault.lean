/-
ChipEight/Fault.lean

What can go wrong, by cause, and how each cause is worded.  A fault of a cycle names its area
and quotes the cause, and the cause on its own is worded without the area.

Besides that a run can crash: a sum of addresses does not fit into 64 bits, or a register
is asked for that does not exist.  A crash is not reported to the host but breaks the run
off, so it has no wording.
-/
import ChipEight.Numeral
import ChipEight.Word

namespace ChipEight

/-! ### Causes -/

/-- Why there is no instruction to run: the word stands for none, or there is no word at the
pointer in so many bytes. -/
inductive WordFault where
  | unknown (word : Word)
  | outside (pointer size : Nat)
  deriving DecidableEq, Repr

/-- Why the call stack refuses: a call finds no room, or a return finds no caller. -/
inductive StackFault where
  | full
  | empty
  deriving DecidableEq, Repr

/-- A block of memory that is not wholly inside the memory. -/
structure AccessFault where
  address : Nat
  length : Nat
  deriving DecidableEq, Repr

/-- Why a cycle fails, or that it crashes. -/
inductive Fault where
  | word (cause : WordFault)
  | stack (cause : StackFault)
  | access (cause : AccessFault)
  | crash
  deriving DecidableEq, Repr

/-- A program of more bytes than there is room for. -/
structure LoadFault where
  size : Nat
  limit : Nat
  deriving DecidableEq, Repr

/-- Why a program cannot be read: its bytes cannot, the archive cannot be used, or the
program is too long.  The first two come with the words of whoever reads. -/
inductive ReadFault where
  | unreadable (text : String)
  | archive (text : String)
  | program (cause : LoadFault)
  | crash
  deriving DecidableEq, Repr

/-! ### Wording -/

def WordFault.message : WordFault → String
  | unknown word =>
    "An unsupported opcode was used " ++ Numeral.hex 4 word.toNat ++ "."
  | outside pointer size =>
    "Pointer location invalid there can not be an opcode at " ++ pointer.repr ++
      ", if data len is " ++ size.repr

def StackFault.message : StackFault → String
  | full => "Stack is full!"
  | empty => "Stack is empty!"

def AccessFault.message (fault : AccessFault) : String :=
  "Access of " ++ fault.length.repr ++ " bytes at " ++ Numeral.hex 4 fault.address ++
    " leaves the memory."

/-- The wording of a failed cycle: the area, and the cause in quotes. -/
def Fault.message? : Fault → Option String
  | word cause => some ("Invalid opcode state '" ++ cause.message ++ "'.")
  | stack cause => some ("Invalid stack state '" ++ cause.message ++ "'.")
  | access cause => some ("Invalid memory access '" ++ cause.message ++ "'.")
  | crash => none

def LoadFault.message (fault : LoadFault) : String :=
  "The program is " ++ fault.size.repr ++ " bytes long, but only " ++ fault.limit.repr ++
    " bytes fit into memory."

def ReadFault.message? : ReadFault → Option String
  | unreadable text => some ("Unable to read the program '" ++ text ++ "'.")
  | archive text => some ("Unable to extract the program '" ++ text ++ "'.")
  | program cause => some cause.message
  | crash => none

end ChipEight

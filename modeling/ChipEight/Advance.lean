/-
ChipEight/Advance.lean

How an instruction moves the program counter.  An instruction stays where it is, goes on
to the next one, leaves the next one out, or jumps; the first three are relative and the
last one is not, which is why a move is a value of its own and not a distance.
-/
import ChipEight.Word

namespace ChipEight

/-- A move of the program counter. -/
inductive Advance where
  | hold
  | next
  | skip
  | jump (target : Nat)
  deriving DecidableEq, Repr

namespace Advance

/-- A conditional skip: leave out the next instruction exactly if the condition holds. -/
def skipIf (condition : Bool) : Advance :=
  if condition then skip else next

/-- The bytes that a relative move covers, and the target of a jump. -/
def extent : Advance → Nat
  | hold => 0
  | next => Word.size
  | skip => 2 * Word.size
  | jump target => target

/-- The program counter after the move. -/
def apply (counter : Nat) : Advance → Nat
  | jump target => target
  | relative => counter + relative.extent

/-- The move by name, a jump with its target in decimal. -/
def text : Advance → String
  | hold => "None"
  | next => "Next"
  | skip => "Skip"
  | jump target => "Jump(" ++ target.repr ++ ")"

/-- A conditional skip is one move or the other. -/
theorem apply_skipIf (counter : Nat) (condition : Bool) :
    apply counter (skipIf condition) = if condition then counter + 4 else counter + 2 := by
  cases condition <;> rfl

end Advance

end ChipEight

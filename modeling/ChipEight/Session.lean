/-
ChipEight/Session.lean

A machine together with its host, driven by commands.  A command is anything that can be
done to the machine from outside, a frame included; each has one reply, and lists what was
asked of the host meanwhile.

A command that is refused leaves the session as it was.  A cycle or an instruction that fails
is not refused: the machine is the one it leaves.
-/
import ChipEight.Frame

namespace ChipEight

/-- What can be done to a machine from outside.  A frame may first change the keys that are
held down on the host. -/
inductive Command where
  | load (data : List UInt8)
  | loadNamed (name : String) (data : List UInt8)
  | cycle
  | cycles (count : Nat)
  | executeWord (word : Word)
  | execute (instruction : Instruction)
  | advance (move : Advance)
  | stepOver
  | reset
  | markShown
  | tick
  | setKey (number : Nat) (down : Bool)
  | toggleKey (number : Nat)
  | setKeys (keys : List Bool)
  | setSource (source : ByteSource)
  | frame (keys? : Option Keypad)

/-- What a command comes to.  A trace has the counters and signals of the cycles that went
well, and why the last one failed, if it did. -/
inductive Reply where
  | done
  | signal (signal : Signal)
  | trace (steps : List (Nat × Signal)) (fault? : Option Fault)
  | ticked (edge? : Option Tone)
  | failed (fault : Fault)
  | unreadable (fault : WordFault)
  | tooLong (fault : LoadFault)
  | noSuchKey (fault : KeyFault)
  | wrongKeyCount (count : Nat)

/-- A machine, how it is driven, and the keys held down on the host. -/
structure Session where
  machine : Machine
  pacing : Pacing
  hostKeys : Keypad

namespace Session

/-- What comes of a command: the reply, what was asked of the host in order, and the session
after it. -/
structure Outcome where
  reply : Reply
  calls : List HostCall
  session : Session

/-- A session on a machine with no keys held down on the host. -/
def start (machine : Machine) (pacing : Pacing) : Session := ⟨machine, pacing, Keypad.idle⟩

/-- The outcome in which only the machine changes. -/
def become (s : Session) (reply : Reply) (machine : Machine) : Outcome :=
  ⟨reply, [], { s with machine }⟩

/-- The outcome in which nothing changes. -/
def refuse (s : Session) (reply : Reply) : Outcome := ⟨reply, [], s⟩

/-- The outcome of a cycle or an instruction. -/
def report (s : Session) : Except Fault Signal × Machine → Outcome
  | (.ok signal, after) => s.become (.signal signal) after
  | (.error fault, after) => s.become (.failed fault) after

/-- Carry out a command. -/
def perform (s : Session) : Command → Outcome
  | .load data =>
    match s.machine.load data with
    | .ok after => s.become .done after
    | .error fault => s.refuse (.tooLong fault)
  | .loadNamed name data =>
    match Program.make name data with
    | .error fault => s.refuse (.tooLong fault)
    | .ok program =>
      match s.machine.loadProgram program with
      | .ok after => s.become .done after
      | .error fault => s.refuse (.tooLong fault)
  | .cycle => s.report s.machine.cycle
  | .cycles count =>
    let t := Machine.cycles count s.machine
    s.become (.trace t.steps t.fault?) t.machine
  | .executeWord word =>
    match Instruction.ofWord? word with
    | none => s.refuse (.unreadable (.unknown word))
    | some i => s.report (s.machine.execute i)
  | .execute i => s.report (s.machine.execute i)
  | .advance move => s.become .done (s.machine.advance move)
  | .stepOver => s.become .done s.machine.stepOver
  | .reset => s.become .done s.machine.reset
  | .markShown => s.become .done s.machine.markShown
  | .tick =>
    let ticked := s.machine.tick
    s.become (.ticked ticked.1) ticked.2
  | .setKey number down =>
    match Key.ofNat number with
    | .ok key => s.become .done { s.machine with keypad := s.machine.keypad.set key down }
    | .error fault => s.refuse (.noSuchKey fault)
  | .toggleKey number =>
    match Key.ofNat number with
    | .ok key => s.become .done { s.machine with keypad := s.machine.keypad.toggle key }
    | .error fault => s.refuse (.noSuchKey fault)
  | .setKeys keys =>
    match Keypad.ofList? keys with
    | some keypad => s.become .done { s.machine with keypad }
    | none => s.refuse (.wrongKeyCount keys.length)
  | .setSource source => s.become .done { s.machine with source }
  | .frame keys? =>
    let keys := keys?.getD s.hostKeys
    let r := Machine.frame s.pacing keys s.machine
    ⟨match r.fault? with
      | none => .done
      | some fault => .failed fault,
      r.calls, { s with machine := r.machine, hostKeys := keys }⟩

end Session

end ChipEight

/-
ChipEight/Proofs/Run.lean

Runs of a session.  `after` is the session that a list of commands leads to and `outcomes`
keeps what each command came to on the way; the latter is stated for any way to carry out
a command, so that two ways can be compared.

The commands of a run are sorted by what they touch:

* `IsPlain`: cycles, ticks, keys, the source and the mark of the screen, which leave it to
  the program where it goes;
* `IsIntrusive`: placing a program and stepping over an instruction;
* `IsProper`: what a host does that names only keys that there are, frames included;
* `Plays`: placing programs and running frames.

A command that runs no instruction has a footprint, `Command.changes`, as instructions
have (`agree_perform`).
-/
import ChipEight.Proofs.Footprint
import ChipEight.Session

namespace ChipEight

namespace Command

/-- The command leaves it to the program where it goes. -/
def IsPlain : Command → Prop
  | cycle | markShown | tick | setKey .. | toggleKey .. | setKeys _ | setSource _ => True
  | _ => False

/-- The command changes the program or where it goes. -/
def IsIntrusive : Command → Prop
  | load _ | loadNamed .. | stepOver => True
  | _ => False

/-- The command names keys that there are, and hands in no instruction and no move of its
own. -/
def IsProper : Command → Prop
  | load _ | loadNamed .. | cycle | reset | markShown | tick | setSource _ | frame _ => True
  | setKey number _ | toggleKey number => number < 16
  | setKeys keys => keys.length = 16
  | cycles _ | executeWord _ | execute _ | advance _ | stepOver => False

/-- The command places a program or runs a frame, and so plays one program after another. -/
def Plays : Command → Prop
  | load _ | loadNamed .. | frame _ => True
  | _ => False

instance : DecidablePred IsPlain := fun c => by
  cases c <;> unfold IsPlain <;> infer_instance

instance : DecidablePred IsIntrusive := fun c => by
  cases c <;> unfold IsIntrusive <;> infer_instance

instance : DecidablePred IsProper := fun c => by
  cases c <;> unfold IsProper <;> infer_instance

instance : DecidablePred Plays := fun c => by
  cases c <;> unfold Plays <;> infer_instance

/-- The parts that a command may write to; a command that runs instructions or resets the
machine may write to all. -/
def changes : Command → List Part
  | load _ | loadNamed .. => [.memory]
  | advance _ | stepOver => [.counter]
  | markShown => [.screen]
  | tick => [.delay, .sound]
  | setKey .. | toggleKey .. | setKeys _ => [.keypad]
  | setSource _ => [.source]
  | cycle | cycles _ | executeWord _ | execute _ | reset | frame _ => Part.all

end Command

namespace Session

/-- The session that some commands lead to. -/
def after (s : Session) : List Command → Session
  | [] => s
  | c :: rest => (s.perform c).session.after rest

/-- What each of some commands comes to, carried out one after the other. -/
def outcomes (step : Session → Command → Outcome) (s : Session) : List Command → List Outcome
  | [] => []
  | c :: rest => step s c :: outcomes step (step s c).session rest

variable {s : Session} {c : Command} {p : Part}

/-- Placing bytes writes to the memory. -/
theorem agree_load {m after : Machine} {data : List UInt8} (h : m.load data = .ok after)
    (hp : p ≠ .memory) : m.Agree after p := by
  unfold Machine.load at h
  split at h <;> cases h
  cases p with
  | memory => exact absurd rfl hp
  | _ => exact rfl

/-- A command leaves every part outside its footprint alone. -/
theorem agree_perform (hp : p ∉ c.changes) :
    s.machine.Agree (s.perform c).session.machine p := by
  cases c with
  | load data =>
    simp only [perform]
    rcases hl : s.machine.load data with fault | m
    · exact .refl s.machine p
    · exact agree_load hl fun hp' => hp (hp' ▸ List.mem_cons_self)
  | loadNamed name data =>
    simp only [perform]
    rcases Program.make name data with fault | program
    · exact .refl s.machine p
    · dsimp only
      rcases hl : s.machine.loadProgram program with fault | m
      · exact .refl s.machine p
      · exact agree_load hl fun hp' => hp (hp' ▸ List.mem_cons_self)
  | setKey number down | toggleKey number =>
    simp only [perform]
    rcases Key.ofNat number with fault | key
    · exact .refl s.machine p
    · cases p with
      | keypad => exact absurd List.mem_cons_self hp
      | _ => exact rfl
  | setKeys keys =>
    simp only [perform]
    rcases Keypad.ofList? keys with - | keypad
    · exact .refl s.machine p
    · cases p with
      | keypad => exact absurd List.mem_cons_self hp
      | _ => exact rfl
  | advance move | stepOver =>
    cases p with
    | counter => exact absurd List.mem_cons_self hp
    | _ => exact rfl
  | markShown =>
    cases p with
    | screen => exact absurd (by decide) hp
    | _ => exact rfl
  | tick =>
    cases p with
    | delay | sound => exact absurd (by decide) hp
    | _ => exact rfl
  | setSource source =>
    cases p with
    | source => exact absurd List.mem_cons_self hp
    | _ => exact rfl
  | cycle | cycles count | executeWord word | execute i | reset | frame keys? =>
    exact absurd p.mem_all hp

/-- The parts that the host reaches by plain commands. -/
def hostParts : List Part := [.delay, .sound, .screen, .keypad, .source]

/-- A plain command that is not a cycle leaves alone what the host does not reach. -/
theorem agree_perform_plain (hc : c.IsPlain) (hcycle : c ≠ .cycle) (hp : p ∉ hostParts) :
    s.machine.Agree (s.perform c).session.machine p := by
  have hsub : ∀ q ∈ c.changes, q ∈ hostParts := by
    cases c with
    | cycle => exact absurd rfl hcycle
    | markShown | tick | setKey number down | toggleKey number | setKeys keys
    | setSource source =>
      simp only [Command.changes]
      decide
    | _ => exact hc.elim
  exact agree_perform fun hp' => hp (hsub p hp')

/-- A command that changes the program or where it goes writes to the memory and the
counter. -/
theorem agree_perform_intrusive (hc : c.IsIntrusive) (hp : p ∉ [.memory, .counter]) :
    s.machine.Agree (s.perform c).session.machine p := by
  have hsub : ∀ q ∈ c.changes, q ∈ [Part.memory, .counter] := by
    cases c with
    | load data | loadNamed name data | stepOver =>
      simp only [Command.changes]
      decide
    | _ => exact hc.elim
  exact agree_perform fun hp' => hp (hsub p hp')

/-- A report leaves the machine that it reports. -/
theorem session_report (s : Session) (r : Except Fault Signal × Machine) :
    (s.report r).session = { s with machine := r.2 } := by
  rcases r with ⟨fault | signal, after⟩ <;> rfl

/-- A cycle by command is a cycle of the machine, with what it came to as the reply. -/
theorem perform_cycle (s : Session) :
    s.perform .cycle = s.become
      (match s.machine.cycle.1 with
        | .ok signal => .signal signal
        | .error fault => .failed fault)
      s.machine.cycle.2 := by
  rw [perform]
  rcases s.machine.cycle with ⟨fault | signal, after⟩ <;> rfl

/-- A cycle by command fails as the cycle of the machine does. -/
theorem reply_perform_cycle {fault : Fault} :
    (s.perform .cycle).reply = .failed fault ↔ s.machine.cycle.1 = .error fault := by
  rw [perform_cycle]
  rcases s.machine.cycle with ⟨fault' | signal, after⟩ <;> simp [become]

end Session

end ChipEight

/-
ChipEight/Proofs/HostView.lean

A run as its host sees it.  `hostCalls` is all that is asked of the host while commands are
carried out, one after the other; of that the beeper gets the edges, `tones`, and what hangs
on the screen is the picture that came last, `lastPicture?`.

Nothing but a frame asks anything of the host (`calls_perform`).
-/
import ChipEight.Proofs.Run

namespace ChipEight

namespace HostCall

/-- The edge that a call brings to the beeper. -/
def tone? : HostCall → Option Tone
  | tone edge => some edge
  | _ => none

/-- The screen that a call shows. -/
def picture? : HostCall → Option Screen
  | picture screen => some screen
  | _ => none

/-- The edges that some calls bring to the beeper, in order. -/
def tones (calls : List HostCall) : List Tone := calls.filterMap tone?

/-- The screens that some calls show, in order. -/
def pictures (calls : List HostCall) : List Screen := calls.filterMap picture?

/-- The screen that some calls show last. -/
def lastPicture? (calls : List HostCall) : Option Screen := (pictures calls).getLast?

theorem tones_append (calls later : List HostCall) :
    tones (calls ++ later) = tones calls ++ tones later :=
  List.filterMap_append ..

theorem pictures_append (calls later : List HostCall) :
    pictures (calls ++ later) = pictures calls ++ pictures later :=
  List.filterMap_append ..

/-- A later picture takes the place of an earlier one. -/
theorem lastPicture?_append (calls later : List HostCall) :
    lastPicture? (calls ++ later) = (lastPicture? later).or (lastPicture? calls) := by
  rw [lastPicture?, pictures_append, List.getLast?_append]
  rfl

theorem tones_map_tone (edges : List Tone) : tones (edges.map tone) = edges := by
  rw [tones, List.filterMap_map]
  exact List.filterMap_some

theorem pictures_map_tone (edges : List Tone) : pictures (edges.map tone) = [] := by
  simp [pictures, picture?, Function.comp_def]

variable (edges ends : List Tone) (m : Machine)

/-- The edges of a frame that goes well are those of its cycles and that of its tick. -/
theorem tones_of_frame :
    tones (.readKeypad :: (edges.map tone ++ m.pictureCall ++ ends.map tone)) =
      edges ++ ends := by
  have hpicture : tones m.pictureCall = [] := by
    unfold Machine.pictureCall
    split <;> rfl
  show tones (edges.map tone ++ m.pictureCall ++ ends.map tone) = edges ++ ends
  rw [tones_append, tones_append, hpicture, tones_map_tone, tones_map_tone, List.append_nil]

/-- A frame that goes well shows the screen if it is marked. -/
theorem pictures_of_frame :
    pictures (.readKeypad :: (edges.map tone ++ m.pictureCall ++ ends.map tone)) =
      if m.needsRedraw then [m.screen] else [] := by
  show pictures (edges.map tone ++ m.pictureCall ++ ends.map tone) = _
  rw [pictures_append, pictures_append, pictures_map_tone, pictures_map_tone, List.append_nil]
  unfold Machine.pictureCall
  split <;> rfl

end HostCall

namespace Session

/-- What is asked of the host while some commands are carried out, in order. -/
def hostCalls (s : Session) (cs : List Command) : List HostCall :=
  (s.outcomes perform cs).flatMap Outcome.calls

variable {s : Session} {c : Command}

theorem hostCalls_cons (s : Session) (c : Command) (rest : List Command) :
    s.hostCalls (c :: rest) = (s.perform c).calls ++ (s.perform c).session.hostCalls rest :=
  List.flatMap_cons

theorem hostCalls_append (s : Session) (cs later : List Command) :
    s.hostCalls (cs ++ later) = s.hostCalls cs ++ (s.after cs).hostCalls later := by
  induction cs generalizing s with
  | nil => rfl
  | cons c rest ih =>
    rw [List.cons_append, hostCalls_cons, hostCalls_cons, ih, List.append_assoc]
    rfl

/-- Only a frame asks anything of the host. -/
theorem calls_perform (hc : ∀ keys?, c ≠ .frame keys?) : (s.perform c).calls = [] := by
  cases c with
  | frame keys? => exact absurd rfl (hc keys?)
  | load data =>
    simp only [perform]
    rcases s.machine.load data with fault | after <;> rfl
  | loadNamed name data =>
    simp only [perform]
    rcases Program.make name data with fault | program
    · rfl
    · dsimp only
      rcases s.machine.loadProgram program with fault | after <;> rfl
  | cycle =>
    rw [perform_cycle]
    rfl
  | executeWord word =>
    simp only [perform]
    rcases Instruction.ofWord? word with - | i
    · rfl
    · dsimp only
      rcases s.machine.execute i with ⟨fault | signal, after⟩ <;> rfl
  | execute i =>
    simp only [perform]
    rcases s.machine.execute i with ⟨fault | signal, after⟩ <;> rfl
  | setKey number down | toggleKey number =>
    simp only [perform]
    rcases Key.ofNat number with fault | key <;> rfl
  | setKeys keys =>
    simp only [perform]
    rcases Keypad.ofList? keys with - | keypad <;> rfl
  | cycles count | advance move | stepOver | reset | markShown | tick | setSource source => rfl

/-- A frame goes well exactly if none of its cycles failed for good. -/
theorem reply_perform_frame_done {keys? : Option Keypad} :
    (s.perform (.frame keys?)).reply = .done ↔
      (Machine.frame s.pacing (keys?.getD s.hostKeys) s.machine).fault? = none := by
  simp only [perform]
  rcases (Machine.frame s.pacing (keys?.getD s.hostKeys) s.machine).fault? with - | fault <;> simp

theorem reply_perform_frame_failed {keys? : Option Keypad} {fault : Fault} :
    (s.perform (.frame keys?)).reply = .failed fault ↔
      (Machine.frame s.pacing (keys?.getD s.hostKeys) s.machine).fault? = some fault := by
  simp only [perform]
  rcases (Machine.frame s.pacing (keys?.getD s.hostKeys) s.machine).fault? with - | fault <;> simp

end Session

end ChipEight

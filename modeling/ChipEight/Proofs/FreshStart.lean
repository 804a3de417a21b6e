/-
ChipEight/Proofs/FreshStart.lean

A reset leaves no trace of the past.  Switching on builds every part of a machine anew, and a
reset goes through the parts of one that was in use; the two agree in every part but the source
of random bytes, which a reset keeps.  So a run behind a reset and a load is the run of a
machine that was switched on with the program in place and handed the source:

    s.outcomes perform (.reset :: .load data :: cs)
      = (the reset) :: { s with machine := fresh }.outcomes perform (.setSource source :: cs).

What is compared is every reply, every call of the host and every session on the way, with the
same host and the same pacing on both sides.

Main statement: `reset_forgets`.
-/
import ChipEight.Proofs.Run

namespace ChipEight

namespace Machine

variable {m : Machine} {p : Part}

/-- A machine after a reset is as any machine that was just switched on, but for the source. -/
theorem agree_powerOn_reset (source : ByteSource) (hp : p ≠ .source) :
    (powerOn source).Agree m.reset p := by
  rw [reset_eq_powerOn]
  cases p with
  | source => exact absurd rfl hp
  | _ => exact rfl

/-- A program that there is room for is placed. -/
theorem load_eq_ok {data : List UInt8} (h : data.length ≤ Memory.programRoom) :
    m.load data = .ok { m with memory := m.memory.overwrite Memory.programStart data } :=
  if_pos h

/-- A program that there is room for is placed in a machine as it is switched on. -/
theorem withProgram_eq_ok (source : ByteSource) (program : Program) :
    withProgram source program =
      .ok { powerOn source with
        memory := (powerOn source).memory.overwrite Memory.programStart program.data } :=
  load_eq_ok program.fits

/-- A reset and a load make the machine that was switched on with the program in place, with
the source of before. -/
theorem load_reset {program : Program} {source : ByteSource} {fresh : Machine}
    (h : withProgram source program = .ok fresh) :
    m.reset.load program.data = .ok { fresh with source := m.source } := by
  rw [withProgram_eq_ok] at h
  cases h
  rw [reset_eq_powerOn, load_eq_ok program.fits]
  rfl

end Machine

/-- A program can be made of bytes that there is room for. -/
theorem Program.make_eq_ok (name : String) {data : List UInt8}
    (h : data.length ≤ Memory.programRoom) : make name data = .ok ⟨name, data, h⟩ :=
  dif_pos h

namespace Session

variable {s : Session} {program : Program} {source : ByteSource} {fresh : Machine}

theorem perform_load {data : List UInt8} {after : Machine} (h : s.machine.load data = .ok after) :
    s.perform (.load data) = s.become .done after := by
  simp only [perform, h]

/-- Placing a program behind a reset comes to what handing over the source comes to, with a
machine that was switched on with the program. -/
theorem perform_load_reset (h : Machine.withProgram source program = .ok fresh) :
    (s.perform .reset).session.perform (.load program.data) =
      { s with machine := fresh }.perform (.setSource s.machine.source) := by
  rw [perform_load (Machine.load_reset h)]
  rfl

/-- So what follows is the same, too. -/
theorem outcomes_reset_load (h : Machine.withProgram source program = .ok fresh)
    (cs : List Command) :
    s.outcomes perform (.reset :: .load program.data :: cs) =
      s.become .done s.machine.reset ::
        { s with machine := fresh }.outcomes perform (.setSource s.machine.source :: cs) := by
  simp only [outcomes, perform_load_reset h]
  rfl

/-- **A reset leaves no trace.**  After a reset a machine agrees with any machine that was just
switched on in every part but the source of random bytes, which it keeps.  And if a program that
there is room for is placed then, everything that follows, each reply, each call of the host and
each session, is as if a machine that was switched on with this program had been put in the
place of the old one and been handed the source. -/
theorem reset_forgets (s : Session) (name : String) {data : List UInt8}
    (h : data.length ≤ 3584) :
    (∀ source, ∀ p ≠ .source, (Machine.powerOn source).Agree s.machine.reset p) ∧
      s.machine.reset.source = s.machine.source ∧
      ∃ program, Program.make name data = .ok program ∧
        ∀ source, ∃ fresh, Machine.withProgram source program = .ok fresh ∧
          ∀ cs, s.outcomes perform (.reset :: .load data :: cs) =
            s.become .done s.machine.reset ::
              { s with machine := fresh }.outcomes perform
                (.setSource s.machine.source :: cs) := by
  have hroom : data.length ≤ Memory.programRoom := h
  refine ⟨fun source p => Machine.agree_powerOn_reset source, rfl, ⟨name, data, hroom⟩,
    Program.make_eq_ok name hroom, fun source => ?_⟩
  obtain ⟨fresh, hfresh⟩ : ∃ fresh, Machine.withProgram source ⟨name, data, hroom⟩ = .ok fresh :=
    ⟨_, Machine.withProgram_eq_ok source _⟩
  exact ⟨fresh, hfresh, outcomes_reset_load hfresh⟩

/-- A machine in the middle of things: it waits for a key inside a call, its font is overwritten,
its picture is shown and its source has moved on.  After a reset it draws its random byte as a
machine would that has just been switched on and handed that source. -/
theorem reset_forgets_waiting_machine :
    let s := (start (Machine.powerOn (.counting 7 3)) Pacing.usual).after
      [.load [0xC0, 0xFF, 0xA0, 0x00, 0xF0, 0x55, 0x22, 0x08, 0xF5, 0x0A], .cycle, .cycle,
        .cycle, .cycle, .cycle, .markShown]
    let data : List UInt8 := [0xC1, 0x0F, 0xF2, 0x0A]
    s.machine.mode = .awaitingKey 5 ∧ s.machine.stack.depth = 1 ∧ s.machine.memory[0] = 7 ∧
      s.machine.needsRedraw = false ∧ s.machine.source.byte = 10 ∧ data.length ≤ 3584 ∧
      ∃ program, Program.make "next" data = .ok program ∧
        ∀ source, ∃ fresh, Machine.withProgram source program = .ok fresh ∧
          s.outcomes perform (.reset :: .load data :: [.cycle, .tick, .cycle]) =
            s.become .done s.machine.reset ::
              { s with machine := fresh }.outcomes perform
                (.setSource s.machine.source :: [.cycle, .tick, .cycle]) := by
  intro s data
  have hlength : data.length ≤ 3584 := by decide
  obtain ⟨hmode, hdepth, hfont, hshown, hbyte⟩ :
      s.machine.mode = .awaitingKey 5 ∧ s.machine.stack.depth = 1 ∧ s.machine.memory[0] = 7 ∧
        s.machine.needsRedraw = false ∧ s.machine.source.byte = 10 := by
    decide +kernel
  obtain ⟨-, -, program, hprogram, hrun⟩ := reset_forgets s "next" hlength
  refine ⟨hmode, hdepth, hfont, hshown, hbyte, hlength, program, hprogram, fun source => ?_⟩
  obtain ⟨fresh, hfresh, hsame⟩ := hrun source
  exact ⟨fresh, hfresh, hsame _⟩

end Session

end ChipEight

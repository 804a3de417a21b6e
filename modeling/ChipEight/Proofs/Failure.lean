/-
ChipEight/Proofs/Failure.lean

Failed cycles.  A cycle that fails leaves the machine as it was, but for the word that it
read, since every handler checks before it writes (`Machine.execute_eq`).  So the same cycle
fails again: the reason of a failure, `Machine.fault?`, is in parts of the machine that
neither the failed cycle nor a tick, a key, another source or the mark of the screen can
reach.  That is so of a running machine; a waiting one does not fail, but it crashes on a key
if it has no register to put it into.

Main statement: `failed_cycle_recurs`, for the machine after the failure and for every
cycle of every run of plain commands from there.
-/
import ChipEight.Proofs.Obstacle
import ChipEight.Proofs.Run

namespace ChipEight

/-! ### The machine after a failure -/

/-- A cycle that fails changes nothing but the word, and the word only if one was read. -/
theorem Machine.cycle_of_fault {m : Machine} {fault : Fault} (hm : m.mode = .running)
    (h : m.fault? = some fault) :
    m.cycle.2 = match m.memory.fetch m.counter with
      | .ok w => { m with word := w }
      | .error _ => m := by
  have he : m.cycle.1 = .error fault := Machine.cycle_eq_error_iff.2 h
  have hc := m.cycleCase
  generalize m.cycle = r at hc he ⊢
  cases hc with
  | waiting hw | stuck hw hr hk | crashed hw hr hk =>
    exact absurd hw (ne_awaitingKey_of_running hm _)
  | noWord hm hf => rw [hf]
  | unknown hm hf hi => rw [hf]
  | failed hm hf hi ho => rw [hf]
  | ran hm hf hi ho => cases he

/-- So nothing that the failure came from is changed. -/
theorem Machine.agree_cycle_of_fault {m : Machine} {fault : Fault} (hm : m.mode = .running)
    (h : m.fault? = some fault) {p : Part} (hp : p ≠ .word) : m.Agree m.cycle.2 p := by
  rw [cycle_of_fault hm h]
  split
  · cases p with
    | word => exact absurd rfl hp
    | _ => exact rfl
  · exact .refl m p

namespace Session

variable {s : Session} {c : Command} {fault : Fault}

theorem perform_cycle_failed_iff :
    (s.perform .cycle).reply = .failed fault ↔ s.machine.fault? = some fault := by
  rw [reply_perform_cycle, Machine.cycle_eq_error_iff]

/-! ### The same failure again -/

/-- A plain command leaves the next cycle to fail for the same reason. -/
theorem fault?_perform (hc : c.IsPlain) (hfault : fault ≠ .crash)
    (h : s.machine.fault? = some fault) :
    (s.perform c).session.machine.fault? = some fault := by
  have hm : s.machine.mode = .running := Machine.running_of_fault? h hfault
  rw [← h]
  apply Machine.fault?_congr hm
  intro p hp
  by_cases hcycle : c = .cycle
  · subst hcycle
    rw [perform_cycle]
    exact Machine.agree_cycle_of_fault hm h fun hw => absurd (hw ▸ hp) (by decide)
  · -- the host reaches none of the parts that faults come from
    have hhost : ∀ q ∈ [Part.mode, .memory, .counter, .index, .stack], q ∉ hostParts := by
      decide
    exact agree_perform_plain hc hcycle (hhost p hp)

theorem fault?_after {cs : List Command} (hcs : ∀ c ∈ cs, c.IsPlain) (hfault : fault ≠ .crash)
    (h : s.machine.fault? = some fault) : (s.after cs).machine.fault? = some fault := by
  induction cs generalizing s with
  | nil => exact h
  | cons c rest ih =>
    have hc : c.IsPlain := hcs c List.mem_cons_self
    exact ih (fun d hd => hcs d (List.mem_cons_of_mem c hd)) (fault?_perform hc hfault h)

/-- **Failures are atomic and recur.**  After a cycle that fails, other than by a crash, the
session is as before, with the fetched word, if there is one, as the word read last; and after
any plain commands from there on, the next cycle fails for the same reason. -/
theorem failed_cycle_recurs (h : (s.perform .cycle).reply = .failed fault)
    (hfault : fault ≠ .crash) :
    (s.perform .cycle).session =
        { s with
          machine := match s.machine.memory.fetch s.machine.counter with
            | .ok w => { s.machine with word := w }
            | .error _ => s.machine } ∧
      ∀ cs : List Command, (∀ c ∈ cs, c.IsPlain) →
        (((s.perform .cycle).session.after cs).perform .cycle).reply = .failed fault := by
  have hf : s.machine.fault? = some fault := perform_cycle_failed_iff.1 h
  constructor
  · rw [perform_cycle, Machine.cycle_of_fault (Machine.running_of_fault? hf hfault) hf]
    rfl
  · intro cs hcs
    have hp : (s.perform .cycle).session.machine.fault? = some fault :=
      fault?_perform (c := .cycle) trivial hfault hf
    exact perform_cycle_failed_iff.2 (fault?_after hcs hfault hp)

/-- A sprite of five rows at the last address is refused, and so it is again after a tick,
another cycle and a key. -/
theorem failed_cycle_recurs_past_end :
    let s := (start (Machine.powerOn ByteSource.zeros) Pacing.usual).after
      [.load [0xAF, 0xFF, 0xD0, 0x05], .cycle]
    (s.perform .cycle).reply = .failed (.access ⟨0xFFF, 5⟩) ∧
      (((s.perform .cycle).session.after [.tick, .cycle, .setKey 3 true]).perform .cycle).reply
        = .failed (.access ⟨0xFFF, 5⟩) := by
  intro s
  have h : (s.perform .cycle).reply = .failed (.access ⟨0xFFF, 5⟩) :=
    perform_cycle_failed_iff.2 (by decide +kernel)
  exact ⟨h, (failed_cycle_recurs h (by decide)).2 [.tick, .cycle, .setKey 3 true] (by decide)⟩

end Session

end ChipEight

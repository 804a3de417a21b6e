/-
ChipEight/Proofs/Calls.lean

Calls and returns over whole runs.  A call pushes its own address onto the stack, and from
there on everything that happens takes place above it:

    stack = inner ++ caller :: base,

where `base` is the stack that the call was made on and `inner` holds the calls made since
(`CallOpen`).  A step keeps this form, whatever the program does and whether it fails or
not, with one exception: a return that finds `inner` empty.  It leaves `base` as the stack
and goes on right behind the caller.

Main statement: `returns_behind_call`, the first time that the stack is as high again as
it was at a call, that call has just returned.
-/
import ChipEight.Proofs.Run

namespace ChipEight

/-- The call at the address `caller`, made on the stack `base`, has not returned yet. -/
def CallOpen (caller : Nat) (base stack : CallStack) : Prop :=
  ∃ inner : List Nat, stack.entries = inner ++ caller :: base.entries

namespace CallOpen

variable {caller address : Nat} {base stack stack' : CallStack}

/-- While a call is open the stack is higher than it was at the call. -/
theorem depth_lt (h : CallOpen caller base stack) : base.depth < stack.depth := by
  obtain ⟨inner, hs⟩ := h
  simp only [CallStack.depth, hs, List.length_append, List.length_cons]
  omega

/-- A call opens itself. -/
theorem of_push (h : base.push caller = .ok stack) : CallOpen caller base stack :=
  ⟨[], CallStack.entries_of_push h⟩

/-- A further call is made above. -/
theorem push (h : CallOpen caller base stack) (hs : stack.push address = .ok stack') :
    CallOpen caller base stack' := by
  obtain ⟨inner, hi⟩ := h
  refine ⟨address :: inner, ?_⟩
  rw [CallStack.entries_of_push hs, hi]
  rfl

/-- A return closes a call made above, or else the call itself. -/
theorem pop (h : CallOpen caller base stack) (hs : stack.pop = .ok (address, stack')) :
    CallOpen caller base stack' ∨ address = caller ∧ stack' = base := by
  obtain ⟨inner, hi⟩ := h
  rw [CallStack.entries_of_pop hs] at hi
  cases inner with
  | nil =>
    obtain ⟨ha, hb⟩ := List.cons.inj hi
    exact .inr ⟨ha, CallStack.eq_of_entries hb⟩
  | cons first inner =>
    obtain ⟨-, hb⟩ := List.cons.inj hi
    exact .inl ⟨inner, hb⟩

end CallOpen

/-! ### One step -/

namespace Machine

variable {m : Machine} {caller : Nat} {base : CallStack}

/-- The next cycle of the machine is the return of the call at `caller`: it runs `00EE`, and
leaves the stack of the call and the address behind it. -/
structure Returns (m : Machine) (caller : Nat) (base : CallStack) : Prop where
  running : m.mode = .running
  fetched : m.memory.fetch m.counter = .ok 0x00EE
  quiet : m.cycle.1 = .ok .quiet
  stack : m.cycle.2.stack = base
  counter : m.cycle.2.counter = caller + 2

/-- A cycle leaves an open call open, or is its return. -/
theorem callOpen_cycle (h : CallOpen caller base m.stack) :
    CallOpen caller base m.cycle.2.stack ∨ m.Returns caller base := by
  have hc := m.cycleCase
  generalize hr : m.cycle = r at hc
  cases hc with
  | @waiting x hm =>
    have hs : (m.takeKey x).machine.stack = m.stack :=
      agree_takeKey (p := .stack) x (by decide)
    left
    show CallOpen caller base (m.takeKey x).machine.stack
    rw [hs]
    exact h
  | stuck hm hr hk | crashed hm hr hk | noWord hm hf => exact .inl h
  | unknown hm hf hi => exact .inl h
  | failed hm hf hi he => exact .inl h
  | @ran w i e hm hf hi he =>
    show CallOpen caller base e.machine.stack ∨ _
    by_cases hret : i = .ret
    · subst hret
      have hw : w = 0x00EE := (Instruction.toWord_of_ofWord? hi).symm
      subst hw
      obtain ⟨address, stack, hs, rfl⟩ := effect_ret_eq_ok he
      rcases h.pop hs with hopen | ⟨rfl, rfl⟩
      · exact .inl hopen
      · exact .inr ⟨hm, hf, by rw [hr]; rfl, by rw [hr]; rfl, by rw [hr]; rfl⟩
    · by_cases hcall : ∃ target, i = .call target
      · obtain ⟨target, rfl⟩ := hcall
        obtain ⟨stack, hs, rfl⟩ := effect_call_eq_ok he
        exact .inl (h.push hs)
      · have hs := stack_of_effect he hret fun target hi => hcall ⟨target, hi⟩
        left
        rw [hs]
        exact h

/-- A call that finds room is open after its cycle. -/
theorem callOpen_of_call {w : Word} {target : Nat} (hm : m.mode = .running)
    (hf : m.memory.fetch m.counter = .ok w)
    (hi : Instruction.ofWord? w = some (.call target)) (hroom : m.stack.depth < 16) :
    CallOpen m.counter m.stack m.cycle.2.stack := by
  rcases hs : m.stack.push m.counter with cause | stack
  · obtain ⟨hd, -⟩ := CallStack.push_eq_error_iff.1 hs
    omega
  · have he : { m with word := w }.effect (.call target) =
        .ok (.go { m with word := w, stack } (.jump target)) := by
      simp only [effect, hs]
    rw [cycle_of_fetch hm hf, runWord_of_effect hi he]
    exact CallOpen.of_push hs

end Machine

namespace Session

variable {s : Session} {c : Command} {caller : Nat} {base : CallStack}

/-- A command of a run leaves an open call open, or is the cycle that returns it. -/
theorem callOpen_perform (hc : c.IsPlain ∨ c.IsIntrusive)
    (h : CallOpen caller base s.machine.stack) :
    CallOpen caller base (s.perform c).session.machine.stack ∨
      c = .cycle ∧ s.machine.Returns caller base := by
  by_cases hcycle : c = .cycle
  · subst hcycle
    rw [perform_cycle]
    rcases Machine.callOpen_cycle h with hopen | hreturn
    · exact .inl hopen
    · exact .inr ⟨rfl, hreturn⟩
  · have hs : (s.perform c).session.machine.stack = s.machine.stack := by
      rcases hc with hplain | hintrusive
      · exact agree_perform_plain (p := .stack) hplain hcycle (by decide)
      · exact agree_perform_intrusive (p := .stack) hintrusive (by decide)
    left
    rw [hs]
    exact h

/-! ### Whole runs -/

/-- A call stays open over a run in which the stack never comes down to where it was. -/
theorem callOpen_after {cs : List Command} (hcs : ∀ c ∈ cs, c.IsPlain ∨ c.IsIntrusive)
    (h : CallOpen caller base s.machine.stack)
    (hup : ∀ o ∈ s.outcomes perform cs, o.session.machine.stack.depth ≠ base.depth) :
    CallOpen caller base (s.after cs).machine.stack := by
  induction cs generalizing s with
  | nil => exact h
  | cons c rest ih =>
    have hnext : CallOpen caller base (s.perform c).session.machine.stack := by
      rcases callOpen_perform (hcs c List.mem_cons_self) h with hopen | ⟨rfl, hreturn⟩
      · exact hopen
      · -- the call would have returned here, and the stack come down
        have hd := hup _ List.mem_cons_self
        rw [perform_cycle] at hd
        exact absurd (congrArg CallStack.depth hreturn.stack) hd
    exact ih (fun d hd => hcs d (List.mem_cons_of_mem c hd)) hnext
      fun o ho => hup o (List.mem_cons_of_mem _ ho)

/-- **A return finds its call.**  Let a running machine call a subroutine, and let any
commands follow that leave it to the program where it goes, place programs or step over
instructions.  The first of them after which the stack is as high as before the call is a
cycle that runs `00EE`; it leaves the very stack that the call found, and the counter behind
the call. -/
theorem returns_behind_call {w : Word} {target : Nat} (hm : s.machine.mode = .running)
    (hf : s.machine.memory.fetch s.machine.counter = .ok w)
    (hi : Instruction.ofWord? w = some (.call target)) (hroom : s.machine.stack.depth < 16)
    {cs : List Command} (hcs : ∀ d ∈ cs, d.IsPlain ∨ d.IsIntrusive)
    (hc : c.IsPlain ∨ c.IsIntrusive)
    (hup : ∀ o ∈ (s.perform .cycle).session.outcomes perform cs,
      o.session.machine.stack.depth ≠ s.machine.stack.depth)
    (hback : (((s.perform .cycle).session.after cs).perform c).session.machine.stack.depth =
      s.machine.stack.depth) :
    let t := (s.perform .cycle).session.after cs
    c = .cycle ∧ t.machine.mode = .running ∧
      t.machine.memory.fetch t.machine.counter = .ok 0x00EE ∧
      (t.perform c).reply = .signal .quiet ∧
      (t.perform c).session.machine.stack = s.machine.stack ∧
      (t.perform c).session.machine.counter = s.machine.counter + 2 := by
  intro t
  have hcalled : CallOpen s.machine.counter s.machine.stack
      (s.perform .cycle).session.machine.stack := by
    rw [perform_cycle]
    exact Machine.callOpen_of_call hm hf hi hroom
  have hopen : CallOpen s.machine.counter s.machine.stack t.machine.stack :=
    callOpen_after hcs hcalled hup
  rcases callOpen_perform hc hopen with hstill | ⟨rfl, hreturn⟩
  · -- a call that is still open keeps the stack higher
    exact absurd hback.symm (Nat.ne_of_lt hstill.depth_lt)
  · refine ⟨rfl, hreturn.running, hreturn.fetched, ?_, ?_, ?_⟩
    · rw [perform_cycle, hreturn.quiet]
      rfl
    · rw [perform_cycle]
      exact hreturn.stack
    · rw [perform_cycle]
      exact hreturn.counter

/-- A call at `0x200` whose subroutine makes a call of its own before it returns. -/
theorem returns_behind_call_nested :
    let bytes : List UInt8 := [0x22, 0x06, 0, 0, 0, 0, 0x22, 0x0A, 0x00, 0xEE, 0x00, 0xEE]
    let s := (start (Machine.powerOn ByteSource.zeros) Pacing.usual).after [.load bytes]
    let t := (s.perform .cycle).session.after [.cycle, .tick, .cycle]
    s.machine.counter = 0x200 ∧ t.machine.stack.depth = 1 ∧
      (t.perform .cycle).session.machine.stack = s.machine.stack ∧
      (t.perform .cycle).session.machine.counter = 0x202 := by
  intro bytes s t
  have hcall : Instruction.ofWord? 0x2206 = some (.call 0x206) := by decide
  obtain ⟨hm, hcounter, hroom⟩ :
      s.machine.mode = .running ∧ s.machine.counter = 0x200 ∧ s.machine.stack.depth < 16 := by
    decide +kernel
  have hf : s.machine.memory.fetch s.machine.counter = .ok 0x2206 :=
    Memory.fetch_eq_ok_iff.2 (by decide +kernel)
  have hcs : ∀ d ∈ [Command.cycle, .tick, .cycle], d.IsPlain ∨ d.IsIntrusive := by decide
  obtain ⟨hup, hdepth, hback⟩ :
      (∀ o ∈ (s.perform .cycle).session.outcomes perform [.cycle, .tick, .cycle],
        o.session.machine.stack.depth ≠ s.machine.stack.depth) ∧
        t.machine.stack.depth = 1 ∧
        (t.perform .cycle).session.machine.stack.depth = s.machine.stack.depth := by
    decide +kernel
  subst t
  obtain ⟨-, -, -, -, hstack, hbehind⟩ :=
    returns_behind_call (c := .cycle) hm hf hcall hroom hcs (.inl trivial) hup hback
  rw [hcounter] at hbehind
  exact ⟨hcounter, hdepth, hstack, hbehind⟩

end Session

end ChipEight

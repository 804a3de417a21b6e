/-
ChipEight/Proofs/RandomBytes.lean

The stream of random bytes.  A source is a stream and the number of bytes that were drawn from
it, so all that there is to say of a run is how many bytes it draws.  Along a history the source
is carried from one execution to the next,

    source --x₁--> source₁ --x₂--> … --xₖ--> source at the end,

since what comes between two executions, be it a cycle that waits or fails, a word that is
stepped over, a tick, a key, a program or a reset, leaves it alone (`Carries`, one lemma for each
kind of loop).  `CXNN` moves the source on by one byte whatever its mask, and no other instruction
moves it, so behind some executions it has given as many bytes as there are `CXNN` among them.

This holds of any stream.  Where the stream is a counter, the byte behind `n` others is known from
the two numbers that it begins at and moves by (`byte_later_counting`).

Main statement: `random_bytes_in_order`.
-/
import ChipEight.Proofs.Executions
import ChipEight.Proofs.Writes

namespace ChipEight

/-! ### Positions of a source -/

namespace ByteSource

/-- The source after so many bytes are drawn. -/
def later (s : ByteSource) (count : Nat) : ByteSource :=
  { s with drawn := s.drawn + count }

theorem later_zero (s : ByteSource) : s.later 0 = s := rfl

theorem later_rest (s : ByteSource) (count : Nat) : s.rest.later count = s.later (count + 1) := by
  rw [later, later, ← Nat.succ_add_eq_add_succ]
  rfl

/-- The counter wraps around at a multiple of 256, so its lowest bits count without it. -/
theorem byte_later_counting (state stride : UInt64) (count : Nat) :
    ((counting state stride).later count).byte =
      UInt8.ofNat ((state.toNat + count * stride.toNat) % 256) := by
  have hlow : (Nat.repeat (· + stride) count state).toNat % 256 =
      (state.toNat + count * stride.toNat) % 256 := by
    induction count with
    | zero =>
      rw [Nat.zero_mul, Nat.add_zero]
      rfl
    | succ count ih =>
      have hdvd : 256 ∣ 2 ^ 64 := by decide
      show (Nat.repeat (· + stride) count state + stride).toNat % 256 = _
      rw [UInt64.toNat_add, Nat.mod_mod_of_dvd _ hdvd, Nat.add_mod, ih, ← Nat.add_mod,
        Nat.succ_mul, Nat.add_assoc]
  rw [← hlow]
  show (counting state stride).stream (0 + count) = _
  rw [Nat.zero_add]
  rfl

end ByteSource

/-! ### Along executions -/

/-- The instruction is `CXNN`. -/
def Instruction.isRandom : Instruction → Bool
  | random .. => true
  | _ => false

/-- Those of some executions that are of `CXNN`. -/
def randoms (xs : List Execution) : List Execution :=
  xs.filter fun x => x.instruction.isRandom

/-- Executions carry one source on to another if the first of them begins with the one, each
leaves the source that the next begins with, and the last leaves the other. -/
inductive Carries : ByteSource → List Execution → ByteSource → Prop
  | nil (source : ByteSource) : Carries source [] source
  | cons {x : Execution} {rest : List Execution} {last : ByteSource}
      (h : Carries x.after.source rest last) : Carries x.before.source (x :: rest) last

theorem Instruction.isRandom_iff {i : Instruction} :
    i.isRandom = true ↔ ∃ x mask, i = .random x mask := by
  cases i <;> simp [isRandom]

theorem Carries.single (x : Execution) : Carries x.before.source [x] x.after.source :=
  .cons (.nil x.after.source)

/-- A source that stays the same is carried on without an execution. -/
theorem carries_of_agree {m n : Machine} (h : m.Agree n .source) :
    Carries m.source [] n.source := by
  have hsame : n.source = m.source := h
  rw [hsame]
  exact .nil m.source

theorem Carries.append {first middle last : ByteSource} {xs ys : List Execution}
    (hxs : Carries first xs middle) (hys : Carries middle ys last) :
    Carries first (xs ++ ys) last := by
  induction hxs with
  | nil source => exact hys
  | cons h ih => exact .cons (ih hys)

namespace Machine

variable {m n : Machine} {i : Instruction} {skipUnknown : Bool}

/-! ### What an instruction does to the source -/

/-- `CXNN` draws one byte, also if the mask lets nothing of it through. -/
theorem Does.random {x : Register} {mask : UInt8} (h : m.Does (.random x mask) n) :
    n.source = m.source.rest ∧ n.registers.get x = mask &&& m.source.byte := by
  obtain ⟨w, e, he, rfl⟩ := h.effect
  cases he
  exact ⟨rfl, get_put_self _ x _⟩

/-- No other instruction draws a byte. -/
theorem Does.source (h : m.Does i n) (hi : i.isRandom = false) : n.source = m.source := by
  have hsource : Part.source ∉ i.changes := by
    cases i with
    | random x mask => cases hi
    | _ => simp [Instruction.changes]
  exact h.agree (p := .source) (by decide) hsource

/-! ### What runs on a machine -/

theorem carries_executed (m : Machine) : Carries m.source m.executed m.cycle.2.source := by
  by_cases hexec : ∃ i, m.Executes i
  · obtain ⟨i, hi⟩ := hexec
    rw [executed_of_executes hi]
    exact .single ⟨m, i, m.cycle.2⟩
  · rw [executed_of_idle fun i hi => hexec ⟨i, hi⟩]
    apply carries_of_agree
    refine Classical.byContradiction fun hchanged => hexec ?_
    obtain ⟨i, hi, -⟩ := executed_of_changed (by decide) hchanged
    exact ⟨i, hi⟩

theorem carries_executedInCycles (count : Nat) (m : Machine) :
    Carries m.source (executedInCycles count m) (cycles count m).machine.source := by
  induction count generalizing m with
  | zero => exact .nil m.source
  | succ count ih =>
    have hfirst := m.carries_executed
    unfold executedInCycles cycles
    generalize m.executed = xs at hfirst ⊢
    generalize m.cycle = r at hfirst ⊢
    rcases r with ⟨fault | signal, after⟩
    · exact hfirst.append (.nil after.source)
    · exact hfirst.append (ih after)

theorem carries_executedInBurst (limit : Nat) (m : Machine) :
    Carries m.source (executedInBurst skipUnknown limit m)
      (burst skipUnknown limit m).machine.source := by
  induction limit generalizing m with
  | zero => exact .nil m.source
  | succ limit ih =>
    have hfirst := m.carries_executed
    rw [executedInBurst]
    rcases hgoes : goesOn skipUnknown m.cycle.1 with - | -
    · rw [burst_of_not_goesOn hgoes]
      exact hfirst.append (.nil m.cycle.2.source)
    · -- the step over a word that was not read does not come near the source
      have hturn : (turn skipUnknown m).source = m.cycle.2.source :=
        agree_turn (p := .source) (by decide)
      rw [burst_of_goesOn hgoes]
      rw [← hturn] at hfirst
      exact hfirst.append (ih (turn skipUnknown m))

/-- A frame leaves the source as its cycles leave it, whether it goes well or fails. -/
theorem source_frame (pacing : Pacing) (keys : Keypad) (m : Machine) :
    (frame pacing keys m).machine.source =
      (burst pacing.skipUnknown pacing.cyclesPerTick { m with keypad := keys }).machine.source := by
  unfold frame
  generalize burst pacing.skipUnknown pacing.cyclesPerTick { m with keypad := keys } = b
  obtain ⟨fault?, edges, after⟩ := b
  cases fault? with
  | none => rfl
  | some fault => rfl

end Machine

/-! ### Commands and runs -/

namespace Session

variable {s : Session} {c : Command} {cs : List Command}

theorem carries_execute (s : Session) (i : Instruction) :
    Carries s.machine.source (s.executed (.execute i))
      (s.perform (.execute i)).session.machine.source := by
  simp only [executed, perform, Machine.executedAlone]
  rcases he : s.machine.execute i with ⟨fault | signal, after⟩
  · obtain rfl := Machine.eq_of_execute_error he
    exact .nil s.machine.source
  · exact .single ⟨s.machine, i, after⟩

theorem carries_perform (hc : ∀ source, c ≠ .setSource source) :
    Carries s.machine.source (s.executed c) (s.perform c).session.machine.source := by
  cases c with
  | setSource source => exact absurd rfl (hc source)
  | cycle =>
    rw [perform_cycle]
    exact s.machine.carries_executed
  | cycles count => exact Machine.carries_executedInCycles count s.machine
  | executeWord word =>
    have hexecute := carries_execute s
    simp only [executed, perform] at hexecute ⊢
    rcases Instruction.ofWord? word with - | i
    · exact .nil s.machine.source
    · exact hexecute i
  | execute i => exact carries_execute s i
  | frame keys? =>
    show Carries s.machine.source _
      (Machine.frame s.pacing (keys?.getD s.hostKeys) s.machine).machine.source
    rw [Machine.source_frame]
    exact Machine.carries_executedInBurst _ { s.machine with keypad := keys?.getD s.hostKeys }
  | reset => exact .nil s.machine.source
  | load data | loadNamed name data | advance move | stepOver | markShown | tick
  | setKey number down | toggleKey number | setKeys keys =>
    refine carries_of_agree (agree_perform ?_)
    simp [Command.changes]

theorem carries_after (hcs : ∀ c ∈ cs, ∀ source, c ≠ .setSource source) :
    Carries s.machine.source (s.history cs) (s.after cs).machine.source := by
  induction cs generalizing s with
  | nil => exact .nil s.machine.source
  | cons c rest ih =>
    have hfirst := carries_perform (s := s) (hcs c List.mem_cons_self)
    exact hfirst.append (ih fun d hd => hcs d (List.mem_cons_of_mem c hd))

end Session

/-! ### The stream -/

/-- Along executions the source has given a byte for each `CXNN` so far, and no others. -/
theorem Carries.position {first last : ByteSource} {xs : List Execution}
    (h : Carries first xs last) (hdone : ∀ x ∈ xs, x.before.Does x.instruction x.after) :
    last = first.later (randoms xs).length ∧
      ∀ number e, (randoms xs)[number]? = some e → e.before.source = first.later number := by
  induction h with
  | nil source =>
    refine ⟨source.later_zero.symm, ?_⟩
    intro number e he
    cases he
  | @cons x rest last h ih =>
    obtain ⟨hlast, hbefore⟩ := ih fun y hy => hdone y (List.mem_cons_of_mem x hy)
    have hx := hdone x List.mem_cons_self
    rcases hi : x.instruction.isRandom with - | -
    · have hlist : randoms (x :: rest) = randoms rest :=
        List.filter_cons_of_neg (by rw [hi]; exact Bool.false_ne_true)
      rw [hx.source hi] at hlast hbefore
      rw [hlist]
      exact ⟨hlast, hbefore⟩
    · have hlist : randoms (x :: rest) = x :: randoms rest := List.filter_cons_of_pos hi
      obtain ⟨r, mask, hr⟩ := Instruction.isRandom_iff.1 hi
      rw [hr] at hx
      rw [hx.random.1] at hlast hbefore
      rw [hlist]
      constructor
      · rw [hlast, ByteSource.later_rest, List.length_cons]
      · intro number e he
        cases number with
        | zero =>
          cases he
          exact x.before.source.later_zero.symm
        | succ number =>
          rw [hbefore number e he, ByteSource.later_rest]

namespace Session

/-- **Random bytes come in order.**  Let a session take its random bytes from a counter that
begins at `a` and moves by `c`, and carry out any commands that set no other source.  Of the
instructions that were done on the way, the one that is `CXNN` with `m` of its kind before it puts
into its register the low byte of `a + m * c`, cut down to the mask.  And at the end one byte was
drawn from the counter for each of them, so nothing else has drawn one. -/
theorem random_bytes_in_order (s : Session) (a c : UInt64) (cs : List Command)
    (hcs : ∀ command ∈ cs, ∀ source, command ≠ .setSource source) :
    let fresh := (s.perform (.setSource (.counting a c))).session
    let drawn := randoms (fresh.history cs)
    (∀ x ∈ fresh.history cs, x.before.Does x.instruction x.after) ∧
    (∀ m e, drawn[m]? = some e → ∃ x mask, e.instruction = .random x mask ∧
      e.after.registers.get x = mask &&& UInt8.ofNat ((a.toNat + m * c.toNat) % 256)) ∧
    (fresh.after cs).machine.source = (ByteSource.counting a c).later drawn.length := by
  intro fresh drawn
  have hdone : ∀ x ∈ fresh.history cs, x.before.Does x.instruction x.after :=
    fun x hx => does_of_mem_history hx
  obtain ⟨hlast, hbefore⟩ := (carries_after (s := fresh) hcs).position hdone
  have hsource : fresh.machine.source = .counting a c := rfl
  rw [hsource] at hlast hbefore
  refine ⟨hdone, ?_, hlast⟩
  intro m e he
  have hmem : e ∈ fresh.history cs ∧ e.instruction.isRandom = true :=
    List.mem_filter.1 (List.mem_of_getElem? he)
  obtain ⟨x, mask, hi⟩ := Instruction.isRandom_iff.1 hmem.2
  have hdoes := hdone e hmem.1
  rw [hi] at hdoes
  refine ⟨x, mask, hi, ?_⟩
  rw [hdoes.random.2, hbefore m e he, ByteSource.byte_later_counting]

/-- Three draws from a counter that wraps around behind the first: one in a frame that fails;
one that the mask lets nothing of through, behind the step over the word at fault, in a frame
that waits; and one that is handed in behind another wait and a reset. -/
theorem random_bytes_in_order_across_reset :
    let s := start (Machine.powerOn ByteSource.zeros) Pacing.usual
    let fresh := (s.perform (.setSource (.counting 0xFFFFFFFFFFFFFFFE 3))).session
    let cs : List Command :=
      [.load [0xC0, 0xFF, 0xFF, 0xFF, 0xC1, 0x00, 0xF3, 0x0A], .frame none, .stepOver, .frame none,
        .cycle, .reset, .execute (.random 4 0xFF)]
    let drawn := randoms (fresh.history cs)
    (∀ command ∈ cs, ∀ source, command ≠ .setSource source) ∧
      drawn.map Execution.instruction = [.random 0 0xFF, .random 1 0x00, .random 4 0xFF] ∧
      (∃ e, drawn[2]? = some e ∧ e.after.registers.get 4 = 4) ∧
      (fresh.after cs).machine.source.drawn = 3 ∧ (fresh.after cs).machine.source.byte = 7 := by
  intro s fresh cs drawn
  have hcs : ∀ command ∈ cs, ∀ source, command ≠ .setSource source := by simp [cs]
  have hdrawn : drawn.map Execution.instruction =
      [.random 0 0xFF, .random 1 0x00, .random 4 0xFF] := by decide +kernel
  have hbyte : 0xFF &&& UInt8.ofNat
      (((0xFFFFFFFFFFFFFFFE : UInt64).toNat + 2 * (3 : UInt64).toNat) % 256) = 4 := by decide
  obtain ⟨-, hstream, hsource⟩ := random_bytes_in_order s 0xFFFFFFFFFFFFFFFE 3 cs hcs
  rw [show randoms _ = drawn from rfl] at hstream hsource
  rw [show (perform s _).session = fresh from rfl] at hsource
  -- from here on all that counts of the draws is what instructions they are
  clear_value drawn fresh
  refine ⟨hcs, hdrawn, ?_, ?_⟩
  · have hlast : drawn[2]?.map Execution.instruction = some (.random 4 0xFF) := by
      rw [← List.getElem?_map, hdrawn]
      rfl
    obtain ⟨e, he, hi⟩ := Option.map_eq_some_iff.1 hlast
    obtain ⟨x, mask, hrandom, hget⟩ := hstream 2 e he
    rw [hi] at hrandom
    cases hrandom
    refine ⟨e, he, ?_⟩
    rw [hget, hbyte]
  · have hcount : drawn.length = 3 := by
      rw [← List.length_map Execution.instruction, hdrawn]
      rfl
    rw [hsource, hcount, ByteSource.byte_later_counting]
    exact ⟨rfl, rfl⟩

end Session

end ChipEight

/-
ChipEight/Proofs/Skipping.lean

Frames that step over unknown words, beside frames that end with them.  The two are driven
alike but for that, and as long as no word is unknown they are the same:

    frame ⟨limit, true⟩ keys m = frame ⟨limit, false⟩ keys m.

If the strict frame ends with an unknown word, the lenient one has come the same way up to
there.  From there it is a frame of its own: of the cycles that are left, on the machine that
the strict frame ends with, moved past the word.  So a frame with several unknown words is cut
at the first of them, and what is behind the cut is again a lenient frame.

Both facts are step lemmas on turns, lifted along the cycles: a turn behind which the strict
frame goes on is the same turn in the lenient frame (`turn_of_known`), and turns that a frame
goes on behind can be split off its front (`burst_past`).

Main statement: `skipping_extends`.
-/
import ChipEight.Proofs.Schedule

namespace ChipEight.Machine

/-- How the lenient frame goes on where the strict one ends with an unknown word, both from a
machine with its keys read.  The strict frame ends with turn number `last`, whose cycle comes
upon the word; both meet the same machines up to this turn, which has no edge to report.
Behind it the lenient frame is one of the cycles that are left, on the machine moved past the
word, with the keypad read already. -/
structure Resumes (limit : Nat) (start : Machine) (w : Word) (last : Nat)
    (strict lenient : FrameReport) : Prop where
  lt : last < limit
  onward : ∀ number < last, goesOn false (resultOfTurn false start number) = true
  unknown : resultOfTurn false start last = .error (.word (.unknown w))
  same : ∀ number ≤ last, turns true start number = turns false start number
  calls : strict.calls = .readKeypad :: (edgesOfTurns false start last).map .tone
  machine : strict.machine = (turns false start last).cycle.2
  later :
    let moved := { strict.machine with counter := strict.machine.counter + 2 }
    let rest := frame ⟨limit - (last + 1), true⟩ start.keypad moved
    lenient = { rest with calls := strict.calls ++ rest.calls.tail }

variable {skipUnknown : Bool} {limit count : Nat} {m : Machine} {keys : Keypad} {w : Word}

/-! ### One turn -/

/-- Both frames go on behind the same cycles, those that come upon an unknown word apart. -/
theorem goesOn_of_known {r : Except Fault Signal} (h : ∀ w, r ≠ .error (.word (.unknown w))) :
    goesOn true r = goesOn false r := by
  rcases r with ((w | ⟨pointer, size⟩) | cause | cause | -) | signal
  · exact absurd rfl (h w)
  · rfl
  · rfl
  · rfl
  · rfl
  · cases signal <;> rfl

/-- The strict frame does not go on behind an unknown word. -/
theorem known_of_goesOn {r : Except Fault Signal} (h : goesOn false r = true) (w : Word) :
    r ≠ .error (.word (.unknown w)) := by
  rintro rfl
  cases h

/-- A turn that comes upon no unknown word is a cycle. -/
theorem turn_of_known (h : ∀ w, m.cycle.1 ≠ .error (.word (.unknown w))) :
    turn skipUnknown m = m.cycle.2 := by
  unfold turn
  split
  · rename_i w hw
    exact absurd hw (h w)
  · rfl

/-- A turn that comes upon an unknown word moves past it. -/
theorem turn_of_unknown (h : m.cycle.1 = .error (.word (.unknown w))) :
    turn true m = m.cycle.2.stepOver := by
  unfold turn
  rw [h]
  rfl

/-! ### All turns -/

/-- The two frames meet the same machines as long as the strict one goes on. -/
theorem turns_of_onward
    (h : ∀ number < count, goesOn false (resultOfTurn false m number) = true) :
    turns true m count = turns false m count := by
  induction count with
  | zero => rfl
  | succ last ih =>
    have hbefore := ih fun number hn => h number (Nat.lt_succ_of_lt hn)
    have hknown := known_of_goesOn (h last (Nat.lt_succ_self last))
    rw [turns_last, turns_last, hbefore, turn_of_known hknown, turn_of_known hknown]

/-- The last turn adds its edge behind all others. -/
theorem edgesOfTurns_last (last : Nat) :
    edgesOfTurns skipUnknown m (last + 1) =
      edgesOfTurns skipUnknown m last ++ (edge? (resultOfTurn skipUnknown m last)).toList := by
  rw [edgesOfTurns, List.range_succ, List.filterMap_append]
  rcases h : edge? (resultOfTurn skipUnknown m last) with - | edge <;> simp [h, edgesOfTurns]

/-- The two frames hear of the same edges as long as the strict one goes on. -/
theorem edgesOfTurns_of_onward
    (h : ∀ number < count, goesOn false (resultOfTurn false m number) = true) :
    edgesOfTurns true m count = edgesOfTurns false m count := by
  induction count with
  | zero => rfl
  | succ last ih =>
    have hbefore : ∀ number < last, goesOn false (resultOfTurn false m number) = true :=
      fun number hn => h number (Nat.lt_succ_of_lt hn)
    rw [edgesOfTurns_last, edgesOfTurns_last, ih hbefore, resultOfTurn, resultOfTurn,
      turns_of_onward hbefore]

/-- Turns that a frame goes on behind are split off its front. -/
theorem burst_past (h : ∀ number < count, goesOn skipUnknown (resultOfTurn skipUnknown m number))
    (rest : Nat) :
    burst skipUnknown (count + rest) m =
      let later := burst skipUnknown rest (turns skipUnknown m count)
      { later with edges := edgesOfTurns skipUnknown m count ++ later.edges } := by
  induction count generalizing m with
  | zero =>
    rw [Nat.zero_add]
    rfl
  | succ count ih =>
    have hfirst : goesOn skipUnknown m.cycle.1 = true := h 0 (Nat.succ_pos count)
    have hlater := ih (m := turn skipUnknown m) fun number hn =>
      h (number + 1) (Nat.succ_lt_succ hn)
    rw [Nat.succ_add, burst_of_goesOn hfirst, hlater, edgesOfTurns_succ, turns_succ]
    dsimp only
    rw [List.append_assoc]

/-! ### The cycles of a frame -/

/-- If the strict frame ends with another fault or with none, the cycles are the same. -/
theorem burst_of_known
    (h : ∀ w, (burst false limit m).fault? ≠ some (.word (.unknown w))) :
    burst true limit m = burst false limit m := by
  induction limit generalizing m with
  | zero => rfl
  | succ limit ih =>
    rcases hm : goesOn false m.cycle.1 with - | -
    · rw [burst_of_not_goesOn hm] at h ⊢
      -- an unknown word here would be the fault of the strict frame
      have hknown : ∀ w, m.cycle.1 ≠ .error (.word (.unknown w)) := fun w hw =>
        h w (lastFault?_eq_some_iff.2 ⟨hw, hm⟩)
      have hm' : goesOn true m.cycle.1 = false := (goesOn_of_known hknown).trans hm
      rw [burst_of_not_goesOn hm']
      rcases hr : m.cycle.1 with fault | signal
      · rw [hr] at hm hm'
        rw [lastFault?_eq_some_iff.2 ⟨rfl, hm⟩, lastFault?_eq_some_iff.2 ⟨rfl, hm'⟩]
      · rfl
    · have hknown := known_of_goesOn hm
      have hm' : goesOn true m.cycle.1 = true := (goesOn_of_known hknown).trans hm
      have hturn : turn true m = turn false m := by
        rw [turn_of_known hknown, turn_of_known hknown]
      rw [burst_of_goesOn hm] at h ⊢
      rw [burst_of_goesOn hm', hturn, ih h]

/-- No lenient frame ends with an unknown word. -/
theorem fault?_burst_ne_unknown (w : Word) :
    (burst true limit m).fault? ≠ some (.word (.unknown w)) := by
  obtain ⟨count, -, hburst⟩ := burst_turns true limit m
  rw [hburst]
  intro hf
  obtain ⟨last, -, hr, hends⟩ := faultOfTurns?_eq_some_iff.1 hf
  rw [hr] at hends
  cases hends

/-! ### The frame -/

/-- A frame ends with the fault of its cycles. -/
theorem fault?_frame (pacing : Pacing) (keys : Keypad) (m : Machine) :
    (frame pacing keys m).fault? =
      (burst pacing.skipUnknown pacing.cyclesPerTick { m with keypad := keys }).fault? := by
  unfold frame
  generalize burst pacing.skipUnknown pacing.cyclesPerTick { m with keypad := keys } = b
  rcases hb : b.fault? with - | fault <;> simp only [hb]

/-- A frame whose cycles are some edges and then the cycles of another frame with the same
keys is those edges and then the other frame. -/
theorem frame_of_burst {rest : Nat} {first : List Tone} {n : Machine} (hn : n.keypad = m.keypad)
    (h : burst skipUnknown limit m =
      let later := burst skipUnknown rest n
      { later with edges := first ++ later.edges }) :
    frame ⟨limit, skipUnknown⟩ m.keypad m =
      let later := frame ⟨rest, skipUnknown⟩ m.keypad n
      { later with calls := .readKeypad :: (first.map .tone ++ later.calls.tail) } := by
  -- both machines have their keys already, so reading the keypad changes nothing
  have hkeys : { n with keypad := m.keypad } = n := by rw [← hn]
  simp only [frame, hkeys, h]
  generalize burst skipUnknown rest n = b
  rcases hb : b.fault? with - | fault
  · simp only [List.map_append, List.append_assoc, List.tail_cons]
  · simp only [List.map_append, List.tail_cons]

/-- The lenient frame, cut behind its first unknown word. -/
theorem frame_past_unknown {last : Nat} (hlt : last < limit)
    (honward : ∀ number < last, goesOn false (resultOfTurn false m number) = true)
    (hr : resultOfTurn false m last = .error (.word (.unknown w))) :
    frame ⟨limit, true⟩ m.keypad m =
      let rest := frame ⟨limit - (last + 1), true⟩ m.keypad (turns false m last).cycle.2.stepOver
      { rest with
        calls := .readKeypad ::
          ((edgesOfTurns false m last).map .tone ++ rest.calls.tail) } := by
  have hsame : turns true m last = turns false m last := turns_of_onward honward
  have hr' : resultOfTurn true m last = .error (.word (.unknown w)) := by
    rw [resultOfTurn, hsame]
    exact hr
  have hgoes : ∀ number < last + 1, goesOn true (resultOfTurn true m number) = true := by
    intro number hn
    rcases Nat.lt_succ_iff_lt_or_eq.1 hn with hbefore | rfl
    · have hg := honward number hbefore
      rw [resultOfTurn, turns_of_onward fun earlier he => honward earlier (Nat.lt_trans he hbefore)]
      exact (goesOn_of_known (known_of_goesOn hg)).trans hg
    · rw [hr']
      rfl
  have hedges : edgesOfTurns true m (last + 1) = edgesOfTurns false m last := by
    rw [edgesOfTurns_last, hr', edgesOfTurns_of_onward honward]
    exact List.append_nil _
  have hmachine : turns true m (last + 1) = (turns false m last).cycle.2.stepOver := by
    rw [turns_last, hsame, turn_of_unknown hr]
  have hkeys : (turns false m last).cycle.2.stepOver.keypad = m.keypad := by
    rw [← hmachine, keypad_turns]
  have hlimit : limit = last + 1 + (limit - (last + 1)) := by omega
  have hcycles := burst_past hgoes (limit - (last + 1))
  rw [← hlimit, hedges, hmachine] at hcycles
  exact frame_of_burst hkeys hcycles

/-- Where the strict frame ends with an unknown word the lenient one goes on past it. -/
theorem exists_resumes
    (h : (frame ⟨limit, false⟩ m.keypad m).fault? = some (.word (.unknown w))) :
    ∃ last, Resumes limit m w last (frame ⟨limit, false⟩ m.keypad m)
      (frame ⟨limit, true⟩ m.keypad m) := by
  have hc := frameCase ⟨limit, false⟩ m.keypad m
  generalize frame ⟨limit, false⟩ m.keypad m = strict at hc h ⊢
  cases hc with
  | done hspan hf => cases h
  | @failed count fault hspan hf =>
    cases h
    have hspan : IsSpan false m limit count := hspan
    have hf : faultOfTurns? false m count = some (.word (.unknown w)) := hf
    -- the fault is that of the last turn, and the strict frame went on behind all others
    obtain ⟨last, rfl, hr, hends⟩ := faultOfTurns?_eq_some_iff.1 hf
    have honward : ∀ number < last, goesOn false (resultOfTurn false m number) = true :=
      fun number hn => hspan.onward number (Nat.succ_lt_succ hn)
    have hmachine : turns false m (last + 1) = (turns false m last).cycle.2 :=
      turns_of_fault hends
    have hedges : edgesOfTurns false m (last + 1) = edgesOfTurns false m last := by
      rw [edgesOfTurns_last, hr]
      exact List.append_nil _
    refine ⟨last, hspan.le, honward, hr, fun number hn => ?_, ?_, hmachine, ?_⟩
    · exact turns_of_onward fun earlier he => honward earlier (Nat.lt_of_lt_of_le he hn)
    · exact congrArg (fun edges => HostCall.readKeypad :: edges.map .tone) hedges
    · have hcut := frame_past_unknown hspan.le honward hr
      rw [← hmachine, ← hedges] at hcut
      exact hcut

/-- **Stepping over unknown words changes nothing else.**  Take a frame that steps over unknown
words and one that ends with them, with the same cycles, keys and machine.  If the latter goes
well or fails of something else, the two are the same in all they come to.  If it fails of an
unknown word, the former has come the same way up to there and goes on behind the word with
the cycles that are left.  And a frame that steps over unknown words never fails of one. -/
theorem skipping_extends (limit : Nat) (keys : Keypad) (m : Machine) :
    let strict := frame ⟨limit, false⟩ keys m
    let lenient := frame ⟨limit, true⟩ keys m
    ((∀ w, strict.fault? ≠ some (.word (.unknown w))) → lenient = strict) ∧
      (∀ w, strict.fault? = some (.word (.unknown w)) →
        ∃ last, Resumes limit { m with keypad := keys } w last strict lenient) ∧
      ∀ w, lenient.fault? ≠ some (.word (.unknown w)) := by
  intro strict lenient
  refine ⟨fun hknown => ?_, fun w hw => ?_, fun w => ?_⟩
  · have hcycles : burst true limit { m with keypad := keys } =
        burst false limit { m with keypad := keys } := by
      refine burst_of_known fun w => ?_
      rw [← fault?_frame ⟨limit, false⟩ keys m]
      exact hknown w
    show frame ⟨limit, true⟩ keys m = frame ⟨limit, false⟩ keys m
    simp only [frame, hcycles]
  · exact exists_resumes (m := { m with keypad := keys }) hw
  · show (frame ⟨limit, true⟩ keys m).fault? ≠ _
    rw [fault?_frame]
    exact fault?_burst_ne_unknown w

/-- Two unknown words at the very end of the memory: the strict frame ends at the first of
them, and the lenient one steps over both and then finds no word. -/
example :
    let m := { powerOn ByteSource.zeros with counter := 0xFFC }
    (frame ⟨3, false⟩ Keypad.idle m).fault? = some (.word (.unknown 0)) ∧
      (frame ⟨2, true⟩ Keypad.idle m).fault? = none ∧
      (frame ⟨3, true⟩ Keypad.idle m).fault? = some (.word (.outside 0x1000 4096)) := by
  decide +kernel

end ChipEight.Machine

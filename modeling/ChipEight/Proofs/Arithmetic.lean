/-
ChipEight/Proofs/Arithmetic.lean

Arithmetic on bytes as arithmetic on numbers.  The result of an operation is cut off at eight
bits, and its flag says what was cut off, so that the two together are exact:

    8XY4   256 f + r = a + b
    8XY5   r + b = a + 256 (1 - f)
    8XY7   r + a = b + 256 (1 - f)
    8XY6   2 r + f = a
    8XYE   256 f + r = 2 a

Which registers are named makes no difference, since the values are read before anything is
written.  Only the flag can get lost: it is written first, and a result that goes to the flag
register takes its place.

`FX1E` is exact in the same way with twelve bits in place of eight, as long as the index is at
most one byte past the memory; from farther out the sum could wrap around twice.

Main statement: `arithmetic_exact`.
-/
import ChipEight.Proofs.Executions
import ChipEight.Proofs.Writes

namespace ChipEight

/-! ### Values -/

namespace Alu

/-- What the values `a` and `b`, the result `r` and the flag `f` of an operation have to do with
each other, as numbers; the operations without a flag say nothing of `f`. -/
def Balances (op : Alu) (a b r f : Nat) : Prop :=
  match op with
  | copy => r = b
  | or => r = a ||| b
  | and => r = a &&& b
  | xor => r = a ^^^ b
  | add => 256 * f + r = a + b
  | subtract => r + b = a + 256 * (1 - f) ∧ (f = 1 ↔ b ≤ a)
  | shiftRight => 2 * r + f = a
  | subtractFrom => r + a = b + 256 * (1 - f) ∧ (f = 1 ↔ a ≤ b)
  | shiftLeft => 256 * f + r = 2 * a

theorem toNat_toUInt8_decide (p : Prop) [Decidable p] :
    (decide p).toUInt8.toNat = if p then 1 else 0 := by
  by_cases hp : p
  · rw [decide_eq_true hp, if_pos hp]
    rfl
  · rw [decide_eq_false hp, if_neg hp]
    rfl

/-- A difference that wraps around is too large by 256, and only then. -/
theorem sub_balances (a b : UInt8) :
    (a - b).toNat + b.toNat = a.toNat + 256 * (1 - (decide (b ≤ a)).toUInt8.toNat) ∧
      ((decide (b ≤ a)).toUInt8.toNat = 1 ↔ b.toNat ≤ a.toNat) := by
  have ha := a.toNat_lt
  have hb := b.toNat_lt
  simp only [toNat_toUInt8_decide, UInt8.toNat_sub, UInt8.le_iff_toNat_le]
  split <;> omega

/-- Every operation that has a flag sets it to 0 or 1, and result and flag are exact. -/
theorem balances_of_setsFlag {op : Alu} (h : op.SetsFlag) (a b : UInt8) :
    ∃ flag, op.flag? a b = some flag ∧ flag.toNat ≤ 1 ∧
      op.Balances a.toNat b.toNat (op.result a b).toNat flag.toNat := by
  have ha := a.toNat_lt
  have hb := b.toNat_lt
  cases op with
  | copy | or | and | xor => exact h.elim
  | add =>
    refine ⟨_, rfl, ?_⟩
    simp only [Balances, result, toNat_toUInt8_decide, UInt8.toNat_add]
    split <;> omega
  | subtract =>
    refine ⟨_, rfl, ?_, sub_balances a b⟩
    rw [toNat_toUInt8_decide]
    split <;> omega
  | subtractFrom =>
    refine ⟨_, rfl, ?_, sub_balances b a⟩
    rw [toNat_toUInt8_decide]
    split <;> omega
  | shiftRight =>
    refine ⟨_, rfl, ?_⟩
    simp only [Balances, result, UInt8.toNat_div, UInt8.toNat_mod, UInt8.reduceToNat]
    omega
  | shiftLeft =>
    refine ⟨_, rfl, ?_⟩
    simp only [Balances, result, UInt8.toNat_div, UInt8.toNat_add, UInt8.reduceToNat]
    omega

/-- The operations without a flag are exact by themselves. -/
theorem balances_of_not_setsFlag {op : Alu} (h : ¬ op.SetsFlag) (a b : UInt8) (f : Nat) :
    op.Balances a.toNat b.toNat (op.result a b).toNat f := by
  cases op with
  | copy => rfl
  | or => exact UInt8.toNat_or a b
  | and => exact UInt8.toNat_and a b
  | xor => exact UInt8.toNat_xor a b
  | _ => exact absurd trivial h

end Alu

/-! ### Machines -/

namespace Machine

/-- The second machine is the first one with the operation carried out on two registers.  Result
and flag are exact with a flag of 0 or 1, which the flag register holds unless the result went
there; without a flag that register is left alone, and so are all others. -/
structure Computes (m : Machine) (op : Alu) (x y : Register) (n : Machine) : Prop where
  exact : ∃ f ≤ 1,
    op.Balances (m.registers.get x).toNat (m.registers.get y).toNat (n.registers.get x).toNat f ∧
      (op.SetsFlag → x ≠ flagRegister → (n.registers.get flagRegister).toNat = f)
  flagless : ¬ op.SetsFlag → x ≠ flagRegister →
    n.registers.get flagRegister = m.registers.get flagRegister
  others : ∀ r ≠ x, r ≠ flagRegister → n.registers.get r = m.registers.get r

/-- The second machine is the first one with a byte added to a register, within eight bits and
without a flag. -/
structure AddsByte (m : Machine) (x : Register) (byte : UInt8) (n : Machine) : Prop where
  result : (n.registers.get x).toNat = ((m.registers.get x).toNat + byte.toNat) % 256
  others : ∀ r ≠ x, n.registers.get r = m.registers.get r

/-- The second machine is the first one with a register added to the index, within twelve bits;
index and flag are exact. -/
structure AddsToIndex (m : Machine) (x : Register) (n : Machine) : Prop where
  exact : 4096 * (n.registers.get flagRegister).toNat + n.index =
    m.index + (m.registers.get x).toNat
  flag : (n.registers.get flagRegister).toNat ≤ 1
  index : n.index < 4096
  others : ∀ r ≠ flagRegister, n.registers.get r = m.registers.get r

variable {m : Machine} {x y : Register}

/-- The flag register holds the flag, if there is one. -/
theorem get_putFlag?_self (m : Machine) (flag? : Option UInt8) :
    (m.putFlag? flag?).registers.get flagRegister =
      flag?.getD (m.registers.get flagRegister) := by
  cases flag? with
  | none => rfl
  | some flag => exact get_put_self m flagRegister flag

/-- The registers after an operation: the flag is written first, and the result over it. -/
theorem computes_put (m : Machine) (op : Alu) (x y : Register) {n : Machine}
    (h : n.registers =
      ((m.putFlag? (op.flag? (m.registers.get x) (m.registers.get y))).put x
        (op.result (m.registers.get x) (m.registers.get y))).registers) :
    m.Computes op x y n := by
  have hresult : n.registers.get x = op.result (m.registers.get x) (m.registers.get y) := by
    rw [h, get_put_self]
  have hflag : x ≠ flagRegister → n.registers.get flagRegister =
      (op.flag? (m.registers.get x) (m.registers.get y)).getD
        (m.registers.get flagRegister) := by
    intro hx
    rw [h, get_put_of_ne hx.symm, get_putFlag?_self]
  refine ⟨?_, fun hop hx => ?_, fun r hr hr' => ?_⟩
  · rw [hresult]
    by_cases hop : op.SetsFlag
    · obtain ⟨flag, hsome, hle, hbalances⟩ :=
        Alu.balances_of_setsFlag hop (m.registers.get x) (m.registers.get y)
      refine ⟨flag.toNat, hle, hbalances, fun _ hx => ?_⟩
      rw [hflag hx, hsome, Option.getD_some]
    · exact ⟨0, by decide, Alu.balances_of_not_setsFlag hop _ _ 0, fun h => absurd h hop⟩
  · rw [hflag hx, flag?_eq_none hop, Option.getD_none]
  · rw [h, get_put_of_ne hr, get_putFlag?_of_ne (.inr hr')]

/-- From at most one byte past the memory, the index wraps around at most once. -/
theorem addsToIndex_moveIndex (h : m.index ≤ 0x1000) (x : Register) {n : Machine}
    (hn : n.registers = (m.moveIndex (m.registers.get x).toNat).registers)
    (hi : n.index = (m.index + (m.registers.get x).toNat) % 4096) :
    m.AddsToIndex x n := by
  have hlt := (m.registers.get x).toNat_lt
  have hflag : (n.registers.get flagRegister).toNat =
      if 4096 ≤ m.index + (m.registers.get x).toNat then 1 else 0 := by
    rw [hn]
    show ((m.put flagRegister _).registers.get flagRegister).toNat = _
    rw [get_put_self, Alu.toNat_toUInt8_decide]
  refine ⟨?_, ?_, ?_, fun r hr => ?_⟩
  · rw [hflag, hi]
    split <;> omega
  · rw [hflag]
    split <;> omega
  · rw [hi]
    exact Nat.mod_lt _ (by decide)
  · rw [hn]
    exact get_put_of_ne hr m _

/-- **Flagged arithmetic is exact.**  Whatever registers are named, an operation goes well and
result and flag make up the exact number; adding a byte goes without a flag; and so is the sum
of a register and an index exact that is at most one byte past the memory. -/
theorem arithmetic_exact (m : Machine) :
    (∀ op x y, m.Yields (.combine op x y) (m.Computes op x y)) ∧
      (∀ x byte, m.Yields (.addByte x byte) (m.AddsByte x byte)) ∧
      (m.index ≤ 0x1000 → ∀ x, m.Yields (.addToIndex x) (m.AddsToIndex x)) := by
  refine ⟨fun op x y => ?_, fun x byte => ?_, fun hindex x => ?_⟩
  · apply yields_of_effect
    intro w
    have h := computes_put { m with word := w } op x y rfl
    exact ⟨_, rfl, rfl, h.exact, h.flagless, h.others⟩
  · apply yields_of_effect
    intro w
    refine ⟨_, rfl, rfl, ?_, fun r hr => get_put_of_ne hr { m with word := w } _⟩
    show ((Machine.put { m with word := w } x _).registers.get x).toNat = _
    rw [get_put_self]
    exact UInt8.toNat_add _ _
  · apply yields_of_effect
    intro w
    exact ⟨_, rfl, rfl, addsToIndex_moveIndex hindex x rfl rfl⟩

/-- From one byte past the memory, with the distance in the flag register: the index wraps
around, and the flag takes the place of the distance. -/
theorem arithmetic_exact_past_end :
    let m := { (powerOn ByteSource.zeros).put flagRegister 0xFE with index := 0x1000 }
    m.index ≤ 0x1000 ∧ ∃ n, m.execute (.addToIndex flagRegister) = (.ok .quiet, n) ∧
      n.index = 0xFE ∧ n.registers.get flagRegister = 1 := by
  intro m
  have hindex : m.index ≤ 0x1000 := Nat.le_refl _
  have hdistance : (m.registers.get flagRegister).toNat = 0xFE := by decide +kernel
  obtain ⟨-, -, hadd⟩ := arithmetic_exact m
  obtain ⟨⟨n, hn, hsum⟩, -⟩ := hadd hindex flagRegister
  have hexact : 4096 * (n.registers.get flagRegister).toNat + n.index = 0x1000 + 0xFE := by
    rw [← hdistance]
    exact hsum.exact
  have hflag : (n.registers.get flagRegister).toNat = 1 := by
    have := hsum.flag
    have := hsum.index
    omega
  have hwrapped : n.index = 0xFE := by omega
  exact ⟨hindex, n, hn, hwrapped, UInt8.toNat_inj.1 hflag⟩

end Machine

end ChipEight

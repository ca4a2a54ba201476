import X86Replay.Flags.Condition
import X86Replay.Proofs.Subtraction

/-!
# Conditions after a comparison

A comparison sets the flags of a difference that is itself dropped. The conditions that look at
these flags decide how the operands are ordered, as unsigned and as signed numbers.

* `OperandSize.signed_sub_cases`: the signed value of a cut difference is off by two to the width
  where the difference does not fit.
* `sign_bne_overflow_iff`: sign and overflow differ if and only if the first operand is less.
* `Cond.Relates`: what each condition says of the operands.
* `eval_cmp_iff`: after a comparison a condition holds if and only if the operands are so related.
-/

namespace X86Replay

namespace OperandSize

variable (size : OperandSize)

/-! ## Signed values of differences -/

/-- Differences of cut operands are cut differences. -/
theorem and_mask_sub_and_mask (a b : UInt64) :
    ((a &&& size.mask) - (b &&& size.mask)) &&& size.mask = (a - b) &&& size.mask := by
  have h := size.toInt_sub_mask (a &&& size.mask) (b &&& size.mask)
  rw [size.toNat_and_mask a, size.toNat_and_mask b] at h
  push_cast at h
  rw [← Int.sub_emod, ← toInt_sub_mask] at h
  rw [← UInt64.toNat_inj]
  exact_mod_cast h

/-- The signed value of a difference is exact where the difference fits, and otherwise off by two
    to the width, towards the other sign. -/
theorem signed_sub_cases (a b : UInt64) :
    size.Fits (size.signed a - size.signed b) ∧
        size.signed (a - b) = size.signed a - size.signed b ∨
      2 ^ (size.bits - 1) ≤ size.signed a - size.signed b ∧ size.signed (a - b) < 0 ∨
      size.signed a - size.signed b < -2 ^ (size.bits - 1) ∧ 0 ≤ size.signed (a - b) := by
  have ha := size.toNat_and_mask_lt a
  have hb := size.toNat_and_mask_lt b
  have hr := size.toNat_and_mask_lt (a - b)
  have hcases := toNat_sub_cases ha hb
  rw [and_mask_sub_and_mask] at hcases
  have hhalf : (2 : Int) ^ (size.bits - 1) = (2 ^ (size.bits - 1) : Nat) := by push_cast; rfl
  rw [← size.signed_and_mask a, ← size.signed_and_mask b, ← size.signed_and_mask (a - b),
    signed_of_lt size ha, signed_of_lt size hb, signed_of_lt size hr]
  unfold Fits
  rw [hhalf]
  generalize (a &&& size.mask).toNat = x, (b &&& size.mask).toNat = y,
    ((a - b) &&& size.mask).toNat = z at *
  generalize 2 ^ (size.bits - 1) = half at *
  split_ifs <;> omega

/-- Operands of the same signed value are the same operand. -/
theorem signed_inj (a b : UInt64) :
    size.signed a = size.signed b ↔ a.toNat % 2 ^ size.bits = b.toNat % 2 ^ size.bits := by
  have ha := Nat.mod_lt a.toNat (Nat.two_pow_pos size.bits)
  have hb := Nat.mod_lt b.toNat (Nat.two_pow_pos size.bits)
  have hwidth : (2 : Int) ^ size.bits = (2 ^ size.bits : Nat) := by push_cast; rfl
  rw [signed_eq_ite, signed_eq_ite, hwidth]
  rw [two_pow_bits] at *
  split_ifs <;> omega

end OperandSize

/-! ## Flags of a comparison -/

section Flags

variable (size : OperandSize) (a b : UInt64)

theorem fst_subWithBorrow_false :
    (subWithBorrow size a b false).1 = (a - b) &&& size.mask := by
  show ((a &&& size.mask) - (((b &&& size.mask) + false.toUInt64) &&& size.mask)) &&& size.mask = _
  rw [and_mask_add_false, size.and_mask_sub_and_mask]

theorem carry_subWithBorrow_false :
    (subWithBorrow size a b false).2.carry = true ↔
      a.toNat % 2 ^ size.bits < b.toNat % 2 ^ size.bits := by
  rw [carry_subWithBorrow, Bool.toNat_false, Nat.add_zero]

theorem sign_subWithBorrow_false :
    (subWithBorrow size a b false).2.sign = true ↔ size.signed (a - b) < 0 := by
  have hr := size.toNat_and_mask_lt (a - b)
  rw [(follows_subWithBorrow size a b false).sign, fst_subWithBorrow_false,
    ← size.signed_and_mask (a - b), OperandSize.signed_of_lt size hr]
  split_ifs <;> omega

/-- Operands are equal if and only if their signed values are. -/
theorem zero_subWithBorrow_false :
    (subWithBorrow size a b false).2.zero = true ↔ size.signed a = size.signed b := by
  have ha := size.toNat_and_mask_lt a
  have hb := size.toNat_and_mask_lt b
  have hcases := OperandSize.toNat_sub_cases ha hb
  rw [(follows_subWithBorrow size a b false).zero, fst_subWithBorrow_false, size.signed_inj,
    ← size.toNat_and_mask a, ← size.toNat_and_mask b, ← UInt64.toNat_inj, UInt64.toNat_zero]
  rw [OperandSize.and_mask_sub_and_mask] at hcases
  omega

/-- **Sign and overflow differ if and only if the first operand is less**, also where the difference
    does not fit. -/
theorem sign_bne_overflow_iff :
    ((subWithBorrow size a b false).2.sign != (subWithBorrow size a b false).2.overflow) = true ↔
      size.signed a < size.signed b := by
  have hcases := size.signed_sub_cases a b
  have hpos : (0 : Int) < 2 ^ (size.bits - 1) := Int.pow_pos (by decide)
  rw [bne_iff_ne, ne_eq, Bool.eq_iff_iff, sign_subWithBorrow_false, overflow_subWithBorrow_false]
  unfold OperandSize.Fits at *
  omega

end Flags

/-! ## Conditions -/

namespace Cond

/-- The condition that holds if and only if the given one does not. -/
def opposite : Cond → Cond
  | .o => .no
  | .no => .o
  | .b => .ae
  | .ae => .b
  | .e => .ne
  | .ne => .e
  | .be => .a
  | .a => .be
  | .s => .ns
  | .ns => .s
  | .p => .np
  | .np => .p
  | .l => .ge
  | .ge => .l
  | .le => .g
  | .g => .le

theorem eval_opposite (c : Cond) (flags : UInt64) : c.opposite.eval flags = !c.eval flags := by
  unfold opposite eval
  generalize RFlags.has flags RFlags.carry = carry, RFlags.has flags RFlags.zero = zero,
    RFlags.has flags RFlags.sign = sign, RFlags.has flags RFlags.overflow = overflow,
    RFlags.has flags RFlags.parity = parity
  cases c with
  | o | b | e | s | p => rfl
  | no | ae | ne | ns | np => exact (Bool.not_not _).symm
  | be => exact (Bool.not_or _ _).symm
  | a => cases carry <;> cases zero <;> rfl
  | l | ge => cases sign <;> cases overflow <;> rfl
  | le | g => cases zero <;> cases sign <;> cases overflow <;> rfl

/-- What a condition says of two operands that have been compared: how they are ordered as unsigned
    or as signed numbers, or what their difference is like. -/
def Relates (size : OperandSize) (a b : UInt64) : Cond → Prop
  | .e => a.toNat % 2 ^ size.bits = b.toNat % 2 ^ size.bits
  | .ne => ¬ a.toNat % 2 ^ size.bits = b.toNat % 2 ^ size.bits
  | .b => a.toNat % 2 ^ size.bits < b.toNat % 2 ^ size.bits
  | .ae => ¬ a.toNat % 2 ^ size.bits < b.toNat % 2 ^ size.bits
  | .be => a.toNat % 2 ^ size.bits ≤ b.toNat % 2 ^ size.bits
  | .a => ¬ a.toNat % 2 ^ size.bits ≤ b.toNat % 2 ^ size.bits
  | .l => size.signed a < size.signed b
  | .ge => ¬ size.signed a < size.signed b
  | .le => size.signed a ≤ size.signed b
  | .g => ¬ size.signed a ≤ size.signed b
  | .s => size.signed (a - b) < 0
  | .ns => ¬ size.signed (a - b) < 0
  | .o => ¬ size.Fits (size.signed a - size.signed b)
  | .no => size.Fits (size.signed a - size.signed b)
  | .p => Even ((List.range 8).filter fun i => ((a - b) &&& size.mask).toNat.testBit i).length
  | .np => ¬ Even ((List.range 8).filter fun i => ((a - b) &&& size.mask).toNat.testBit i).length

variable {c : Cond} {flags : UInt64} {p : Prop}

theorem eval_opposite_iff (h : c.eval flags = true ↔ p) : c.opposite.eval flags = true ↔ ¬ p := by
  rw [eval_opposite, Bool.not_eq_true', ← Bool.not_eq_true, h]

end Cond

/-- **A comparison decides the order of its operands.** After it a condition holds if and only if
    the operands are related as the condition says. -/
theorem eval_cmp_iff (c : Cond) (size : OperandSize) (flags a b : UInt64) :
    c.eval (alu .cmp size flags a b).2 = true ↔ c.Relates size a b := by
  have hstatus : (subWithBorrow size a b false).2 = Status.ofFlags (alu .cmp size flags a b).2 :=
    (Status.ofFlags_store _ flags).symm
  have hzero := zero_subWithBorrow_false size a b
  have hcarry := carry_subWithBorrow_false size a b
  have hless := sign_bne_overflow_iff size a b
  have hsign := sign_subWithBorrow_false size a b
  have hoverflow := overflow_subWithBorrow_false size a b
  have hparity := (follows_subWithBorrow size a b false).parity
  rw [fst_subWithBorrow_false] at hparity
  rw [hstatus] at hzero hcarry hless hsign hoverflow hparity
  generalize (alu .cmp size flags a b).2 = after at *
  -- `be` and `le` each join two of the facts above; the others are one of them or an opposite.
  have he : Cond.e.eval after = true ↔ Cond.e.Relates size a b :=
    hzero.trans (size.signed_inj a b)
  have hbe : Cond.be.eval after = true ↔ Cond.be.Relates size a b := by
    show (Cond.b.eval after || Cond.e.eval after) = true ↔ _ ≤ _
    rw [Bool.or_eq_true, he, Nat.le_iff_lt_or_eq]
    exact or_congr hcarry Iff.rfl
  have hle : Cond.le.eval after = true ↔ Cond.le.Relates size a b := by
    show (Cond.e.eval after || Cond.l.eval after) = true ↔ _ ≤ _
    rw [Bool.or_eq_true, or_comm, Int.le_iff_lt_or_eq]
    exact or_congr hless hzero
  cases c with
  | o => exact hoverflow
  | no => exact (Cond.eval_opposite_iff (c := .o) hoverflow).trans not_not
  | b => exact hcarry
  | ae => exact Cond.eval_opposite_iff (c := .b) hcarry
  | e => exact he
  | ne => exact Cond.eval_opposite_iff he
  | be => exact hbe
  | a => exact Cond.eval_opposite_iff hbe
  | s => exact hsign
  | ns => exact Cond.eval_opposite_iff (c := .s) hsign
  | p => exact hparity
  | np => exact Cond.eval_opposite_iff (c := .p) hparity
  | l => exact hless
  | ge => exact Cond.eval_opposite_iff (c := .l) hless
  | le => exact hle
  | g => exact Cond.eval_opposite_iff hle

end X86Replay

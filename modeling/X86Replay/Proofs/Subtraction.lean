import X86Replay.Proofs.StatusFlags

/-!
# Subtraction with borrow

The borrow is added to the subtrahend first, and the sum is cut to the operand size. The flags are
those of taking the cut sum from the minuend. Result, carry, zero, sign and parity are the exact
ones all the same; adjust and overflow are not where the cut sum has wrapped in its low nibble or
changed its sign.

* `toNat_sub_cases`, `adjust_sub`, `overflow_sub`: subtraction of two words without a borrow.
* `signed_add_borrow`: where the signed value of the cut sum is not the sum.
* `subWithBorrow_exact`: the result and all flags, for all operands.
* `subWithBorrow_not_exact`: operands at which both flags differ from those of the difference.
-/

namespace X86Replay

namespace OperandSize

variable (size : OperandSize)

/-! ## Without a borrow -/

section Difference

variable {size} {d t : UInt64} (hd : d.toNat < 2 * 2 ^ (size.bits - 1))
  (ht : t.toNat < 2 * 2 ^ (size.bits - 1))

include hd ht

/-- A difference of two words wraps once or not at all. -/
theorem toNat_sub_cases :
    t.toNat ≤ d.toNat ∧ ((d - t) &&& size.mask).toNat + t.toNat = d.toNat ∨
      d.toNat < t.toNat ∧
        ((d - t) &&& size.mask).toNat + t.toNat = d.toNat + 2 * 2 ^ (size.bits - 1) := by
  have hr := size.toInt_sub_mask d t
  have hwidth : (2 : Int) ^ size.bits = (2 * 2 ^ (size.bits - 1) : Nat) := by
    rw [← two_pow_bits, Int.natCast_pow]
    rfl
  rw [hwidth] at hr
  rcases Nat.lt_or_ge d.toNat t.toNat with hlt | hge
  · right
    rw [← Int.add_emod_right, Int.emod_eq_of_lt (by omega) (by omega)] at hr
    omega
  · left
    rw [Int.emod_eq_of_lt (by omega) (by omega)] at hr
    omega

/-- Bit 4 of the operands and the result tells whether the low nibble has borrowed. -/
theorem adjust_sub :
    ((d ^^^ t ^^^ ((d - t) &&& size.mask)) &&& 0x10 != 0) = true ↔
      d.toNat % 16 < t.toNat % 16 := by
  have hcases := toNat_sub_cases hd ht
  obtain ⟨c, hc⟩ := size.sixteen_dvd
  generalize (d - t) &&& size.mask = r at hcases ⊢
  rw [hc] at hcases
  rw [and_bit_ne_zero (k := 4) rfl, UInt64.toNat_xor, UInt64.toNat_xor, Nat.testBit_xor,
    Nat.testBit_xor]
  simp only [xor_iff, Nat.testBit_eq_decide_div_mod_eq,
    decide_eq_true_iff]
  omega

/-- The top bits of the operands and the result tell whether the signed difference fits. -/
theorem overflow_sub :
    ((d ^^^ t) &&& (d ^^^ ((d - t) &&& size.mask)) &&& size.signBit != 0) = true ↔
      ¬ size.Fits (size.signed d - size.signed t) := by
  have hcases := toNat_sub_cases hd ht
  have hr := size.toNat_and_mask_lt (d - t)
  rw [signed_of_lt size hd, signed_of_lt size ht]
  generalize (d - t) &&& size.mask = r at hcases hr ⊢
  rw [and_bit_ne_zero size.toNat_signBit]
  simp only [UInt64.toNat_and, UInt64.toNat_xor, Nat.testBit_and, Nat.testBit_xor, testBit_top hd,
    testBit_top ht, testBit_top hr, Bool.and_eq_true, xor_iff,
    decide_eq_true_iff]
  have hhalf : (2 : Int) ^ (size.bits - 1) = (2 ^ (size.bits - 1) : Nat) := by push_cast; rfl
  unfold Fits
  rw [hhalf]
  generalize 2 ^ (size.bits - 1) = half at *
  split_ifs <;> omega

end Difference

/-! ## The cut subtrahend -/

theorem toNat_add_borrow (s : UInt64) (borrow : Bool) :
    ((s + borrow.toUInt64) &&& size.mask).toNat = (s.toNat + borrow.toNat) % 2 ^ size.bits := by
  rw [toNat_add_mask]
  cases borrow <;> rfl

variable {size} {s : UInt64} (hs : s.toNat < 2 * 2 ^ (size.bits - 1))

include hs

/-- The sum of subtrahend and borrow wraps to zero or not at all. -/
theorem toNat_add_borrow_cases (borrow : Bool) :
    ((s + borrow.toUInt64) &&& size.mask).toNat = s.toNat + borrow.toNat ∨
      s.toNat + borrow.toNat = 2 * 2 ^ (size.bits - 1) ∧
        ((s + borrow.toUInt64) &&& size.mask).toNat = 0 := by
  have hb := borrow.toNat_le
  rw [toNat_add_borrow, two_pow_bits]
  rcases Nat.lt_or_ge (s.toNat + borrow.toNat) (2 * 2 ^ (size.bits - 1)) with hlt | hge
  · left
    exact Nat.mod_eq_of_lt hlt
  · right
    have hsum : s.toNat + borrow.toNat = 2 * 2 ^ (size.bits - 1) := by omega
    exact ⟨hsum, by rw [hsum, Nat.mod_self]⟩

/-- The cut sum has the low nibble of the sum. -/
theorem toNat_add_borrow_mod (borrow : Bool) :
    ((s + borrow.toUInt64) &&& size.mask).toNat % 16 = (s.toNat + borrow.toNat) % 16 := by
  obtain ⟨c, hc⟩ := size.sixteen_dvd
  have hcases := toNat_add_borrow_cases hs borrow
  rw [hc] at hcases
  omega

/-- The cut sum has the signed value of the sum, unless the subtrahend is the largest number and
    the borrow makes it the smallest one. -/
theorem signed_add_borrow (borrow : Bool) :
    size.signed ((s + borrow.toUInt64) &&& size.mask) =
      if borrow = true ∧ s.toNat = 2 ^ (size.bits - 1) - 1 then -2 ^ (size.bits - 1)
      else size.signed s + borrow.toNat := by
  have hcases := toNat_add_borrow_cases hs borrow
  have ht := size.toNat_and_mask_lt (s + borrow.toUInt64)
  have hhalf : (2 : Int) ^ (size.bits - 1) = (2 ^ (size.bits - 1) : Nat) := by push_cast; rfl
  have hpos := Nat.two_pow_pos (size.bits - 1)
  rw [signed_of_lt size ht, signed_of_lt size hs, hhalf]
  generalize (s + borrow.toUInt64) &&& size.mask = t at *
  generalize 2 ^ (size.bits - 1) = half at *
  cases borrow with
  | false =>
    simp only [Bool.toNat_false, Bool.false_eq_true, false_and, if_false] at *
    split_ifs <;> omega
  | true =>
    simp only [Bool.toNat_true, true_and] at *
    split_ifs <;> omega

omit hs

/-- Taking the smallest number away fits where taking the largest one and the borrow away does
    not. -/
theorem fits_sub_largest {dest src : UInt64} {borrow : Bool} (hborrow : borrow = true)
    (hs : src.toNat % 2 ^ size.bits = 2 ^ (size.bits - 1) - 1) :
    ¬ size.Fits (size.signed dest - -2 ^ (size.bits - 1)) ↔
      size.Fits (size.signed dest - size.signed src - borrow.toNat) := by
  have hd := size.toNat_and_mask_lt dest
  have hhalf : (2 : Int) ^ (size.bits - 1) = (2 ^ (size.bits - 1) : Nat) := by push_cast; rfl
  have hpos := Nat.two_pow_pos (size.bits - 1)
  have hsrc : size.signed src = (2 ^ (size.bits - 1) : Nat) - 1 := by
    rw [signed_eq_ite, hs, if_pos (by omega)]
    omega
  rw [hsrc, hborrow, ← signed_and_mask size dest, signed_of_lt size hd]
  unfold Fits
  rw [hhalf]
  generalize (dest &&& size.mask).toNat = d at *
  generalize 2 ^ (size.bits - 1) = half at *
  simp only [Bool.toNat_true]
  split_ifs <;> omega

end OperandSize

/-! ## Results and flags -/

theorem toInt_subWithBorrow (size : OperandSize) (dest src : UInt64) (borrow : Bool) :
    ((subWithBorrow size dest src borrow).1.toNat : Int) =
      ((dest.toNat % 2 ^ size.bits : Nat) - (src.toNat % 2 ^ size.bits : Nat) -
        borrow.toNat : Int) % 2 ^ size.bits := by
  show (((dest &&& size.mask) - _ &&& size.mask).toNat : Int) = _
  rw [OperandSize.toInt_sub_mask, OperandSize.toNat_add_borrow, size.toNat_and_mask,
    size.toNat_and_mask]
  generalize dest.toNat % 2 ^ size.bits = d, src.toNat % 2 ^ size.bits = s
  push_cast
  rw [Int.sub_emod, Int.emod_emod_of_dvd _ (Int.dvd_refl _), ← Int.sub_emod, ← Int.sub_sub]

theorem carry_subWithBorrow (size : OperandSize) (dest src : UInt64) (borrow : Bool) :
    (subWithBorrow size dest src borrow).2.carry = true ↔
      dest.toNat % 2 ^ size.bits < src.toNat % 2 ^ size.bits + borrow.toNat := by
  show decide _ = true ↔ _
  rw [decide_eq_true_iff, size.toNat_and_mask, size.toNat_and_mask]

theorem follows_subWithBorrow (size : OperandSize) (dest src : UInt64) (borrow : Bool) :
    (subWithBorrow size dest src borrow).2.Follows size (subWithBorrow size dest src borrow).1 :=
  Status.follows_ofResult (size.toNat_and_mask_lt _) _ _ _

theorem and_mask_add_false (size : OperandSize) (src : UInt64) :
    ((src &&& size.mask) + false.toUInt64) &&& size.mask = src &&& size.mask := by
  have hzero : (src &&& size.mask) + false.toUInt64 = src &&& size.mask := UInt64.add_zero _
  rw [hzero, UInt64.and_assoc, UInt64.and_self]

/-- Without a borrow the overflow flag is exact. -/
theorem overflow_subWithBorrow_false (size : OperandSize) (dest src : UInt64) :
    (subWithBorrow size dest src false).2.overflow = true ↔
      ¬ size.Fits (size.signed dest - size.signed src) := by
  have hoverflow := OperandSize.overflow_sub (size.toNat_and_mask_lt dest)
    (size.toNat_and_mask_lt src)
  rw [OperandSize.signed_and_mask, OperandSize.signed_and_mask] at hoverflow
  unfold subWithBorrow Status.ofResult
  simp only [and_mask_add_false]
  exact hoverflow

/-- Without a borrow the adjust flag is exact. -/
theorem adjust_subWithBorrow_false (size : OperandSize) (dest src : UInt64) :
    (subWithBorrow size dest src false).2.adjust = true ↔
      dest.toNat % 2 ^ size.bits % 16 < src.toNat % 2 ^ size.bits % 16 := by
  have hadjust := OperandSize.adjust_sub (size.toNat_and_mask_lt dest) (size.toNat_and_mask_lt src)
  rw [size.toNat_and_mask, size.toNat_and_mask] at hadjust
  unfold subWithBorrow Status.ofResult
  simp only [and_mask_add_false]
  exact hadjust

/-! ## All operands -/

/-- **Subtraction with borrow.** Operands are taken modulo two to the width. The result is the
    difference, the carry flag is the borrow out of it, and parity, zero and sign follow it. The
    overflow flag is set if the signed difference does not fit, and turned round if there is a borrow
    and the subtrahend is the largest signed number. The adjust flag is the borrow out of the low
    nibble, and lost if there is a borrow and that of the subtrahend is 15. No other flag changes. -/
theorem subWithBorrow_exact (size : OperandSize) (dest src : UInt64) (borrow : Bool)
    (flags : UInt64) :
    let d := dest.toNat % 2 ^ size.bits
    let s := src.toNat % 2 ^ size.bits
    let difference := size.signed dest - size.signed src - borrow.toNat
    let result := (subWithBorrow size dest src borrow).1
    let after := (subWithBorrow size dest src borrow).2.store flags
    (result.toNat : Int) = ((d : Int) - s - borrow.toNat) % 2 ^ size.bits ∧
    ((Status.ofFlags after).carry = true ↔ d < s + borrow.toNat) ∧
    ((Status.ofFlags after).overflow = true ↔
      if borrow = true ∧ s = 2 ^ (size.bits - 1) - 1 then size.Fits difference
      else ¬ size.Fits difference) ∧
    ((Status.ofFlags after).adjust = true ↔
      d % 16 < s % 16 + borrow.toNat ∧ ¬ (borrow = true ∧ s % 16 = 15)) ∧
    (Status.ofFlags after).Follows size result ∧
    after &&& ~~~RFlags.status = flags &&& ~~~RFlags.status := by
  intro d s difference result after
  have hafter : Status.ofFlags after = (subWithBorrow size dest src borrow).2 :=
    Status.ofFlags_store _ flags
  rw [hafter]
  have hd := size.toNat_and_mask_lt dest
  have hs := size.toNat_and_mask_lt src
  have ht := size.toNat_and_mask_lt ((src &&& size.mask) + borrow.toUInt64)
  have hd' : (dest &&& size.mask).toNat = d := size.toNat_and_mask dest
  have hs' : (src &&& size.mask).toNat = s := size.toNat_and_mask src
  refine ⟨?_, ?_, ?_, ?_, ?_, Status.store_and_not_status _ flags⟩
  · show (((dest &&& size.mask) - _ &&& size.mask).toNat : Int) = _
    rw [OperandSize.toInt_sub_mask, OperandSize.toNat_add_borrow, hd', hs']
    push_cast
    rw [Int.sub_emod, Int.emod_emod_of_dvd _ (Int.dvd_refl _), ← Int.sub_emod, ← Int.sub_sub]
  · show decide _ = true ↔ _
    rw [decide_eq_true_iff, hd', hs']
  · refine (OperandSize.overflow_sub hd ht).trans ?_
    rw [OperandSize.signed_and_mask, OperandSize.signed_add_borrow hs, OperandSize.signed_and_mask,
      hs']
    by_cases hturn : borrow = true ∧ s = 2 ^ (size.bits - 1) - 1
    · rw [if_pos hturn, if_pos hturn]
      exact OperandSize.fits_sub_largest hturn.1 hturn.2
    · rw [if_neg hturn, if_neg hturn, ← Int.sub_sub]
  · refine (OperandSize.adjust_sub hd ht).trans ?_
    rw [OperandSize.toNat_add_borrow_mod hs, hd', hs']
    cases borrow with
    | false => simp
    | true =>
      simp only [Bool.toNat_true, true_and]
      omega
  · exact Status.follows_ofResult (size.toNat_and_mask_lt _) _ _ _

/-- **The flags are not always those of the difference.** Taking 127 and a borrow from the byte 0
    leaves -128, which fits, and borrows in the low nibble, but overflow is set and adjust is
    clear. -/
theorem subWithBorrow_not_exact :
    let after := (subWithBorrow .bits8 0 0x7F true).2.store RFlags.fixed
    ¬ ((Status.ofFlags after).overflow = true ↔
        ¬ OperandSize.bits8.Fits
          (OperandSize.bits8.signed 0 - OperandSize.bits8.signed 0x7F - true.toNat)) ∧
      ¬ ((Status.ofFlags after).adjust = true ↔ 0 % 16 < 0x7F % 16 + true.toNat) := by
  decide

end X86Replay

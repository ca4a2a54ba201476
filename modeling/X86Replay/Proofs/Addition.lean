import X86Replay.Proofs.Subtraction

/-!
# Addition with carry

The sum of two words and a carry is cut to the operand size. All status flags are those of the
exact sum, without exception.

* `toNat_sum_cases`, `adjust_add`, `overflow_add`: the cut sum of two words, and what its bits say
  of the exact one.
* `toNat_addWithCarry`: the result and the carry flag together are the exact sum.
* `ofFlags_incDec`: a step by one has the flags of the sum or the difference, but the old carry.
* `addWithCarry_incDec_exact`: results and all flags, for all operands.
-/

namespace X86Replay

namespace OperandSize

/-! ## Sums of words -/

section Sum

variable {size : OperandSize} {d s : UInt64} (hd : d.toNat < 2 * 2 ^ (size.bits - 1))
  (hs : s.toNat < 2 * 2 ^ (size.bits - 1)) (carry : Bool)

theorem toNat_sum_mask (size : OperandSize) (d s : UInt64) (carry : Bool) :
    ((d + s + carry.toUInt64) &&& size.mask).toNat =
      (d.toNat + s.toNat + carry.toNat) % 2 ^ size.bits := by
  have hcarry : carry.toUInt64.toNat = carry.toNat := by cases carry <;> rfl
  rw [toNat_add_mask, UInt64.toNat_add, hcarry, Nat.add_mod,
    Nat.mod_mod_of_dvd _ size.two_pow_bits_dvd, ← Nat.add_mod]

include hd hs

/-- A sum of two words and a carry wraps once or not at all. -/
theorem toNat_sum_cases :
    d.toNat + s.toNat + carry.toNat < 2 * 2 ^ (size.bits - 1) ∧
        ((d + s + carry.toUInt64) &&& size.mask).toNat = d.toNat + s.toNat + carry.toNat ∨
      2 * 2 ^ (size.bits - 1) ≤ d.toNat + s.toNat + carry.toNat ∧
        ((d + s + carry.toUInt64) &&& size.mask).toNat + 2 * 2 ^ (size.bits - 1) =
          d.toNat + s.toNat + carry.toNat := by
  have hcarry := carry.toNat_le
  rw [toNat_sum_mask, two_pow_bits]
  rcases Nat.lt_or_ge (d.toNat + s.toNat + carry.toNat) (2 * 2 ^ (size.bits - 1)) with hlt | hge
  · left
    exact ⟨hlt, Nat.mod_eq_of_lt hlt⟩
  · right
    rw [Nat.mod_eq_sub_mod hge, Nat.mod_eq_of_lt (by omega)]
    omega

/-- Bit 4 of the operands and the result tells whether the low nibble has carried. -/
theorem adjust_add :
    ((d ^^^ s ^^^ ((d + s + carry.toUInt64) &&& size.mask)) &&& 0x10 != 0) = true ↔
      15 < d.toNat % 16 + s.toNat % 16 + carry.toNat := by
  have hcases := toNat_sum_cases hd hs carry
  have hcarry := carry.toNat_le
  obtain ⟨c, hc⟩ := size.sixteen_dvd
  generalize (d + s + carry.toUInt64) &&& size.mask = r at hcases ⊢
  rw [hc] at hcases
  rw [and_bit_ne_zero (k := 4) rfl, UInt64.toNat_xor, UInt64.toNat_xor, Nat.testBit_xor,
    Nat.testBit_xor]
  simp only [xor_iff, Nat.testBit_eq_decide_div_mod_eq, decide_eq_true_iff]
  omega

/-- The top bits of the operands and the result tell whether the signed sum fits. -/
theorem overflow_add :
    ((d ^^^ ((d + s + carry.toUInt64) &&& size.mask)) &&&
        (s ^^^ ((d + s + carry.toUInt64) &&& size.mask)) &&& size.signBit != 0) = true ↔
      ¬ size.Fits (size.signed d + size.signed s + carry.toNat) := by
  have hcases := toNat_sum_cases hd hs carry
  have hr := size.toNat_and_mask_lt (d + s + carry.toUInt64)
  have hcarry := carry.toNat_le
  rw [signed_of_lt size hd, signed_of_lt size hs]
  generalize (d + s + carry.toUInt64) &&& size.mask = r at hcases hr ⊢
  rw [and_bit_ne_zero size.toNat_signBit]
  simp only [UInt64.toNat_and, UInt64.toNat_xor, Nat.testBit_and, Nat.testBit_xor, testBit_top hd,
    testBit_top hs, testBit_top hr, Bool.and_eq_true, xor_iff, decide_eq_true_iff]
  have hhalf : (2 : Int) ^ (size.bits - 1) = (2 ^ (size.bits - 1) : Nat) := by push_cast; rfl
  unfold Fits
  rw [hhalf]
  generalize 2 ^ (size.bits - 1) = half at *
  split_ifs <;> omega

end Sum

theorem toNat_mask_lt_iff (size : OperandSize) (n : Nat) :
    size.mask.toNat < n ↔ 2 ^ size.bits ≤ n := by
  have hmask : size.mask.toNat + 1 = 2 ^ size.bits := by cases size <;> rfl
  omega

theorem signed_one (size : OperandSize) : size.signed 1 = 1 := by
  cases size <;> rfl

theorem one_mod (size : OperandSize) : (1 : UInt64).toNat % 2 ^ size.bits = 1 := by
  cases size <;> rfl

end OperandSize

/-! ## Results and flags -/

theorem toNat_addWithCarry (size : OperandSize) (dest src : UInt64) (carry : Bool) :
    (addWithCarry size dest src carry).1.toNat =
      (dest.toNat % 2 ^ size.bits + src.toNat % 2 ^ size.bits + carry.toNat) % 2 ^ size.bits := by
  rw [← size.toNat_and_mask, ← size.toNat_and_mask]
  exact OperandSize.toNat_sum_mask size _ _ carry

theorem carry_addWithCarry (size : OperandSize) (dest src : UInt64) (carry : Bool) :
    (addWithCarry size dest src carry).2.carry = true ↔
      2 ^ size.bits ≤ dest.toNat % 2 ^ size.bits + src.toNat % 2 ^ size.bits + carry.toNat := by
  show decide _ = true ↔ _
  rw [decide_eq_true_iff, OperandSize.toNat_mask_lt_iff, size.toNat_and_mask, size.toNat_and_mask]

theorem overflow_addWithCarry (size : OperandSize) (dest src : UInt64) (carry : Bool) :
    (addWithCarry size dest src carry).2.overflow = true ↔
      ¬ size.Fits (size.signed dest + size.signed src + carry.toNat) := by
  rw [← size.signed_and_mask dest, ← size.signed_and_mask src]
  exact OperandSize.overflow_add (size.toNat_and_mask_lt dest) (size.toNat_and_mask_lt src) carry

theorem adjust_addWithCarry (size : OperandSize) (dest src : UInt64) (carry : Bool) :
    (addWithCarry size dest src carry).2.adjust = true ↔
      15 < dest.toNat % 2 ^ size.bits % 16 + src.toNat % 2 ^ size.bits % 16 + carry.toNat := by
  rw [← size.toNat_and_mask dest, ← size.toNat_and_mask src]
  exact OperandSize.adjust_add (size.toNat_and_mask_lt dest) (size.toNat_and_mask_lt src) carry

theorem follows_addWithCarry (size : OperandSize) (dest src : UInt64) (carry : Bool) :
    (addWithCarry size dest src carry).2.Follows size (addWithCarry size dest src carry).1 :=
  Status.follows_ofResult (size.toNat_and_mask_lt _) _ _ _

/-! ## Steps by one -/

/-- The sum with one or the difference from one that a step is made of. -/
def stepByOne (dec : Bool) (size : OperandSize) (value : UInt64) : UInt64 × Status :=
  if dec then subWithBorrow size value 1 false else addWithCarry size value 1 false

/-- The number that a step adds: one, or minus one. -/
def stepOf (dec : Bool) : Int :=
  if dec then -1 else 1

section Step

variable (dec : Bool) (size : OperandSize) (value : UInt64)

theorem toInt_stepByOne :
    ((stepByOne dec size value).1.toNat : Int) =
      ((value.toNat % 2 ^ size.bits : Nat) + stepOf dec) % 2 ^ size.bits := by
  cases dec with
  | false =>
    have h := toNat_addWithCarry size value 1 false
    rw [size.one_mod] at h
    show ((addWithCarry size value 1 false).1.toNat : Int) = _
    rw [h]
    push_cast
    rfl
  | true =>
    have h := toInt_subWithBorrow size value 1 false
    rw [size.one_mod] at h
    show ((subWithBorrow size value 1 false).1.toNat : Int) = _
    rw [h]
    simp [stepOf, Int.sub_eq_add_neg]

theorem overflow_stepByOne :
    (stepByOne dec size value).2.overflow = true ↔
      ¬ size.Fits (size.signed value + stepOf dec) := by
  cases dec with
  | false =>
    have h := overflow_addWithCarry size value 1 false
    rw [size.signed_one] at h
    simpa [stepByOne, stepOf] using h
  | true =>
    have h := overflow_subWithBorrow_false size value 1
    rw [size.signed_one, Int.sub_eq_add_neg] at h
    simpa [stepByOne, stepOf] using h

theorem adjust_stepByOne :
    (stepByOne dec size value).2.adjust = true ↔
      if dec then value.toNat % 2 ^ size.bits % 16 < 1
      else 15 < value.toNat % 2 ^ size.bits % 16 + 1 := by
  cases dec with
  | false =>
    have h := adjust_addWithCarry size value 1 false
    rw [size.one_mod] at h
    simpa [stepByOne] using h
  | true =>
    have h := adjust_subWithBorrow_false size value 1
    rw [size.one_mod] at h
    simpa [stepByOne] using h

theorem follows_stepByOne :
    (stepByOne dec size value).2.Follows size (stepByOne dec size value).1 := by
  cases dec with
  | false => exact follows_addWithCarry size value 1 false
  | true => exact follows_subWithBorrow size value 1 false

theorem incDec_eq (flags : UInt64) :
    incDec dec size flags value =
      ((stepByOne dec size value).1,
        RFlags.merge ((stepByOne dec size value).2.store flags) RFlags.carry flags) :=
  rfl

/-- A step has the flags of the sum or the difference, but for the carry, which it keeps. -/
theorem ofFlags_incDec (flags : UInt64) :
    Status.ofFlags (incDec dec size flags value).2 =
      { (stepByOne dec size value).2 with carry := (Status.ofFlags flags).carry } := by
  rw [incDec_eq, Status.ofFlags_merge_carry]

end Step

/-! ## All operands -/

/-- **Addition with carry, and steps by one.** Operands are taken modulo two to the width. The
    result of an addition is the sum, the carry flag is the carry out of it, the overflow flag is
    set if the signed sum does not fit, the adjust flag is the carry out of the low nibble, and
    parity, zero and sign follow the result. A step up or down has the result and the flags of
    adding or taking away one without a carry, but keeps the carry flag. No other flag changes. -/
theorem addWithCarry_incDec_exact (size : OperandSize) (dest src : UInt64) (carry dec : Bool)
    (flags : UInt64) :
    let d := dest.toNat % 2 ^ size.bits
    let s := src.toNat % 2 ^ size.bits
    let sum := (addWithCarry size dest src carry).1
    let after := (addWithCarry size dest src carry).2.store flags
    let stepped := (incDec dec size flags dest).1
    let after' := (incDec dec size flags dest).2
    (sum.toNat = (d + s + carry.toNat) % 2 ^ size.bits ∧
      ((Status.ofFlags after).carry = true ↔ 2 ^ size.bits ≤ d + s + carry.toNat) ∧
      ((Status.ofFlags after).overflow = true ↔
        ¬ size.Fits (size.signed dest + size.signed src + carry.toNat)) ∧
      ((Status.ofFlags after).adjust = true ↔ 15 < d % 16 + s % 16 + carry.toNat) ∧
      (Status.ofFlags after).Follows size sum ∧
      after &&& ~~~RFlags.status = flags &&& ~~~RFlags.status) ∧
    ((stepped.toNat : Int) = (d + stepOf dec) % 2 ^ size.bits ∧
      (Status.ofFlags after').carry = (Status.ofFlags flags).carry ∧
      ((Status.ofFlags after').overflow = true ↔ ¬ size.Fits (size.signed dest + stepOf dec)) ∧
      ((Status.ofFlags after').adjust = true ↔ if dec then d % 16 < 1 else 15 < d % 16 + 1) ∧
      (Status.ofFlags after').Follows size stepped ∧
      after' &&& ~~~RFlags.status = flags &&& ~~~RFlags.status) := by
  intro d s sum after stepped after'
  have hafter : Status.ofFlags after = (addWithCarry size dest src carry).2 :=
    Status.ofFlags_store _ flags
  have hafter' : Status.ofFlags after' =
      { (stepByOne dec size dest).2 with carry := (Status.ofFlags flags).carry } :=
    ofFlags_incDec dec size dest flags
  have hfollows := follows_stepByOne dec size dest
  rw [hafter, hafter']
  constructor
  · exact ⟨toNat_addWithCarry size dest src carry, carry_addWithCarry size dest src carry,
      overflow_addWithCarry size dest src carry, adjust_addWithCarry size dest src carry,
      follows_addWithCarry size dest src carry, Status.store_and_not_status _ flags⟩
  · refine ⟨toInt_stepByOne dec size dest, rfl, overflow_stepByOne dec size dest,
      adjust_stepByOne dec size dest, ⟨hfollows.zero, hfollows.sign, hfollows.parity⟩, ?_⟩
    show RFlags.merge ((stepByOne dec size dest).2.store flags) RFlags.carry flags &&& _ = _
    rw [RFlags.merge_and_of_disjoint _ _ (by decide) (by decide), Status.store_and_not_status]

end X86Replay

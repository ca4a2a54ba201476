import X86Replay.Flags.Arithmetic
import X86Replay.Proofs.Packing
import X86Replay.Proofs.SameMode
import Mathlib.Algebra.Group.Nat.Even
import Mathlib.Data.Nat.Bitwise

/-!
# Words of an operand size and their status flags

Words are cut to an operand size by masks and looked at through single bits. Here both are read as
arithmetic on natural numbers and integers.

* `OperandSize.toInt_sub_mask`: differences are taken modulo two to the width.
* `OperandSize.signed_eq_ite`: the signed value of a word.
* `and_bit_ne_zero`, `testBit_top`: what masks of one bit look at.
* `Status.ofFlags_store`, `Status.store_and_not_status`: storing status flags replaces these flags
  and no others.
* `Status.follows_ofResult`: parity, zero and sign are those of the result.
-/

namespace X86Replay

/-! ## Single bits -/

/-- A mask of one bit looks at that bit. -/
theorem and_bit_ne_zero {bit : UInt64} {k : Nat} (hbit : bit.toNat = 2 ^ k) (v : UInt64) :
    (v &&& bit != 0) = v.toNat.testBit k := by
  have hzero : v &&& bit = 0 ↔ v.toNat.testBit k = false := by
    rw [← UInt64.toNat_inj, UInt64.toNat_and, hbit, Nat.and_two_pow]
    cases v.toNat.testBit k <;> simp
  cases hv : v.toNat.testBit k with
  | false => rw [bne_eq_false_iff_eq, hzero, hv]
  | true => simp [hzero, hv]

/-- The top bit tells the upper half of the numbers of a width from the lower one. -/
theorem testBit_top {x k : Nat} (h : x < 2 * 2 ^ k) : x.testBit k = decide (2 ^ k ≤ x) := by
  by_cases hx : 2 ^ k ≤ x
  · rw [Nat.testBit_of_two_pow_le_and_two_pow_add_one_gt hx (by rwa [Nat.pow_succ'])]
    simp [hx]
  · rw [Nat.testBit_lt_two_pow (by omega)]
    simp [hx]

theorem xor_iff (p q : Bool) : (p ^^ q) = true ↔ ¬ (p = true ↔ q = true) := by
  cases p <;> cases q <;> decide

/-- The upper half of the words of a width stands for the negative numbers. -/
theorem toInt_eq_ite {n : Nat} (x : BitVec (n + 1)) :
    x.toInt = if x.toNat < 2 ^ n then (x.toNat : Int) else x.toNat - 2 ^ (n + 1) := by
  rw [BitVec.toInt_eq_toNat_cond]
  split_ifs <;> push_cast <;> omega

/-! ## Operand sizes -/

namespace OperandSize

variable (size : OperandSize)

/-- Half of the values of a size are negative. -/
theorem two_pow_bits : 2 ^ size.bits = 2 * 2 ^ (size.bits - 1) := by
  cases size <;> rfl

/-- All sizes are made of whole nibbles. -/
theorem sixteen_dvd : 16 ∣ 2 ^ (size.bits - 1) := by
  cases size <;> decide

theorem two_pow_bits_dvd : 2 ^ size.bits ∣ 2 ^ 64 := by
  apply Nat.pow_dvd_pow
  cases size <;> decide

theorem toNat_signBit : size.signBit.toNat = 2 ^ (size.bits - 1) := by
  cases size <;> rfl

theorem toNat_and_mask (v : UInt64) : (v &&& size.mask).toNat = v.toNat % 2 ^ size.bits :=
  X86Replay.toNat_and_mask size.bits (by cases size <;> rfl)

theorem toNat_and_mask_lt (v : UInt64) : (v &&& size.mask).toNat < 2 * 2 ^ (size.bits - 1) := by
  rw [toNat_and_mask, ← two_pow_bits]
  exact Nat.mod_lt _ (Nat.two_pow_pos _)

theorem toNat_add_mask (x y : UInt64) :
    ((x + y) &&& size.mask).toNat = (x.toNat + y.toNat) % 2 ^ size.bits := by
  rw [toNat_and_mask, UInt64.toNat_add, Nat.mod_mod_of_dvd _ size.two_pow_bits_dvd]

theorem toInt_sub_mask (x y : UInt64) :
    (((x - y) &&& size.mask).toNat : Int) = ((x.toNat : Int) - y.toNat) % 2 ^ size.bits := by
  have hy := y.toNat_lt
  obtain ⟨c, hc⟩ := size.two_pow_bits_dvd
  have hsum : ((2 ^ 64 - y.toNat + x.toNat : Nat) : Int) =
      (x.toNat - y.toNat) + 2 ^ size.bits * c := by
    have hc' : (2 ^ 64 : Int) = 2 ^ size.bits * c := by exact_mod_cast hc
    rw [← hc']
    omega
  rw [toNat_and_mask, UInt64.toNat_sub, Nat.mod_mod_of_dvd _ size.two_pow_bits_dvd,
    Int.natCast_emod, hsum]
  push_cast
  rw [Int.add_mul_emod_self_left]

/-- The signed value of the low bits of a word, as a number. -/
def signed (v : UInt64) : Int :=
  (size.signExtend v).toInt

/-- Whether a number is the signed value of an operand of this size. -/
def Fits (x : Int) : Prop :=
  -2 ^ (size.bits - 1) ≤ x ∧ x < 2 ^ (size.bits - 1)

instance : DecidablePred size.Fits := fun _ =>
  inferInstanceAs (Decidable (_ ∧ _))

/-- The upper half of the values of a size stands for the negative ones. -/
theorem signed_eq_ite (v : UInt64) :
    size.signed v =
      if v.toNat % 2 ^ size.bits < 2 ^ (size.bits - 1) then ((v.toNat % 2 ^ size.bits : Nat) : Int)
      else (v.toNat % 2 ^ size.bits : Nat) - 2 ^ size.bits := by
  cases size with
  | bits8 => exact (Int8.toInt_toInt64 _).trans (toInt_eq_ite v.toUInt8.toBitVec)
  | bits16 => exact (Int16.toInt_toInt64 _).trans (toInt_eq_ite v.toUInt16.toBitVec)
  | bits32 => exact (Int32.toInt_toInt64 _).trans (toInt_eq_ite v.toUInt32.toBitVec)
  | bits64 =>
    have hmod : v.toNat % 2 ^ OperandSize.bits64.bits = v.toNat := Nat.mod_eq_of_lt v.toNat_lt
    rw [hmod]
    exact toInt_eq_ite v.toBitVec

theorem signed_and_mask (v : UInt64) : size.signed (v &&& size.mask) = size.signed v := by
  rw [signed_eq_ite, signed_eq_ite, toNat_and_mask, Nat.mod_mod]

/-- A word that has been cut to the size. -/
theorem signed_of_lt {v : UInt64} (h : v.toNat < 2 * 2 ^ (size.bits - 1)) :
    size.signed v =
      if v.toNat < 2 ^ (size.bits - 1) then (v.toNat : Int)
      else v.toNat - (2 * 2 ^ (size.bits - 1) : Nat) := by
  rw [← two_pow_bits] at h ⊢
  rw [signed_eq_ite, Nat.mod_eq_of_lt h, Int.natCast_pow]
  rfl

end OperandSize

/-! ## Flags in RFLAGS -/

namespace RFlags

/-- The flags that arithmetic sets: CF, PF, AF, ZF, SF and OF. -/
def status : UInt64 :=
  carry ||| parity ||| adjust ||| zero ||| sign ||| overflow

theorem has_put_self {mask : UInt64} (h : mask ≠ 0) (f : UInt64) (on : Bool) :
    has (put f mask on) mask = on := by
  unfold has put
  cases on with
  | false => simp [UInt64.and_assoc]
  | true =>
    have hmask : (f ||| mask) &&& mask = mask := by
      rw [← UInt64.toNat_inj]
      apply Nat.eq_of_testBit_eq
      intro i
      simp only [UInt64.toNat_and, UInt64.toNat_or, Nat.testBit_and, Nat.testBit_or]
      cases mask.toNat.testBit i <;> simp
    simp [hmask, h]

theorem has_put_of_disjoint {mask bit : UInt64} (f : UInt64) (on : Bool) (h : mask &&& bit = 0)
    (h' : ~~~mask &&& bit = bit) : has (put f mask on) bit = has f bit := by
  unfold has
  rw [put_and_of_disjoint f mask on h h']

theorem has_merge_self (f mask image : UInt64) :
    has (merge f mask image) mask = has image mask := by
  have hclear : f &&& ~~~mask &&& mask = 0 := by
    rw [UInt64.and_assoc, UInt64.not_and_self, UInt64.and_zero]
  unfold has
  rw [merge, UInt64.or_comm, or_and_of_disjoint hclear, UInt64.and_assoc, UInt64.and_self]

theorem has_merge_of_disjoint {mask bit : UInt64} (f image : UInt64) (h : mask &&& bit = 0)
    (h' : ~~~mask &&& bit = bit) : has (merge f mask image) bit = has f bit := by
  unfold has
  rw [merge_and_of_disjoint f image h h']

end RFlags

namespace Status

/-- The status flags of an image of RFLAGS. -/
def ofFlags (flags : UInt64) : Status where
  carry := RFlags.has flags RFlags.carry
  parity := RFlags.has flags RFlags.parity
  adjust := RFlags.has flags RFlags.adjust
  zero := RFlags.has flags RFlags.zero
  sign := RFlags.has flags RFlags.sign
  overflow := RFlags.has flags RFlags.overflow

/-- Stored status flags are read back. -/
@[simp]
theorem ofFlags_store (s : Status) (flags : UInt64) : ofFlags (s.store flags) = s := by
  simp (disch := decide) only [ofFlags, store, RFlags.has_put_self, RFlags.has_put_of_disjoint]

/-- Stored status flags are read back, except for a carry that is taken from elsewhere. -/
theorem ofFlags_merge_carry (s : Status) (flags image : UInt64) :
    ofFlags (RFlags.merge (s.store flags) RFlags.carry image) =
      { s with carry := (ofFlags image).carry } := by
  have hread : { s with carry := (ofFlags image).carry } =
      { ofFlags (s.store flags) with carry := (ofFlags image).carry } := by
    rw [ofFlags_store]
  rw [hread]
  simp (disch := decide) only [ofFlags, RFlags.has_merge_self, RFlags.has_merge_of_disjoint]

/-- Storing status flags leaves all other bits alone. -/
theorem store_and_not_status (s : Status) (flags : UInt64) :
    s.store flags &&& ~~~RFlags.status = flags &&& ~~~RFlags.status := by
  simp (disch := decide) only [store, RFlags.put_and_of_disjoint]

/-! ## Flags of a result -/

/-- Parity, zero and sign are those of a result of the given size. -/
structure Follows (s : Status) (size : OperandSize) (result : UInt64) : Prop where
  zero : s.zero = true ↔ result = 0
  sign : s.sign = true ↔ 2 ^ (size.bits - 1) ≤ result.toNat
  parity : s.parity = true ↔ Even ((List.range 8).filter fun i => result.toNat.testBit i).length

theorem evenParity_toUInt8 (v : UInt64) :
    evenParity v.toUInt8 = true ↔
      Even ((List.range 8).filter fun i => v.toNat.testBit i).length := by
  have hbits : ((List.range 8).filter fun i => v.toUInt8.toNat.testBit i) =
      (List.range 8).filter fun i => v.toNat.testBit i := by
    apply List.filter_congr
    intro i hi
    rw [UInt64.toNat_toUInt8, Nat.testBit_mod_two_pow]
    simp [List.mem_range.1 hi]
  unfold evenParity
  rw [hbits, Nat.even_iff, beq_iff_eq]

theorem follows_ofResult {size : OperandSize} {result : UInt64}
    (h : result.toNat < 2 * 2 ^ (size.bits - 1)) (carry adjust overflow : Bool) :
    (ofResult size result carry adjust overflow).Follows size result where
  zero := beq_iff_eq
  sign := by
    show (result &&& size.signBit != 0) = true ↔ _
    rw [and_bit_ne_zero size.toNat_signBit, testBit_top h, decide_eq_true_iff]
  parity := evenParity_toUInt8 result

end Status

end X86Replay

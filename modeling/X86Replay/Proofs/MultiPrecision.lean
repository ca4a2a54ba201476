import X86Replay.Proofs.Addition
import Mathlib.Data.Nat.Digits.Lemmas

/-!
# Numbers of many limbs

An addition on the lowest limbs and additions with carry on all others add numbers of any length;
subtractions with borrow take them away from each other. The carry flag is all that passes from one
limb to the next.

* `aluLimbs`, `aluChain`: one operation on the first pair of limbs and another one on the rest.
* `limbsValue`: the number that limbs stand for.
* `CarriesTo`: two lists of digits add up to a third one, digit by digit. The sum is the first
  operand of a difference.
* `carriesTo_adc`, `carriesTo_sbb`: what a chain of operations preserves from limb to limb.
* `aluChain_exact`: sums and differences, for all operands.
-/

namespace X86Replay

/-! ## Chains of operations -/

/-- An operation on each pair of limbs, the least significant one first, with RFLAGS passed on: the
    limbs of the result and RFLAGS after the last one. -/
def aluLimbs (op : AluOp) (size : OperandSize) :
    UInt64 → List (UInt64 × UInt64) → List UInt64 × UInt64
  | flags, [] => ([], flags)
  | flags, (a, b) :: limbs =>
    let (r, flags) := alu op size flags a b
    let (rs, flags) := aluLimbs op size flags limbs
    (r :: rs, flags)

/-- An operation on the first pair of limbs, and another one on all that follow. -/
def aluChain (op next : AluOp) (size : OperandSize) (flags : UInt64) :
    List (UInt64 × UInt64) → List UInt64 × UInt64
  | [] => ([], flags)
  | (a, b) :: limbs =>
    let (r, flags) := alu op size flags a b
    let (rs, flags) := aluLimbs next size flags limbs
    (r :: rs, flags)

/-- The digits that limbs of a size stand for. -/
def digits (size : OperandSize) (limbs : List UInt64) : List Nat :=
  limbs.map fun l => l.toNat % 2 ^ size.bits

/-- The number that limbs of a size stand for, the least significant one first. -/
def limbsValue (size : OperandSize) (limbs : List UInt64) : Nat :=
  Nat.ofDigits (2 ^ size.bits) (digits size limbs)

theorem limbsValue_lt (size : OperandSize) (limbs : List UInt64) :
    limbsValue size limbs < (2 ^ size.bits) ^ limbs.length := by
  have hbase : 1 < 2 ^ size.bits := by cases size <;> decide
  have hdigits : ∀ d ∈ digits size limbs, d < 2 ^ size.bits := by
    intro d hd
    obtain ⟨l, -, rfl⟩ := List.mem_map.1 hd
    exact Nat.mod_lt _ (Nat.two_pow_pos _)
  have hlt := Nat.ofDigits_lt_base_pow_length hbase hdigits
  rwa [digits, List.length_map] at hlt

/-! ## Digits that add up -/

/-- Two lists of digits and a carry add up to a third list, digit by digit, and leave a carry. -/
inductive CarriesTo (base : Nat) : Bool → List Nat → List Nat → List Nat → Bool → Prop
  | nil (carry : Bool) : CarriesTo base carry [] [] [] carry
  | cons {carry next last : Bool} {x y z : Nat} {xs ys zs : List Nat} :
      x + y + carry.toNat = z + base * next.toNat → CarriesTo base next xs ys zs last →
      CarriesTo base carry (x :: xs) (y :: ys) (z :: zs) last

/-- **What holds of each digit holds of the numbers.** -/
theorem CarriesTo.ofDigits {base : Nat} {carry last : Bool} {xs ys zs : List Nat}
    (h : CarriesTo base carry xs ys zs last) :
    Nat.ofDigits base xs + Nat.ofDigits base ys + carry.toNat =
      Nat.ofDigits base zs + base ^ zs.length * last.toNat := by
  induction h with
  | nil carry => simp
  | @cons carry next last x y z xs ys zs hdigit _ ih =>
    simp only [Nat.ofDigits_cons, List.length_cons]
    calc
      x + base * Nat.ofDigits base xs + (y + base * Nat.ofDigits base ys) + carry.toNat
          = (x + y + carry.toNat) + base * (Nat.ofDigits base xs + Nat.ofDigits base ys) := by ring
      _ = z + base * (Nat.ofDigits base xs + Nat.ofDigits base ys + next.toNat) := by
        rw [hdigit]
        ring
      _ = z + base * Nat.ofDigits base zs + base ^ (zs.length + 1) * last.toNat := by
        rw [ih]
        ring

/-! ## One limb -/

section Limb

variable (size : OperandSize) (flags a b : UInt64) (carry : Bool)

/-- The result and the carry of an addition are the exact sum. -/
theorem sum_conserved :
    a.toNat % 2 ^ size.bits + b.toNat % 2 ^ size.bits + carry.toNat =
      (addWithCarry size a b carry).1.toNat +
        2 ^ size.bits * (addWithCarry size a b carry).2.carry.toNat := by
  have ha := Nat.mod_lt a.toNat (Nat.two_pow_pos size.bits)
  have hb := Nat.mod_lt b.toNat (Nat.two_pow_pos size.bits)
  have hc := carry.toNat_le
  have hresult := toNat_addWithCarry size a b carry
  have hcarry := carry_addWithCarry size a b carry
  generalize (addWithCarry size a b carry).2.carry = out at *
  generalize a.toNat % 2 ^ size.bits = x, b.toNat % 2 ^ size.bits = y at *
  generalize 2 ^ size.bits = base at *
  cases out with
  | false =>
    have hlt : x + y + carry.toNat < base := by simpa using hcarry
    rw [hresult, Nat.mod_eq_of_lt hlt, Bool.toNat_false, Nat.mul_zero, Nat.add_zero]
  | true =>
    have hge : base ≤ x + y + carry.toNat := hcarry.1 rfl
    rw [hresult, Nat.mod_eq_sub_mod hge, Nat.mod_eq_of_lt (by omega), Bool.toNat_true, Nat.mul_one]
    omega

/-- The result of a subtraction and what has been taken away are the first operand and the
    borrow. -/
theorem difference_conserved :
    (subWithBorrow size a b carry).1.toNat + b.toNat % 2 ^ size.bits + carry.toNat =
      a.toNat % 2 ^ size.bits +
        2 ^ size.bits * (subWithBorrow size a b carry).2.carry.toNat := by
  have ha := Nat.mod_lt a.toNat (Nat.two_pow_pos size.bits)
  have hb := Nat.mod_lt b.toNat (Nat.two_pow_pos size.bits)
  have hc := carry.toNat_le
  have hresult := toInt_subWithBorrow size a b carry
  have hcarry := carry_subWithBorrow size a b carry
  have hbase : (2 : Int) ^ size.bits = (2 ^ size.bits : Nat) := by push_cast; rfl
  rw [hbase] at hresult
  generalize (subWithBorrow size a b carry).2.carry = out at *
  generalize a.toNat % 2 ^ size.bits = x, b.toNat % 2 ^ size.bits = y at *
  generalize 2 ^ size.bits = base at *
  cases out with
  | false =>
    have hge : y + carry.toNat ≤ x := by simpa using hcarry
    rw [Int.emod_eq_of_lt (by omega) (by omega)] at hresult
    rw [Bool.toNat_false, Nat.mul_zero]
    omega
  | true =>
    have hlt : x < y + carry.toNat := hcarry.1 rfl
    rw [← Int.add_emod_right, Int.emod_eq_of_lt (by omega) (by omega)] at hresult
    rw [Bool.toNat_true, Nat.mul_one]
    omega

theorem carry_alu (op : AluOp) :
    RFlags.has (alu op size flags a b).2 RFlags.carry = (op.apply size flags a b).2.carry :=
  congrArg Status.carry (Status.ofFlags_store _ flags)

/-- A result is cut to the operand size. -/
theorem alu_lt (op : AluOp) : (alu op size flags a b).1.toNat < 2 ^ size.bits := by
  rw [size.two_pow_bits]
  cases op with
  | add | adc | sub | sbb | cmp | and | or | xor => exact size.toNat_and_mask_lt _

/-- One digit of a sum. -/
theorem digit_sum (op : AluOp) (h : op.apply size flags a b = addWithCarry size a b carry) :
    a.toNat % 2 ^ size.bits + b.toNat % 2 ^ size.bits + carry.toNat =
      (alu op size flags a b).1.toNat % 2 ^ size.bits +
        2 ^ size.bits * (RFlags.has (alu op size flags a b).2 RFlags.carry).toNat := by
  have hresult : (alu op size flags a b).1 = (op.apply size flags a b).1 := rfl
  rw [Nat.mod_eq_of_lt (alu_lt size flags a b op), carry_alu, hresult, h]
  exact sum_conserved size a b carry

/-- One digit of a difference. -/
theorem digit_difference (op : AluOp) (h : op.apply size flags a b = subWithBorrow size a b carry) :
    (alu op size flags a b).1.toNat % 2 ^ size.bits + b.toNat % 2 ^ size.bits + carry.toNat =
      a.toNat % 2 ^ size.bits +
        2 ^ size.bits * (RFlags.has (alu op size flags a b).2 RFlags.carry).toNat := by
  have hresult : (alu op size flags a b).1 = (op.apply size flags a b).1 := rfl
  rw [Nat.mod_eq_of_lt (alu_lt size flags a b op), carry_alu, hresult, h]
  exact difference_conserved size a b carry

end Limb

/-! ## All limbs -/

section Limbs

variable (size : OperandSize) (flags : UInt64) (limbs : List (UInt64 × UInt64))

theorem length_aluLimbs (op : AluOp) : (aluLimbs op size flags limbs).1.length = limbs.length := by
  induction limbs generalizing flags with
  | nil => rfl
  | cons p limbs ih => exact congrArg (· + 1) (ih _)

theorem aluLimbs_lt (op : AluOp) :
    ∀ r ∈ (aluLimbs op size flags limbs).1, r.toNat < 2 ^ size.bits := by
  induction limbs generalizing flags with
  | nil =>
    intro r hr
    cases hr
  | cons p limbs ih =>
    rintro r (_ | ⟨_, hr⟩)
    · exact alu_lt size flags p.1 p.2 op
    · exact ih _ r hr

/-- **Additions with carry add digit by digit**, the flag being the carry. -/
theorem carriesTo_adc :
    CarriesTo (2 ^ size.bits) (RFlags.has flags RFlags.carry) (digits size (limbs.map Prod.fst))
      (digits size (limbs.map Prod.snd)) (digits size (aluLimbs .adc size flags limbs).1)
      (RFlags.has (aluLimbs .adc size flags limbs).2 RFlags.carry) := by
  induction limbs generalizing flags with
  | nil => exact .nil _
  | cons p limbs ih =>
    have hdigit := digit_sum size flags p.1 p.2 (RFlags.has flags RFlags.carry) .adc rfl
    exact CarriesTo.cons hdigit (ih _)

/-- **Subtractions with borrow subtract digit by digit**: result and second operand add up to the
    first one. -/
theorem carriesTo_sbb :
    CarriesTo (2 ^ size.bits) (RFlags.has flags RFlags.carry)
      (digits size (aluLimbs .sbb size flags limbs).1) (digits size (limbs.map Prod.snd))
      (digits size (limbs.map Prod.fst))
      (RFlags.has (aluLimbs .sbb size flags limbs).2 RFlags.carry) := by
  induction limbs generalizing flags with
  | nil => exact .nil _
  | cons p limbs ih =>
    have hdigit := digit_difference size flags p.1 p.2 (RFlags.has flags RFlags.carry) .sbb rfl
    exact CarriesTo.cons hdigit (ih _)

end Limbs

/-! ## Chains -/

section Chain

variable (size : OperandSize) (flags : UInt64) (first : UInt64 × UInt64)
  (rest : List (UInt64 × UInt64))

theorem carriesTo_addChain :
    CarriesTo (2 ^ size.bits) false (digits size ((first :: rest).map Prod.fst))
      (digits size ((first :: rest).map Prod.snd))
      (digits size (aluChain .add .adc size flags (first :: rest)).1)
      (RFlags.has (aluChain .add .adc size flags (first :: rest)).2 RFlags.carry) :=
  CarriesTo.cons (digit_sum size flags first.1 first.2 false .add rfl) (carriesTo_adc size _ rest)

theorem carriesTo_subChain :
    CarriesTo (2 ^ size.bits) false
      (digits size (aluChain .sub .sbb size flags (first :: rest)).1)
      (digits size ((first :: rest).map Prod.snd)) (digits size ((first :: rest).map Prod.fst))
      (RFlags.has (aluChain .sub .sbb size flags (first :: rest)).2 RFlags.carry) :=
  CarriesTo.cons (digit_difference size flags first.1 first.2 false .sub rfl)
    (carriesTo_sbb size _ rest)

theorem length_aluChain (op next : AluOp) :
    (aluChain op next size flags (first :: rest)).1.length = (first :: rest).length :=
  congrArg (· + 1) (length_aluLimbs size _ rest next)

theorem aluChain_lt (op next : AluOp) :
    ∀ r ∈ (aluChain op next size flags (first :: rest)).1, r.toNat < 2 ^ size.bits := by
  rintro r (_ | ⟨_, hr⟩)
  · exact alu_lt size flags first.1 first.2 op
  · exact aluLimbs_lt size _ rest next r hr

/-- The limbs and the carry of a sum are the exact sum. -/
theorem addChain_conserved :
    limbsValue size ((first :: rest).map Prod.fst) +
        limbsValue size ((first :: rest).map Prod.snd) =
      limbsValue size (aluChain .add .adc size flags (first :: rest)).1 +
        2 ^ (size.bits * (first :: rest).length) *
          (RFlags.has (aluChain .add .adc size flags (first :: rest)).2 RFlags.carry).toNat := by
  have h := (carriesTo_addChain size flags first rest).ofDigits
  rw [Bool.toNat_false, Nat.add_zero, digits.eq_def size (aluChain _ _ _ _ _).1, List.length_map,
    length_aluChain, ← pow_mul] at h
  exact h

/-- The limbs of a difference and the second number are the first number and the borrow. -/
theorem subChain_conserved :
    limbsValue size (aluChain .sub .sbb size flags (first :: rest)).1 +
        limbsValue size ((first :: rest).map Prod.snd) =
      limbsValue size ((first :: rest).map Prod.fst) +
        2 ^ (size.bits * (first :: rest).length) *
          (RFlags.has (aluChain .sub .sbb size flags (first :: rest)).2 RFlags.carry).toNat := by
  have h := (carriesTo_subChain size flags first rest).ofDigits
  rw [Bool.toNat_false, Nat.add_zero, digits.eq_def size ((first :: rest).map Prod.fst),
    List.length_map, List.length_map, ← pow_mul] at h
  exact h

end Chain

/-! ## Carries and borrows -/

section Modulus

variable {result total a b modulus : Nat} {carry : Bool}

/-- A carry tells whether a sum has been cut. -/
theorem carry_iff (h : total = result + modulus * carry.toNat) (hlt : result < modulus) :
    carry = true ↔ modulus ≤ total := by
  cases carry with
  | false =>
    rw [Bool.toNat_false, Nat.mul_zero] at h
    simp only [Bool.false_eq_true, false_iff]
    omega
  | true =>
    rw [Bool.toNat_true, Nat.mul_one] at h
    simp only [true_iff]
    omega

/-- A borrow tells whether more has been taken away than there was. -/
theorem borrow_iff (h : result + b = a + modulus * carry.toNat) (hlt : result < modulus) :
    carry = true ↔ a < b := by
  cases carry with
  | false =>
    rw [Bool.toNat_false, Nat.mul_zero] at h
    simp only [Bool.false_eq_true, false_iff]
    omega
  | true =>
    rw [Bool.toNat_true, Nat.mul_one] at h
    simp only [true_iff]
    omega

theorem emod_of_borrow (h : result + b = a + modulus * carry.toNat) (hlt : result < modulus) :
    (result : Int) = ((a : Int) - b) % modulus := by
  have hint : (a : Int) - b = result - modulus * carry.toNat := by
    have hcast := congrArg (Nat.cast : Nat → Int) h
    push_cast at hcast
    linarith
  rw [hint, Int.sub_mul_emod_self_left]
  exact (Int.emod_eq_of_lt (Int.natCast_nonneg _) (by exact_mod_cast hlt)).symm

end Modulus

/-! ## All operands -/

/-- **Arithmetic on numbers of many limbs.** An addition on the lowest limbs and additions with
    carry on the others give the limbs of the sum, and a carry if the sum has one limb more. A
    subtraction and subtractions with borrow give the limbs of the difference, and a carry if the
    first number is less than the second. -/
theorem aluChain_exact (size : OperandSize) (flags : UInt64) (first : UInt64 × UInt64)
    (rest : List (UInt64 × UInt64)) :
    let pairs := first :: rest
    let modulus := 2 ^ (size.bits * pairs.length)
    let a := limbsValue size (pairs.map Prod.fst)
    let b := limbsValue size (pairs.map Prod.snd)
    let sum := aluChain .add .adc size flags pairs
    let difference := aluChain .sub .sbb size flags pairs
    (sum.1.length = pairs.length ∧ (∀ r ∈ sum.1, r.toNat < 2 ^ size.bits) ∧
      limbsValue size sum.1 = (a + b) % modulus ∧
      (RFlags.has sum.2 RFlags.carry = true ↔ modulus ≤ a + b)) ∧
    (difference.1.length = pairs.length ∧ (∀ r ∈ difference.1, r.toNat < 2 ^ size.bits) ∧
      (limbsValue size difference.1 : Int) = ((a : Int) - b) % modulus ∧
      (RFlags.has difference.2 RFlags.carry = true ↔ a < b)) := by
  intro pairs modulus a b sum difference
  have hbelow {limbs : List UInt64} (h : limbs.length = pairs.length) :
      limbsValue size limbs < modulus := by
    have hlt := limbsValue_lt size limbs
    rwa [← pow_mul, h] at hlt
  have hlengths := length_aluChain size flags first rest
  have hlimbs := aluChain_lt size flags first rest
  have hsum : a + b = limbsValue size sum.1 + modulus * (RFlags.has sum.2 RFlags.carry).toNat :=
    addChain_conserved size flags first rest
  have hdifference : limbsValue size difference.1 + b =
      a + modulus * (RFlags.has difference.2 RFlags.carry).toNat :=
    subChain_conserved size flags first rest
  have hsumLt : limbsValue size sum.1 < modulus := hbelow (hlengths .add .adc)
  have hdifferenceLt : limbsValue size difference.1 < modulus := hbelow (hlengths .sub .sbb)
  constructor
  · refine ⟨hlengths _ _, hlimbs _ _, ?_, carry_iff hsum hsumLt⟩
    rw [hsum, Nat.add_mul_mod_self_left, Nat.mod_eq_of_lt hsumLt]
  · exact ⟨hlengths _ _, hlimbs _ _, emod_of_borrow hdifference hdifferenceLt,
      borrow_iff hdifference hdifferenceLt⟩

end X86Replay

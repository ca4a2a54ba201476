import X86Replay.Proofs.StatusFlags
import Mathlib.Data.Nat.Digits.Lemmas

/-!
# Bytes as numbers

Fields of an encoding and operands in memory are strings of bytes, the least significant one first.

* `unsignedValue`, `signedValue`: the numbers that such a string stands for.
* `toNat_wordOfBytes`, `signed_wordOfBytes`: what a word made from bytes is as a number.
* `unsignedValue_bytesOfWord`, `getElem_bytesOfWord`: what the bytes of a word are.
-/

namespace X86Replay

/-- The number that bytes stand for, least significant byte first. -/
def unsignedValue (bytes : List UInt8) : Nat :=
  Nat.ofDigits 256 (bytes.map UInt8.toNat)

/-- The number that bytes stand for in two's complement, least significant byte first. -/
def signedValue (bytes : List UInt8) : Int :=
  if 2 * unsignedValue bytes < 256 ^ bytes.length then unsignedValue bytes
  else unsignedValue bytes - 256 ^ bytes.length

theorem unsignedValue_cons (b : UInt8) (bytes : List UInt8) :
    unsignedValue (b :: bytes) = b.toNat + 256 * unsignedValue bytes := by
  rw [unsignedValue, List.map_cons, Nat.ofDigits_cons, unsignedValue]

theorem unsignedValue_lt (bytes : List UInt8) : unsignedValue bytes < 256 ^ bytes.length := by
  have hdigits : ∀ d ∈ bytes.map UInt8.toNat, d < 256 := by
    intro d hd
    obtain ⟨b, -, rfl⟩ := List.mem_map.1 hd
    exact b.toNat_lt
  have hlt := Nat.ofDigits_lt_base_pow_length (by decide : 1 < 256) hdigits
  rwa [List.length_map] at hlt

/-! ## Words made from bytes -/

theorem toNat_wordOfBytes {bytes : List UInt8} (h : bytes.length ≤ 8) :
    (wordOfBytes bytes).toNat = unsignedValue bytes := by
  induction bytes with
  | nil => rfl
  | cons b bytes ih =>
    rw [List.length_cons] at h
    have hlt : unsignedValue bytes < 2 ^ 56 := by
      refine (unsignedValue_lt bytes).trans_le ?_
      rw [show (2 : Nat) ^ 56 = 256 ^ 7 from rfl]
      exact Nat.pow_le_pow_right (by decide) (by omega)
    rw [toNat_wordOfBytes_cons, ih (by omega), unsignedValue_cons, Nat.mod_eq_of_lt hlt]
    omega

theorem OperandSize.bytes_le_eight (size : OperandSize) : size.bytes ≤ 8 := by
  cases size <;> decide

/-- The sign of an operand is the sign of its bytes. -/
theorem signed_wordOfBytes {size : OperandSize} {bytes : List UInt8}
    (h : bytes.length = size.bytes) : size.signed (wordOfBytes bytes) = signedValue bytes := by
  have hle : bytes.length ≤ 8 := h ▸ size.bytes_le_eight
  have hpow : 256 ^ bytes.length = 2 ^ size.bits := by
    rw [h, OperandSize.bits, Nat.mul_comm, Nat.pow_mul]
  have hhalf := size.two_pow_bits
  have hlt := unsignedValue_lt bytes
  rw [hpow] at hlt
  rw [OperandSize.signed_eq_ite, toNat_wordOfBytes hle, Nat.mod_eq_of_lt hlt, signedValue, hpow]
  congr 1
  · rw [hhalf]
    simp
  · have hpow' : (256 : Int) ^ bytes.length = 2 ^ size.bits := by exact_mod_cast hpow
    rw [hpow']

/-! ## Bytes of words -/

theorem toNat_shiftRight_eight (v : UInt64) : (v >>> 8).toNat = v.toNat / 256 :=
  toNat_shiftRight 8 rfl (by decide)

/-- The first bytes of a word are those of its lower part. -/
theorem take_bytesOfWord_of_le {n k : Nat} (h : n ≤ k) (v : UInt64) :
    (bytesOfWord k v).take n = bytesOfWord n v := by
  induction n generalizing k v with
  | zero => rfl
  | succ n ih =>
    obtain ⟨k, rfl⟩ : ∃ k', k = k' + 1 := ⟨k - 1, by omega⟩
    rw [bytesOfWord, bytesOfWord, List.take_succ_cons, ih (Nat.le_of_succ_le_succ h)]

theorem unsignedValue_bytesOfWord (n : Nat) (v : UInt64) :
    unsignedValue (bytesOfWord n v) = v.toNat % 256 ^ n := by
  induction n generalizing v with
  | zero => rw [Nat.pow_zero, Nat.mod_one]; rfl
  | succ n ih =>
    rw [bytesOfWord, unsignedValue_cons, ih, toNat_shiftRight_eight, Nat.pow_succ', Nat.mod_mul,
      UInt64.toNat_toUInt8]

theorem getElem_bytesOfWord {n i : Nat} (v : UInt64) (h : i < (bytesOfWord n v).length) :
    (bytesOfWord n v)[i].toNat = v.toNat / 256 ^ i % 256 := by
  induction n generalizing v i with
  | zero => cases h
  | succ n ih =>
    cases i with
    | zero =>
      show v.toUInt8.toNat = _
      rw [UInt64.toNat_toUInt8, Nat.pow_zero, Nat.div_one]
    | succ i =>
      have h' : i < (bytesOfWord n (v >>> 8)).length := Nat.lt_of_succ_lt_succ h
      show (bytesOfWord n (v >>> 8))[i].toNat = _
      rw [ih _ h', toNat_shiftRight_eight, Nat.div_div_eq_div_mul, Nat.pow_succ']

end X86Replay

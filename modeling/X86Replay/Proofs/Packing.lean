import X86Replay.Block.Compile
import X86Replay.Proofs.Decoding
import Mathlib.Algebra.Group.Nat.Defs

/-!
# Packed operands come back as they were

What the compiler of a block writes into the words of a call is what the handler reads from them.

* `RegisterOperand.unpack_pack`, `RegisterOperand.unpackWith_packWith`: registers.
* `AddressForm.unpack_pack`: the form of any address that an encoding can name.
* `take_unpackBytes_packBytes`: up to sixteen raw bytes.
* `unpackBytes_deferredCall`: the raw bytes of an instruction.
-/

namespace X86Replay

/-! ## Fields of a word -/

/-- A field joined to the `k` bits below it adds to their number. -/
theorem toNat_or_shiftLeft {x y n : UInt64} (k : Nat) (hn : n.toNat = k) (hk : k < 64)
    (hx : x.toNat < 2 ^ k) (hy : y.toNat * 2 ^ k < 2 ^ 64) :
    (x ||| (y <<< n)).toNat = x.toNat + 2 ^ k * y.toNat := by
  rw [UInt64.toNat_or, UInt64.toNat_shiftLeft, hn, Nat.mod_eq_of_lt hk, Nat.shiftLeft_eq,
    Nat.mod_eq_of_lt hy, Nat.mul_comm, Nat.or_comm, ← Nat.two_pow_add_eq_or_of_lt hx, Nat.add_comm]

/-- The number from bit `k` on. -/
theorem toNat_shiftRight {x n : UInt64} (k : Nat) (hn : n.toNat = k) (hk : k < 64) :
    (x >>> n).toNat = x.toNat / 2 ^ k := by
  rw [UInt64.toNat_shiftRight, hn, Nat.mod_eq_of_lt hk, Nat.shiftRight_eq_div_pow]

/-- The number in the low `k` bits. -/
theorem toNat_and_mask {x mask : UInt64} (k : Nat) (hmask : mask.toNat = 2 ^ k - 1) :
    (x &&& mask).toNat = x.toNat % 2 ^ k := by
  rw [UInt64.toNat_and, hmask, Nat.and_two_pow_sub_one_eq_mod]

theorem toUInt8_toUInt64 (b : UInt8) : b.toUInt64.toUInt8 = b := by
  have hb := b.toNat_lt
  rw [← UInt8.toNat_inj, UInt64.toNat_toUInt8, UInt8.toNat_toUInt64]
  omega

/-! ## Registers -/

namespace RegisterOperand

theorem toNat_step (s : OperandSize) : s.step.toNat = s.bytes.toUInt8.toNat := by
  cases s <;> decide

theorem toNat_pack (r : RegisterOperand) :
    r.pack.toNat = r.ref.toNat + 256 * r.size.bytes.toUInt8.toNat := by
  have href := r.ref.toNat_lt
  have hsize := r.size.bytes.toUInt8.toNat_lt
  have hstep := toNat_step r.size
  have hnum : r.ref.toUInt64.toNat = r.ref.toNat := UInt8.toNat_toUInt64 _
  rw [pack, toNat_or_shiftLeft 8 rfl (by decide) (by omega) (by omega)]
  omega

theorem unpack_pack (r : RegisterOperand) : unpack r.pack = r := by
  have href := r.ref.toNat_lt
  have hsize := r.size.bytes.toUInt8.toNat_lt
  have h := toNat_pack r
  have hlow : r.pack.toUInt8 = r.ref := by
    rw [← UInt8.toNat_inj, UInt64.toNat_toUInt8]
    omega
  have hhigh : (r.pack >>> 8).toUInt8 = r.size.bytes.toUInt8 := by
    rw [← UInt8.toNat_inj, UInt64.toNat_toUInt8, toNat_shiftRight 8 rfl (by decide)]
    omega
  rw [unpack, hlow, hhigh, OperandSize.ofBytes?_bytes]
  rfl

theorem unpackWith_packWith (r : RegisterOperand) (extra : UInt8) :
    unpackWith (r.packWith extra) = (r, extra) := by
  have href := r.ref.toNat_lt
  have hsize := r.size.bytes.toUInt8.toNat_lt
  have hextra := extra.toNat_lt
  have hnum : extra.toUInt64.toNat = extra.toNat := UInt8.toNat_toUInt64 _
  have hpack := toNat_pack r
  have h : (r.packWith extra).toNat = r.pack.toNat + 65536 * extra.toNat := by
    rw [packWith, toNat_or_shiftLeft 16 rfl (by decide) (by omega) (by omega)]
    omega
  have hlow : r.packWith extra &&& 0xFFFF = r.pack := by
    rw [← UInt64.toNat_inj, toNat_and_mask 16 rfl]
    omega
  have hhigh : (r.packWith extra >>> 16).toUInt8 = extra := by
    rw [← UInt8.toNat_inj, UInt64.toNat_toUInt8, toNat_shiftRight 16 rfl (by decide)]
    omega
  rw [unpackWith, hlow, hhigh, unpack_pack]

end RegisterOperand

/-! ## Addresses -/

namespace AddressForm

/-- The number of a register field. -/
def registerCode (r : Option UInt8) : UInt64 :=
  r.elim noRegister UInt8.toUInt64

theorem toNat_registerCode_lt {r : Option UInt8} (h : ∀ n ∈ r, n.toNat < 16) :
    (registerCode r).toNat < 32 := by
  cases r with
  | none => decide
  | some n =>
    have hn := h n rfl
    show n.toUInt64.toNat < 32
    rw [UInt8.toNat_toUInt64]
    omega

theorem registerOfCode_registerCode {r : Option UInt8} (h : ∀ n ∈ r, n.toNat < 16) :
    registerOfCode (registerCode r) = r := by
  cases r with
  | none => rfl
  | some n =>
    have hne : n.toUInt64 ≠ noRegister := by
      rw [Ne, ← UInt64.toNat_inj, UInt8.toNat_toUInt64]
      have hn := h n rfl
      show ¬n.toNat = 31
      omega
    show registerOfCode n.toUInt64 = some n
    rw [registerOfCode, if_neg hne, toUInt8_toUInt64]

theorem sizeOfCode_sizeCode (s : AddressSize) : sizeOfCode (sizeCode s) = s := by
  cases s <;> rfl

/-- The fields of a packed form do not overlap. -/
theorem toNat_pack {m : MemoryOperand} (h : m.Encodable) (size : AddressSize) :
    (ofOperand m size).pack.toNat = (registerCode m.base).toNat + 32 * (registerCode m.index).toNat
      + 1024 * trailingZeros m.scale + 4096 * m.segment.index.toNat
      + 32768 * (sizeCode size).toNat + 131072 * m.ripRelative.toNat := by
  have hbase := toNat_registerCode_lt h.base
  have hindex := toNat_registerCode_lt h.index
  have hscale : trailingZeros m.scale < 4 := by
    obtain h | h | h | h := h.scale <;> rw [h] <;> decide
  have hzeros : (trailingZeros m.scale).toUInt64.toNat = trailingZeros m.scale :=
    UInt64.toNat_ofNat_of_lt' (by show _ < 2 ^ 64; omega)
  have hsegment : m.segment.index.toNat < 8 := by cases m.segment <;> decide
  have hseg : m.segment.index.toUInt64.toNat = m.segment.index.toNat := UInt8.toNat_toUInt64 _
  have hsize : (sizeCode size).toNat < 4 := by cases size <;> decide
  have hrip : m.ripRelative.toUInt64.toNat = m.ripRelative.toNat := by
    cases m.ripRelative <;> rfl
  have hripLt : m.ripRelative.toNat < 2 := by cases m.ripRelative <;> decide
  -- One field after the other, each above all those before it.
  show (((((registerCode m.base ||| (registerCode m.index <<< 5))
    ||| ((trailingZeros m.scale).toUInt64 <<< 10)) ||| (m.segment.index.toUInt64 <<< 12))
    ||| (sizeCode size <<< 15)) ||| (m.ripRelative.toUInt64 <<< 17)).toNat = _
  have h₁ := toNat_or_shiftLeft (x := registerCode m.base) (y := registerCode m.index) (n := 5) 5
    rfl (by decide) (by omega) (by omega)
  generalize registerCode m.base ||| (registerCode m.index <<< 5) = x₁ at h₁ ⊢
  have h₂ := toNat_or_shiftLeft (x := x₁) (y := (trailingZeros m.scale).toUInt64) (n := 10) 10
    rfl (by decide) (by omega) (by omega)
  generalize x₁ ||| ((trailingZeros m.scale).toUInt64 <<< 10) = x₂ at h₂ ⊢
  have h₃ := toNat_or_shiftLeft (x := x₂) (y := m.segment.index.toUInt64) (n := 12) 12
    rfl (by decide) (by omega) (by omega)
  generalize x₂ ||| (m.segment.index.toUInt64 <<< 12) = x₃ at h₃ ⊢
  have h₄ := toNat_or_shiftLeft (x := x₃) (y := sizeCode size) (n := 15) 15
    rfl (by decide) (by omega) (by omega)
  generalize x₃ ||| (sizeCode size <<< 15) = x₄ at h₄ ⊢
  rw [toNat_or_shiftLeft 17 rfl (by decide) (by omega) (by omega)]
  omega

/-- **A form that an encoding can name survives packing.** -/
theorem unpack_pack {m : MemoryOperand} (h : m.Encodable) (size : AddressSize) :
    unpack (ofOperand m size).pack = ofOperand m size := by
  have hpack := toNat_pack h size
  have hbase := toNat_registerCode_lt h.base
  have hindex := toNat_registerCode_lt h.index
  have hscale : trailingZeros m.scale < 4 ∧
      (1 : UInt8) <<< (trailingZeros m.scale).toUInt8 = m.scale := by
    obtain h | h | h | h := h.scale <;> rw [h] <;> decide
  have hsegment : m.segment.index.toNat < 8 := by cases m.segment <;> decide
  have hsize : (sizeCode size).toNat < 4 := by cases size <;> decide
  have hrip : m.ripRelative.toNat < 2 := by cases m.ripRelative <;> decide
  -- The packed form is a sum of digits, so each field is a quotient modulo the size of its digit.
  have hb : (ofOperand m size).pack &&& 0x1F = registerCode m.base := by
    rw [← UInt64.toNat_inj, toNat_and_mask 5 rfl]
    omega
  have hi : ((ofOperand m size).pack >>> 5) &&& 0x1F = registerCode m.index := by
    rw [← UInt64.toNat_inj, toNat_and_mask 5 rfl, toNat_shiftRight 5 rfl (by decide)]
    omega
  have hs : (((ofOperand m size).pack >>> 10) &&& 3).toUInt8 = (trailingZeros m.scale).toUInt8 := by
    rw [← UInt8.toNat_inj, UInt64.toNat_toUInt8, toNat_and_mask 2 rfl,
      toNat_shiftRight 10 rfl (by decide), Nat.toUInt8, UInt8.toNat_ofNat']
    omega
  have hg : (((ofOperand m size).pack >>> 12) &&& 7).toUInt8 = m.segment.index := by
    rw [← UInt8.toNat_inj, UInt64.toNat_toUInt8, toNat_and_mask 3 rfl,
      toNat_shiftRight 12 rfl (by decide)]
    omega
  have hz : ((ofOperand m size).pack >>> 15) &&& 3 = sizeCode size := by
    rw [← UInt64.toNat_inj, toNat_and_mask 2 rfl, toNat_shiftRight 15 rfl (by decide)]
    omega
  have hr : (((ofOperand m size).pack >>> 17) &&& 1 != 0) = m.ripRelative := by
    have h1 : (((ofOperand m size).pack >>> 17) &&& 1).toNat = m.ripRelative.toNat := by
      rw [toNat_and_mask 1 rfl, toNat_shiftRight 17 rfl (by decide)]
      omega
    have h2 : ((ofOperand m size).pack >>> 17) &&& 1 = m.ripRelative.toUInt64 := by
      rw [← UInt64.toNat_inj, h1]
      cases m.ripRelative <;> rfl
    rw [h2]
    cases m.ripRelative <;> rfl
  unfold unpack
  rw [hb, hi, hs, hg, hz, hr, registerOfCode_registerCode h.base,
    registerOfCode_registerCode h.index, sizeOfCode_sizeCode, SegmentName.ofIndex?_index, hscale.2]
  rfl

end AddressForm

/-! ## Raw bytes -/

/-- Words that agree in their low `n` bytes have the same bytes there. -/
theorem bytesOfWord_congr (n : Nat) {v w : UInt64}
    (h : v.toNat % 256 ^ n = w.toNat % 256 ^ n) : bytesOfWord n v = bytesOfWord n w := by
  induction n generalizing v w with
  | zero => rfl
  | succ n ih =>
    rw [Nat.pow_succ'] at h
    have hlow : v.toUInt8 = w.toUInt8 := by
      rw [← UInt8.toNat_inj, UInt64.toNat_toUInt8, UInt64.toNat_toUInt8]
      have := congrArg (· % 256) h
      simpa [Nat.mod_mul_right_mod] using this
    have hhigh : (v >>> 8).toNat % 256 ^ n = (w >>> 8).toNat % 256 ^ n := by
      rw [toNat_shiftRight 8 rfl (by decide), toNat_shiftRight 8 rfl (by decide)]
      have := congrArg (· / 256) h
      simpa [Nat.mod_mul_right_div_self] using this
    rw [bytesOfWord, bytesOfWord, hlow, ih hhigh]

/-- A word with one more byte below it, whose top byte is shifted out. -/
theorem toNat_wordOfBytes_cons (b : UInt8) (bytes : List UInt8) :
    (wordOfBytes (b :: bytes)).toNat = 256 * ((wordOfBytes bytes).toNat % 2 ^ 56) + b.toNat := by
  have hb := b.toNat_lt
  have hshift : (wordOfBytes bytes <<< 8).toNat = 2 ^ 8 * ((wordOfBytes bytes).toNat % 2 ^ 56) := by
    rw [UInt64.toNat_shiftLeft, Nat.shiftLeft_eq]
    show _ * 256 % 2 ^ 64 = _
    omega
  rw [wordOfBytes, UInt64.toNat_or, UInt8.toNat_toUInt64, hshift, Nat.or_comm,
    ← Nat.two_pow_add_eq_or_of_lt (by omega)]

/-- The bytes of a word that was made from bytes. -/
theorem take_bytesOfWord {n : Nat} (hn : n ≤ 8) (bytes : List UInt8) :
    (bytesOfWord n (wordOfBytes bytes)).take bytes.length = bytes.take n := by
  induction n generalizing bytes with
  | zero => simp [bytesOfWord]
  | succ n ih =>
    cases bytes with
    | nil => rfl
    | cons b bs =>
      have hb := b.toNat_lt
      have hword := toNat_wordOfBytes_cons b bs
      have hlow : (wordOfBytes (b :: bs)).toUInt8 = b := by
        rw [← UInt8.toNat_inj, UInt64.toNat_toUInt8, hword]
        omega
      have hhigh : bytesOfWord n (wordOfBytes (b :: bs) >>> 8) =
          bytesOfWord n (wordOfBytes bs) := by
        refine bytesOfWord_congr n ?_
        have hdvd : 256 ^ n ∣ 2 ^ 56 := by
          rw [show (2 : Nat) ^ 56 = 256 ^ 7 from rfl]
          exact Nat.pow_dvd_pow 256 (by omega)
        rw [toNat_shiftRight 8 rfl (by decide), hword,
          show (256 * ((wordOfBytes bs).toNat % 2 ^ 56) + b.toNat) / 2 ^ 8
            = (wordOfBytes bs).toNat % 2 ^ 56 by omega, Nat.mod_mod_of_dvd _ hdvd]
      rw [bytesOfWord, hlow, hhigh, List.length_cons, List.take_succ_cons, List.take_succ_cons,
        ih (by omega)]

/-- **Up to sixteen bytes survive packing.** -/
theorem take_unpackBytes_packBytes {bytes : List UInt8} (h : bytes.length ≤ 16) :
    (unpackBytes (packBytes bytes).1 (packBytes bytes).2).take bytes.length = bytes := by
  have hlow := take_bytesOfWord (le_refl 8) bytes
  have hhigh := take_bytesOfWord (le_refl 8) (bytes.drop 8)
  rw [List.length_drop, List.take_of_length_le (l := bytes.drop 8)
    (by rw [List.length_drop]; omega)] at hhigh
  show (bytesOfWord 8 (wordOfBytes bytes) ++ bytesOfWord 8 (wordOfBytes (bytes.drop 8))).take
    bytes.length = bytes
  rw [List.take_append, hlow, length_bytesOfWord, hhigh, List.take_append_drop]

/-- The raw bytes of an instruction come back from their call as they are. -/
theorem unpackBytes_deferredCall {bytes : List UInt8} (h : bytes.length ≤ maxInstructionLength)
    (offset : Nat) :
    (unpackBytes (deferredCall bytes offset).p0 (deferredCall bytes offset).p1).take
      (deferredCall bytes offset).p2.toNat = bytes := by
  have hlength : bytes.length.toUInt64.toNat = bytes.length :=
    UInt64.toNat_ofNat_of_lt' (by unfold maxInstructionLength at h; show _ < 2 ^ 64; omega)
  show (unpackBytes (packBytes bytes).1 (packBytes bytes).2).take bytes.length.toUInt64.toNat =
    bytes
  rw [hlength]
  exact take_unpackBytes_packBytes (Nat.le_succ_of_le h)

end X86Replay

/-!
# Widths of code, operands and addresses

* `CodeWidth`: the width of the code segment, which selects the decoding rules and the range of
  the instruction pointer.
* `OperandSize`: the width of a data operand, with its mask and sign extension.
* `AddressSize`: the width of an effective address.

Names in parentheses are those in the emulator, here in its modules `inst`, `state` and `compile`.
-/

namespace X86Replay

/-! ## Code -/

/-- The width of the code segment that instructions are decoded for (`DecodeMode`). -/
inductive CodeWidth where
  | bits16
  | bits32
  | bits64
deriving DecidableEq, Repr

namespace CodeWidth

/-- The width in bits (`bitness`). -/
def bits : CodeWidth → Nat
  | .bits16 => 16
  | .bits32 => 32
  | .bits64 => 64

/-- The code width of `n` bits (`from_bitness`). -/
def ofBits? : Nat → Option CodeWidth
  | 16 => some .bits16
  | 32 => some .bits32
  | 64 => some .bits64
  | _ => none

/-- The largest instruction pointer that straight-line code of this width reaches; after it the
    pointer wraps to zero (`ip_limit`). -/
def ipLimit : CodeWidth → UInt64
  | .bits16 => 0xFFFF
  | .bits32 => 0xFFFFFFFF
  | .bits64 => 0xFFFFFFFFFFFFFFFF

/-- The bits of RIP that a load of the instruction pointer keeps (`ip_mask`). Code of 16 bits keeps
    32, as a 32-bit branch in it may set them. -/
def ripMask : CodeWidth → UInt64
  | .bits16 => 0xFFFFFFFF
  | .bits32 => 0xFFFFFFFF
  | .bits64 => 0xFFFFFFFFFFFFFFFF

theorem ofBits?_bits (w : CodeWidth) : ofBits? w.bits = some w := by
  cases w <;> rfl

end CodeWidth

/-! ## Operands -/

/-- The width of a data operand (`OperandSize`). -/
inductive OperandSize where
  | bits8
  | bits16
  | bits32
  | bits64
deriving DecidableEq, Repr

namespace OperandSize

/-- The width in bytes (`bytes`). -/
def bytes : OperandSize → Nat
  | .bits8 => 1
  | .bits16 => 2
  | .bits32 => 4
  | .bits64 => 8

/-- The width in bits (`bits`). -/
def bits (s : OperandSize) : Nat :=
  s.bytes * 8

/-- The operand size of `n` bytes (`from_bytes`). -/
def ofBytes? : UInt8 → Option OperandSize
  | 1 => some .bits8
  | 2 => some .bits16
  | 4 => some .bits32
  | 8 => some .bits64
  | _ => none

/-- The bits of a register slot that an operand of this size occupies (`mask`). -/
def mask : OperandSize → UInt64
  | .bits8 => 0xFF
  | .bits16 => 0xFFFF
  | .bits32 => 0xFFFFFFFF
  | .bits64 => 0xFFFFFFFFFFFFFFFF

/-- The most significant bit of an operand of this size (`sign_bit`). -/
def signBit : OperandSize → UInt64
  | .bits8 => 0x80
  | .bits16 => 0x8000
  | .bits32 => 0x80000000
  | .bits64 => 0x8000000000000000

/-- The size in bytes as a word, for pointer arithmetic. -/
def step (s : OperandSize) : UInt64 :=
  s.bytes.toUInt64

/-- The signed value of the low bits of `v` that an operand of this size occupies
    (`sign_extend`). -/
def signExtend (s : OperandSize) (v : UInt64) : Int64 :=
  match s with
  | .bits8 => v.toUInt8.toInt8.toInt64
  | .bits16 => v.toUInt16.toInt16.toInt64
  | .bits32 => v.toUInt32.toInt32.toInt64
  | .bits64 => v.toInt64

theorem ofBytes?_bytes (s : OperandSize) : ofBytes? s.bytes.toUInt8 = some s := by
  cases s <;> rfl

end OperandSize

/-! ## Addresses -/

/-- The width of an effective address (`AddressSize`). -/
inductive AddressSize where
  | bits16
  | bits32
  | bits64
deriving DecidableEq, Repr

namespace AddressSize

/-- The width in bytes (`bytes`). -/
def bytes : AddressSize → Nat
  | .bits16 => 2
  | .bits32 => 4
  | .bits64 => 8

/-- The width in bits. -/
def bits (s : AddressSize) : Nat :=
  s.bytes * 8

/-- The bits that an address of this size keeps (`mask`). -/
def mask : AddressSize → UInt64
  | .bits16 => 0xFFFF
  | .bits32 => 0xFFFFFFFF
  | .bits64 => 0xFFFFFFFFFFFFFFFF

/-- The operand size of a register that counts or points with this address size. -/
def operandSize : AddressSize → OperandSize
  | .bits16 => .bits16
  | .bits32 => .bits32
  | .bits64 => .bits64

end AddressSize

end X86Replay

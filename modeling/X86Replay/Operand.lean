import X86Replay.Bytes
import X86Replay.Cpu.Basic

/-!
# Packed operands

Operands travel as words between the compiler of a block and its replay.

* `RegisterOperand`: a register reference and a size, in bits 0 to 15.
* `AddressForm`: the registers, scale, segment and size of an address, all but its displacement, in
  bits 0 to 17; and the segment offset it stands for.
* `packBytes`: up to sixteen raw bytes in two words.

Names in parentheses are those in the emulator, here in its module `threaded`.
-/

namespace X86Replay

/-! ## Registers -/

/-- A register reference with the size at which it is read or written (`RegDesc`). -/
structure RegisterOperand where
  ref : UInt8
  size : OperandSize
deriving DecidableEq, Repr

namespace RegisterOperand

/-- The operand as a word (`pack`). -/
def pack (r : RegisterOperand) : UInt64 :=
  r.ref.toUInt64 ||| (r.size.step <<< 8)

/-- The operand in a word (`unpack`). A size that is none stands for 64 bits. -/
def unpack (raw : UInt64) : RegisterOperand :=
  ⟨raw.toUInt8, (OperandSize.ofBytes? (raw >>> 8).toUInt8).getD .bits64⟩

/-- The operand as a word, with a small number in bits 16 to 23 (`pack_reg_with`). -/
def packWith (r : RegisterOperand) (extra : UInt8) : UInt64 :=
  r.pack ||| (extra.toUInt64 <<< 16)

/-- The operand in a word and the small number in its bits 16 to 23 (`unpack_reg_with`). -/
def unpackWith (raw : UInt64) : RegisterOperand × UInt8 :=
  (unpack (raw &&& 0xFFFF), (raw >>> 16).toUInt8)

end RegisterOperand

/-! ## Addresses -/

/-- The form of an address: `segment:[base + index * scale]`, or the next instruction in place of
    the base (`EaDesc`). -/
structure AddressForm where
  base : Option UInt8
  index : Option UInt8
  scale : UInt8
  segment : SegmentName
  size : AddressSize
  ripRelative : Bool
deriving DecidableEq, Repr

namespace AddressForm

/-- The form of a memory operand (`from_mem`). -/
def ofOperand (m : MemoryOperand) (size : AddressSize) : AddressForm :=
  ⟨m.base, m.index, m.scale, m.segment, size, m.ripRelative⟩

/-- The segment offset of an address with a displacement, in an instruction that `nextRip` follows
    (`offset`). -/
def offset (a : AddressForm) (cpu : Cpu) (displacement : Int64) (nextRip : UInt64) : UInt64 :=
  let base := if a.ripRelative then nextRip else a.base.elim 0 cpu.gprAt
  let index := a.index.elim 0 fun r => cpu.gprAt r * a.scale.toUInt64
  (base + index + displacement.toUInt64) &&& a.size.mask

/-- The number that stands for no register (`EA_NO_REG`). -/
def noRegister : UInt64 := 0x1F

/-- The number of zero bits below the lowest set bit, eight for zero. -/
def trailingZeros (b : UInt8) : Nat :=
  ((List.range 8).takeWhile fun i => !b.toNat.testBit i).length

/-- The number that stands for an address size. -/
def sizeCode : AddressSize → UInt64
  | .bits16 => 0
  | .bits32 => 1
  | .bits64 => 2

/-- The address size that a number stands for. -/
def sizeOfCode (n : UInt64) : AddressSize :=
  if n = 0 then .bits16 else if n = 1 then .bits32 else .bits64

/-- The form as a word (`pack`). -/
def pack (a : AddressForm) : UInt64 :=
  a.base.elim noRegister UInt8.toUInt64
    ||| (a.index.elim noRegister UInt8.toUInt64 <<< 5)
    ||| ((trailingZeros a.scale).toUInt64 <<< 10)
    ||| (a.segment.index.toUInt64 <<< 12)
    ||| (sizeCode a.size <<< 15)
    ||| (a.ripRelative.toUInt64 <<< 17)

/-- The register that a number stands for. -/
def registerOfCode (n : UInt64) : Option UInt8 :=
  if n = noRegister then none else some n.toUInt8

/-- The form in a word (`unpack`). A segment number that is none stands for DS. -/
def unpack (raw : UInt64) : AddressForm where
  base := registerOfCode (raw &&& 0x1F)
  index := registerOfCode ((raw >>> 5) &&& 0x1F)
  scale := (1 : UInt8) <<< ((raw >>> 10) &&& 3).toUInt8
  segment := (SegmentName.ofIndex? ((raw >>> 12) &&& 7).toUInt8).getD .ds
  size := sizeOfCode ((raw >>> 15) &&& 3)
  ripRelative := (raw >>> 17) &&& 1 != 0

end AddressForm

/-! ## Raw bytes -/

/-- Up to sixteen bytes as two words, least significant byte first (`pack_bytes`). -/
def packBytes (bytes : List UInt8) : UInt64 × UInt64 :=
  (wordOfBytes bytes, wordOfBytes (bytes.drop 8))

/-- The sixteen bytes of two words (`unpack_bytes`). -/
def unpackBytes (low high : UInt64) : List UInt8 :=
  bytesOfWord 8 low ++ bytesOfWord 8 high

end X86Replay

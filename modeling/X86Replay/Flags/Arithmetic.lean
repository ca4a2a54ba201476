import X86Replay.Flags.Basic
import X86Replay.Instruction.Basic

/-!
# Arithmetic with status flags

Operands are words of which only the low bits of the operand size count. Each operation yields a
result of that size and the six status flags; no other flag depends on it.

* `addWithCarry`, `subWithBorrow`, `logicResult`: the three kinds of result.
* `alu`: the eight two-operand operations on RFLAGS.
* `incDec`: adding or subtracting one, with the carry flag kept.

Names in parentheses are those in the emulator, here in its module `alu`.
-/

namespace X86Replay

/-! ## Status flags -/

/-- The status flags of a result. -/
structure Status where
  carry : Bool
  parity : Bool
  adjust : Bool
  zero : Bool
  sign : Bool
  overflow : Bool
deriving DecidableEq, Repr

/-- RFLAGS with its status flags replaced. -/
def Status.store (s : Status) (flags : UInt64) : UInt64 :=
  let flags := RFlags.put flags RFlags.carry s.carry
  let flags := RFlags.put flags RFlags.parity s.parity
  let flags := RFlags.put flags RFlags.adjust s.adjust
  let flags := RFlags.put flags RFlags.zero s.zero
  let flags := RFlags.put flags RFlags.sign s.sign
  RFlags.put flags RFlags.overflow s.overflow

/-- Whether the number of set bits in `b` is even (`parity`). -/
def evenParity (b : UInt8) : Bool :=
  ((List.range 8).filter fun i => b.toNat.testBit i).length % 2 == 0

/-- The status flags of a result of the given size, where the operation decides carry, adjust and
    overflow. -/
def Status.ofResult (size : OperandSize) (result : UInt64) (carry adjust overflow : Bool) :
    Status where
  carry := carry
  parity := evenParity result.toUInt8
  adjust := adjust
  zero := result == 0
  sign := result &&& size.signBit != 0
  overflow := overflow

/-! ## Results -/

/-- `dest + src + carryIn` (`add_with_flags`). -/
def addWithCarry (size : OperandSize) (dest src : UInt64) (carryIn : Bool) : UInt64 × Status :=
  let d := dest &&& size.mask
  let s := src &&& size.mask
  let result := (d + s + carryIn.toUInt64) &&& size.mask
  (result,
    .ofResult size result
      (size.mask.toNat < d.toNat + s.toNat + carryIn.toNat)
      ((d ^^^ s ^^^ result) &&& 0x10 != 0)
      ((d ^^^ result) &&& (s ^^^ result) &&& size.signBit != 0))

/-- `dest - src - borrowIn` (`sub_with_flags`). Adjust and overflow are those of subtracting
    `src + borrowIn`, taken at the operand size. -/
def subWithBorrow (size : OperandSize) (dest src : UInt64) (borrowIn : Bool) : UInt64 × Status :=
  let d := dest &&& size.mask
  let s := src &&& size.mask
  let subtrahend := (s + borrowIn.toUInt64) &&& size.mask
  let result := (d - subtrahend) &&& size.mask
  (result,
    .ofResult size result
      (d.toNat < s.toNat + borrowIn.toNat)
      ((d ^^^ subtrahend ^^^ result) &&& 0x10 != 0)
      ((d ^^^ subtrahend) &&& (d ^^^ result) &&& size.signBit != 0))

/-- The low bits of `value`, as the result of an operation without carries (`logic_with_flags`). -/
def logicResult (size : OperandSize) (value : UInt64) : UInt64 × Status :=
  let result := value &&& size.mask
  (result, .ofResult size result false false false)

/-! ## Operations on RFLAGS -/

/-- The result and status flags of a two-operand operation under `flags`. A comparison yields the
    difference. -/
def AluOp.apply (op : AluOp) (size : OperandSize) (flags dest src : UInt64) : UInt64 × Status :=
  let carry := RFlags.has flags RFlags.carry
  match op with
  | .add => addWithCarry size dest src false
  | .adc => addWithCarry size dest src carry
  | .sub | .cmp => subWithBorrow size dest src false
  | .sbb => subWithBorrow size dest src carry
  | .and => logicResult size (dest &&& src)
  | .or => logicResult size (dest ||| src)
  | .xor => logicResult size (dest ^^^ src)

/-- The result of a two-operand operation and RFLAGS after it (`alu`). -/
def alu (op : AluOp) (size : OperandSize) (flags dest src : UInt64) : UInt64 × UInt64 :=
  let (result, status) := op.apply size flags dest src
  (result, status.store flags)

/-- `value` plus one, or minus one if `dec`, and RFLAGS after it with the carry flag kept
    (`inc_dec`). -/
def incDec (dec : Bool) (size : OperandSize) (flags value : UInt64) : UInt64 × UInt64 :=
  let (result, status) :=
    if dec then subWithBorrow size value 1 false else addWithCarry size value 1 false
  (result, RFlags.merge (status.store flags) RFlags.carry flags)

end X86Replay

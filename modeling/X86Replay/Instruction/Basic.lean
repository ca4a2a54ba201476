import X86Replay.Width

/-!
# Decoded instructions

* `Prefixes`, `ModRM`, `RmOperand`: the parts of an encoding.
* `Operation`: what an opcode does, as far as the interpreter models it, and `BlockEffect`: what it
  means for a straight-line run of instructions.
* `Instruction`: a whole decoded instruction with the operands read off its parts.

Registers are numbered in encoding order `rAX rCX rDX rBX rSP rBP rSI rDI r8 … r15`.

Names in parentheses are those in the emulator, here in its modules `inst` and `opcode_tables`.
-/

namespace X86Replay

/-! ## Segments -/

/-- The name of a segment register, in encoding order (`SegmentReg`). -/
inductive SegmentName where
  | es
  | cs
  | ss
  | ds
  | fs
  | gs
deriving DecidableEq, Repr

namespace SegmentName

/-- All segment registers in encoding order (`ALL`). -/
def all : List SegmentName :=
  [.es, .cs, .ss, .ds, .fs, .gs]

/-- The number that encodes the segment register (`index`). -/
def index : SegmentName → UInt8
  | .es => 0
  | .cs => 1
  | .ss => 2
  | .ds => 3
  | .fs => 4
  | .gs => 5

/-- The segment register that a number encodes (`from_index`). -/
def ofIndex? : UInt8 → Option SegmentName
  | 0 => some .es
  | 1 => some .cs
  | 2 => some .ss
  | 3 => some .ds
  | 4 => some .fs
  | 5 => some .gs
  | _ => none

theorem ofIndex?_index (s : SegmentName) : ofIndex? s.index = some s := by
  cases s <;> rfl

end SegmentName

/-! ## Prefixes -/

/-- A REX prefix, kept as its byte (`RexPrefix`). -/
structure Rex where
  byte : UInt8
deriving DecidableEq, Repr

namespace Rex

/-- REX.W: 64-bit operands (`w`). -/
def w (r : Rex) : Bool := r.byte &&& 8 != 0

/-- REX.R: the high bit of ModRM.reg (`r`). -/
def r (r : Rex) : Bool := r.byte &&& 4 != 0

/-- REX.X: the high bit of the index register (`x`). -/
def x (r : Rex) : Bool := r.byte &&& 2 != 0

/-- REX.B: the high bit of ModRM.rm, of the base register or of a register in the opcode (`b`). -/
def b (r : Rex) : Bool := r.byte &&& 1 != 0

end Rex

/-- A repeat prefix (`RepPrefix`). -/
inductive Repeat where
  | rep
  | repne
deriving DecidableEq, Repr

/-- What the prefixes of an instruction ask for (`Prefixes`). -/
structure Prefixes where
  /-- The bus is locked. -/
  lock : Bool := false
  /-- The last repeat prefix. -/
  rep : Option Repeat := none
  /-- The last segment override that has an effect. -/
  segment : Option SegmentName := none
  /-- The other operand size is meant. -/
  otherOperandSize : Bool := false
  /-- The other address size is meant. -/
  otherAddressSize : Bool := false
  /-- The REX prefix right before the opcode. -/
  rex : Option Rex := none
deriving DecidableEq, Repr

namespace Prefixes

/-- Whether a REX prefix is present whose bit `f` is set. -/
def rexBit (p : Prefixes) (f : Rex → Bool) : Bool :=
  p.rex.any f

/-- The register number `n` extended by the REX bit `f`. -/
def extend (p : Prefixes) (f : Rex → Bool) (n : UInt8) : UInt8 :=
  n ||| (if p.rexBit f then 8 else 0)

end Prefixes

/-! ## Operands -/

/-- The fields of a ModRM byte, without their REX extensions (`ModRm`). -/
structure ModRM where
  mode : UInt8
  reg : UInt8
  rm : UInt8
deriving DecidableEq, Repr

/-- The fields of the ModRM byte `b` (`from_byte`). -/
def ModRM.ofByte (b : UInt8) : ModRM :=
  ⟨b >>> 6, (b >>> 3) &&& 7, b &&& 7⟩

/-- A memory operand: `segment:[base + index * scale + displacement]` (`MemOperand`). -/
structure MemoryOperand where
  base : Option UInt8
  index : Option UInt8
  scale : UInt8
  displacement : Int64
  /-- The address counts from the end of the instruction. -/
  ripRelative : Bool
  segment : SegmentName
deriving DecidableEq, Repr

/-- The operand that ModRM.mod and ModRM.rm name (`RmOperand`). -/
inductive RmOperand where
  | reg (n : UInt8)
  | mem (m : MemoryOperand)
deriving DecidableEq, Repr

/-- Whether the operand is a register. -/
def RmOperand.isReg : RmOperand → Bool
  | .reg _ => true
  | .mem _ => false

/-- The eight two-operand operations, in encoding order (`AluOp`). -/
inductive AluOp where
  | add
  | or
  | adc
  | sbb
  | and
  | sub
  | xor
  | cmp
deriving DecidableEq, Repr

namespace AluOp

/-- The number that encodes the operation. -/
def index : AluOp → UInt8
  | .add => 0
  | .or => 1
  | .adc => 2
  | .sbb => 3
  | .and => 4
  | .sub => 5
  | .xor => 6
  | .cmp => 7

/-- The operation that the low three bits of a number encode (`from_index`). -/
def ofIndex (n : UInt8) : AluOp :=
  match n &&& 7 with
  | 0 => .add
  | 1 => .or
  | 2 => .adc
  | 3 => .sbb
  | 4 => .and
  | 5 => .sub
  | 6 => .xor
  | _ => .cmp

/-- A comparison sets the flags only (`writes_result`). -/
def writesResult (op : AluOp) : Bool :=
  op != .cmp

theorem ofIndex_index (op : AluOp) : ofIndex op.index = op := by
  cases op <;> rfl

end AluOp

/-- A condition on the flags, in encoding order (`Cond`). -/
inductive Cond where
  | o
  | no
  | b
  | ae
  | e
  | ne
  | be
  | a
  | s
  | ns
  | p
  | np
  | l
  | ge
  | le
  | g
deriving DecidableEq, Repr

/-- The condition that the low four bits of a number encode (`from_nibble`). -/
def Cond.ofIndex (n : UInt8) : Cond :=
  match n &&& 15 with
  | 0 => .o
  | 1 => .no
  | 2 => .b
  | 3 => .ae
  | 4 => .e
  | 5 => .ne
  | 6 => .be
  | 7 => .a
  | 8 => .s
  | 9 => .ns
  | 10 => .p
  | 11 => .np
  | 12 => .l
  | 13 => .ge
  | 14 => .le
  | _ => .g

/-! ## Operations -/

/-- What an opcode does (`InstClass`). -/
inductive Operation where
  /-- An encoding that is reserved in the current mode. -/
  | invalid
  /-- A valid encoding without semantics here. -/
  | unsupported
  | nop
  /-- `op r/m, reg` -/
  | aluRmReg
  /-- `op reg, r/m` -/
  | aluRegRm
  /-- `op AL/eAX, imm` -/
  | aluAccImm
  /-- `op r/m, imm` -/
  | aluRmImm
  | test
  | xchg
  /-- The short forms of `INC` and `DEC`, absent in 64-bit code. -/
  | incDecReg
  | incDecRm
  | movRmReg
  | movRegRm
  | movRegImm
  | movRmImm
  | movzx
  | movsx
  | lea
  | movFromSreg
  /-- `MOV sreg, r/m16` and `POP` of a segment register. -/
  | movToSreg
  | pushReg
  | popReg
  | pushImm
  | jmpRel
  | jcc
  /-- `LOOPNE`, `LOOPE`, `LOOP` and `JCXZ`. -/
  | loopRel
  | callRel
  | ret
  | retImm
  | jmpRm
  | callRm
  | farJmp
  | farCall
  | farRet
  | iret
  | hlt
  /-- `CMC`, `CLC`, `STC`, `CLD` and `STD`. -/
  | flagOp
  | cli
  | sti
  | popf
  | int3
  | intImm
  | into
  /-- `IN`, `OUT`, `INS` and `OUTS`. -/
  | io
  | movCr
  /-- System instructions that need the surrounding monitor. -/
  | system
  | cpuid
  | ud2
deriving DecidableEq, Repr

/-- What an instruction means for a straight-line run of instructions (`BlockEffect`). -/
inductive BlockEffect where
  /-- The next instruction in memory follows. -/
  | straight
  /-- Control always goes elsewhere. -/
  | branch
  /-- Control may go elsewhere. -/
  | condBranch
  /-- The mode under which code is decoded and checked may change. -/
  | modeChange
  /-- The machine may have to leave the run loop. -/
  | stop
deriving DecidableEq, Repr

/-- Whether no instruction follows in the same block (`ends_block`). -/
def BlockEffect.endsBlock (e : BlockEffect) : Bool :=
  e != .straight

/-- The effect of an operation on the block it stands in (`block_effect`). -/
def Operation.blockEffect : Operation → BlockEffect
  | .jmpRel | .jmpRm | .ret | .retImm | .callRel | .callRm => .branch
  | .jcc | .loopRel => .condBranch
  | .farJmp | .farCall | .farRet | .iret | .movToSreg | .movCr | .popf | .system => .modeChange
  | .hlt | .int3 | .intImm | .into | .io | .cpuid | .sti | .ud2 | .invalid => .stop
  | _ => .straight

/-- A branch whose target is an offset in the current code segment. -/
def Operation.isNearBranch : Operation → Bool
  | .jmpRel | .jcc | .loopRel | .callRel | .ret | .retImm | .jmpRm | .callRm => true
  | _ => false

/-! ## Opcodes -/

/-- The opcode maps (`OpcodeMap`). -/
inductive OpcodeMap where
  /-- One byte. -/
  | primary
  /-- `0F xx` -/
  | secondary
  /-- `0F 38 xx` -/
  | escape38
  /-- `0F 3A xx` -/
  | escape3A
deriving DecidableEq, Repr

/-- What the opcode maps say about the shape of an instruction (`OpFlags`). -/
structure OpcodeFlags where
  /-- A ModRM byte follows the opcode. -/
  modRM : Bool := false
  /-- Operands are bytes whatever the prefixes say. -/
  byteOperand : Bool := false
  /-- Operands have 64 bits by default in 64-bit code. -/
  default64 : Bool := false
  /-- A lock is allowed with a memory destination. -/
  lockable : Bool := false
  /-- The opcode is undefined in 64-bit code. -/
  invalid64 : Bool := false
  /-- The operation depends on ModRM.reg. -/
  group : Bool := false
deriving DecidableEq, Repr

namespace OpcodeFlags

/-- The flags that either argument has. -/
def union (f g : OpcodeFlags) : OpcodeFlags where
  modRM := f.modRM || g.modRM
  byteOperand := f.byteOperand || g.byteOperand
  default64 := f.default64 || g.default64
  lockable := f.lockable || g.lockable
  invalid64 := f.invalid64 || g.invalid64
  group := f.group || g.group

/-- The flags as a number, one bit each in order of declaration. -/
def bits (f : OpcodeFlags) : Nat :=
  f.modRM.toNat + 2 * f.byteOperand.toNat + 4 * f.default64.toNat + 8 * f.lockable.toNat
    + 16 * f.invalid64.toNat + 32 * f.group.toNat

end OpcodeFlags

/-! ## Instructions -/

/-- A decoded instruction (`DecodedInst`). -/
structure Instruction where
  /-- The bytes of the whole encoding. -/
  length : UInt8
  map : OpcodeMap
  opcode : UInt8
  operation : Operation
  flags : OpcodeFlags
  prefixes : Prefixes
  operandSize : OperandSize
  addressSize : AddressSize
  modRM : Option ModRM
  rm : Option RmOperand
  /-- The immediate, extended with zeros from `immSize` bytes. -/
  imm : UInt64
  immSize : Nat
  /-- The second immediate: the level of `ENTER` or the selector of a far pointer. -/
  imm2 : UInt16
deriving DecidableEq, Repr

namespace Instruction

/-- ModRM.reg, zero without a ModRM byte. -/
def modReg (i : Instruction) : UInt8 :=
  i.modRM.elim 0 ModRM.reg

/-- The register that ModRM.reg names (`reg`). -/
def reg (i : Instruction) : UInt8 :=
  i.prefixes.extend Rex.r i.modReg

/-- The register that the low opcode bits name (`opcode_reg`). -/
def opcodeReg (i : Instruction) : UInt8 :=
  i.prefixes.extend Rex.b (i.opcode &&& 7)

/-- The immediate as a signed number of its encoded width (`imm_sext`). -/
def immSigned (i : Instruction) : Int64 :=
  match i.immSize with
  | 1 => OperandSize.signExtend .bits8 i.imm
  | 2 => OperandSize.signExtend .bits16 i.imm
  | 4 => OperandSize.signExtend .bits32 i.imm
  | _ => i.imm.toInt64

/-- The two-operand operation that the encoding selects (`alu_op`). -/
def aluOp (i : Instruction) : AluOp :=
  if i.operation = .aluRmImm then AluOp.ofIndex i.modReg else AluOp.ofIndex (i.opcode >>> 3)

/-- The condition that the encoding selects (`cond`). -/
def cond (i : Instruction) : Cond :=
  Cond.ofIndex i.opcode

/-- Whether the operands are bytes (`is_byte_op`). -/
def isByteOp (i : Instruction) : Bool :=
  i.operandSize == .bits8

/-- The effect of the instruction on the block it stands in (`block_effect`). -/
def blockEffect (i : Instruction) : BlockEffect :=
  i.operation.blockEffect

/-- A lock is allowed on a lockable opcode with a memory operand (`lock_is_valid`). -/
def lockIsValid (i : Instruction) : Bool :=
  i.flags.lockable && i.rm.any fun o => !o.isReg

end Instruction

end X86Replay

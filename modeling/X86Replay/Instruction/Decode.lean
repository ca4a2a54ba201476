import X86Replay.Instruction.OpcodeMap

/-!
# Decoding

An encoding is read strictly from left to right: prefixes, opcode, ModRM byte, SIB byte,
displacement, immediates. No byte past the fifteenth is ever read.

* `scanPrefixes`: the prefixes are the maximal leading run of prefix bytes, folded from the left.
* `decode`: the instruction at the start of a string of bytes, or why there is none.

Names in parentheses are those in the emulator, here in its module `decoder`.
-/

namespace X86Replay

/-! ## Reading bytes -/

/-- The length limit of an encoding (`MAX_INST_LEN`). -/
def maxInstructionLength : Nat := 15

/-- Why bytes do not decode (`DecodeError`). -/
inductive DecodeError where
  /-- The bytes end before the encoding does. -/
  | unexpectedEnd
  /-- The encoding goes past the length limit. -/
  | tooLong
  /-- The encoding is undefined in this mode. -/
  | invalid
deriving DecidableEq, Repr

/-- The error in words. -/
def DecodeError.message : DecodeError → String
  | .unexpectedEnd => "unexpected end of instruction bytes"
  | .tooLong => "instruction exceeds 15-byte length limit"
  | .invalid => "invalid instruction"

/-- The bytes still to be read and the number of bytes read before them (`Cursor`). -/
structure Cursor where
  rest : List UInt8
  pos : Nat

/-- A reader of a part of an encoding. -/
abbrev Scan := StateT Cursor (Except DecodeError)

namespace Scan

/-- The next byte (`next_u8`). The length limit is checked before the end of the bytes. -/
def byte : Scan UInt8 := fun c =>
  if maxInstructionLength ≤ c.pos then
    .error .tooLong
  else
    match c.rest with
    | [] => .error .unexpectedEnd
    | b :: rest => .ok (b, ⟨rest, c.pos + 1⟩)

/-- The next `n` bytes as a word, least significant byte first (`read_le`). -/
def word : Nat → Scan UInt64
  | 0 => pure 0
  | n + 1 => do
    let low ← byte
    let high ← word n
    pure (low.toUInt64 ||| (high <<< 8))

/-- The next bytes as a signed number of the given size. -/
def signed (s : OperandSize) : Scan Int64 := do
  return s.signExtend (← word s.bytes)

end Scan

/-! ## Prefixes -/

/-- The segment register that an override prefix names (`segment_override`). -/
def segmentOverride? (b : UInt8) : Option SegmentName :=
  match b with
  | 0x26 => some .es
  | 0x2E => some .cs
  | 0x36 => some .ss
  | 0x3E => some .ds
  | 0x64 => some .fs
  | 0x65 => some .gs
  | _ => none

/-- A REX prefix exists in 64-bit code only. -/
def isRex (width : CodeWidth) (b : UInt8) : Bool :=
  width == .bits64 && 0x40 ≤ b && b ≤ 0x4F

/-- Whether `b` is a prefix at the start of an encoding. -/
def isPrefixByte (width : CodeWidth) (b : UInt8) : Bool :=
  isRex width b || (segmentOverride? b).isSome
    || [0xF0, 0xF2, 0xF3, 0x66, 0x67].contains b

/-- The segment override in force after an override `seg`: in 64-bit code only FS and GS count. -/
def overrideSegment (width : CodeWidth) (old : Option SegmentName) (seg : SegmentName) :
    Option SegmentName :=
  if width = .bits64 ∧ seg ≠ .fs ∧ seg ≠ .gs then old else some seg

/-- The prefixes after one more prefix byte (a turn of `scan_prefixes`). A REX prefix only takes
    effect right before the opcode, so any other prefix after it cancels it. -/
def Prefixes.apply (width : CodeWidth) (p : Prefixes) (b : UInt8) : Prefixes :=
  if isRex width b then
    { p with rex := some ⟨b⟩ }
  else
    let p := { p with rex := none }
    match segmentOverride? b with
    | some seg => { p with segment := overrideSegment width p.segment seg }
    | none =>
      match b with
      | 0xF0 => { p with lock := true }
      | 0xF2 => { p with rep := some .repne }
      | 0xF3 => { p with rep := some .rep }
      | 0x66 => { p with otherOperandSize := true }
      | 0x67 => { p with otherAddressSize := true }
      | _ => p

/-- The prefixes at the start of `bytes`, and where the opcode starts (`scan_prefixes`). -/
def scanPrefixes (width : CodeWidth) (bytes : List UInt8) : Prefixes × Cursor :=
  let run := bytes.takeWhile (isPrefixByte width)
  (run.foldl (Prefixes.apply width) {}, ⟨bytes.dropWhile (isPrefixByte width), run.length⟩)

/-! ## Opcode and sizes -/

/-- The opcode and its map (`parse_opcode`). -/
def scanOpcode : Scan (OpcodeMap × UInt8) := do
  let b ← Scan.byte
  if b ≠ 0x0F then
    return (.primary, b)
  let b ← Scan.byte
  match b with
  | 0x38 => return (.escape38, ← Scan.byte)
  | 0x3A => return (.escape3A, ← Scan.byte)
  | _ => return (.secondary, b)

/-- The encodings whose first byte is shared with a vector or extended-operation prefix, none of
    which is modelled. -/
def isVectorEncoding (map : OpcodeMap) (opcode : UInt8) (m : ModRM) : Bool :=
  map == .primary
    && ((opcode == 0x62 || opcode == 0xC4 || opcode == 0xC5) && m.mode == 3
      || opcode == 0x8F && m.reg != 0)

/-- The operand size of 64-bit code. Near branches have 64-bit targets whatever the prefixes. -/
def operandSize64 (p : Prefixes) (op : Operation) (flags : OpcodeFlags) : OperandSize :=
  if p.rexBit Rex.w || op.isNearBranch then .bits64
  else if p.otherOperandSize then .bits16
  else if flags.default64 then .bits64
  else .bits32

/-- The operand size that mode, prefixes and opcode select (`effective_operand_size`). -/
def effectiveOperandSize (width : CodeWidth) (p : Prefixes) (op : Operation)
    (flags : OpcodeFlags) : OperandSize :=
  if flags.byteOperand then .bits8
  else
    match width with
    | .bits16 => if p.otherOperandSize then .bits32 else .bits16
    | .bits32 => if p.otherOperandSize then .bits16 else .bits32
    | .bits64 => operandSize64 p op flags

/-- The operand size of an instruction: moves of segment registers always have 16 bits. -/
def instructionOperandSize (width : CodeWidth) (p : Prefixes) (map : OpcodeMap) (opcode : UInt8)
    (op : Operation) (flags : OpcodeFlags) : OperandSize :=
  if map = .primary ∧ (opcode = 0x8C ∨ opcode = 0x8E) then .bits16
  else effectiveOperandSize width p op flags

/-- The address size that mode and prefixes select (`effective_address_size`). -/
def effectiveAddressSize (width : CodeWidth) (p : Prefixes) : AddressSize :=
  match width, p.otherAddressSize with
  | .bits16, false => .bits16
  | .bits16, true => .bits32
  | .bits32, false => .bits32
  | .bits32, true => .bits16
  | .bits64, false => .bits64
  | .bits64, true => .bits32

/-! ## ModRM operands -/

/-- The base and index registers of a 16-bit address. -/
def registers16 (rm : UInt8) : UInt8 × Option UInt8 :=
  match rm with
  | 0 => (3, some 6)
  | 1 => (3, some 7)
  | 2 => (5, some 6)
  | 3 => (5, some 7)
  | 4 => (6, none)
  | 5 => (7, none)
  | 6 => (5, none)
  | _ => (3, none)

/-- A 16-bit memory operand (`decode_mem16`). -/
def scanMemory16 (p : Prefixes) (m : ModRM) : Scan MemoryOperand := do
  if m.mode = 0 ∧ m.rm = 6 then
    let displacement ← Scan.signed .bits16
    return ⟨none, none, 1, displacement, false, p.segment.getD .ds⟩
  let (base, index) := registers16 m.rm
  let displacement ←
    match m.mode with
    | 1 => Scan.signed .bits8
    | 2 => Scan.signed .bits16
    | _ => pure 0
  return ⟨some base, index, 1, displacement, false, p.segment.getD (if base = 5 then .ss else .ds)⟩

/-- Base, index and scale of a 32-bit or 64-bit address, read from ModRM and, where ModRM.rm is 4,
    from a SIB byte. Without a base, a 32-bit displacement stands for it. -/
def scanRegisters32 (p : Prefixes) (m : ModRM) : Scan (Option UInt8 × Option UInt8 × UInt8) := do
  if m.rm = 4 then
    let sib ← Scan.byte
    let index := p.extend Rex.x ((sib >>> 3) &&& 7)
    let base := sib &&& 7
    return (if base = 5 ∧ m.mode = 0 then none else some (p.extend Rex.b base),
      if index = 4 then none else some index, (1 : UInt8) <<< (sib >>> 6))
  else
    return (if m.rm = 5 ∧ m.mode = 0 then none else some (p.extend Rex.b m.rm), none, 1)

/-- A 32-bit or 64-bit memory operand (`decode_mem32`). -/
def scanMemory32 (width : CodeWidth) (p : Prefixes) (m : ModRM) : Scan MemoryOperand := do
  let (base, index, scale) ← scanRegisters32 p m
  let displacement ←
    match m.mode with
    | 1 => Scan.signed .bits8
    | 2 => Scan.signed .bits32
    | _ => if base.isNone then Scan.signed .bits32 else pure 0
  let ripRelative := width == .bits64 && m.rm == 5 && m.mode == 0
  let stackBased := base == some 4 || base == some 5
  return ⟨base, index, scale, displacement, ripRelative,
    p.segment.getD (if stackBased then .ss else .ds)⟩

/-- The operand that ModRM.mod and ModRM.rm name (`decode_rm`). Moves of control and debug registers
    name a register whatever ModRM.mod says. -/
def scanRm (width : CodeWidth) (p : Prefixes) (size : AddressSize) (map : OpcodeMap)
    (opcode : UInt8) (m : ModRM) : Scan RmOperand := do
  if m.mode = 3 ∨ (map = .secondary ∧ 0x20 ≤ opcode ∧ opcode ≤ 0x23) then
    return .reg (p.extend Rex.b m.rm)
  match size with
  | .bits16 => return .mem (← scanMemory16 p m)
  | .bits32 | .bits64 => return .mem (← scanMemory32 width p m)

/-- Whether the operands are defined for a valid opcode: `LEA` and far transfers through ModRM need
    memory, segment registers are numbered up to 5, and CS is no destination of `MOV`
    (`validate_operands`). -/
def operandsAreValid (map : OpcodeMap) (opcode : UInt8) (op : Operation) (reg : UInt8)
    (rm : Option RmOperand) : Bool :=
  let isReg := rm.any RmOperand.isReg
  match op with
  | .lea => !isReg
  | .farJmp | .farCall => !(map == .primary && opcode == 0xFF && isReg)
  | .movFromSreg => reg ≤ 5
  | .movToSreg => !(map == .primary && opcode == 0x8E && (reg == 1 || 5 < reg))
  | _ => true

/-! ## Immediates -/

/-- The number of bytes of the first and of the second immediate (`read_immediates`). -/
def immediateSizes (width : CodeWidth) (form : ImmediateForm) (operand : OperandSize)
    (address : AddressSize) (byteOperand : Bool) (reg : UInt8) : Nat × Nat :=
  let z := if operand = .bits16 then 2 else 4
  match form with
  | .none => (0, 0)
  | .ib | .jb => (1, 0)
  | .iw => (2, 0)
  | .iz => (z, 0)
  | .jz => (if width = .bits64 then 4 else z, 0)
  | .iv => (operand.bytes, 0)
  | .iwib => (2, 1)
  | .ap => (z, 2)
  | .moffs => (address.bytes, 0)
  | .group3 => (if 1 < reg then 0 else if byteOperand then 1 else z, 0)

/-! ## Instructions -/

/-- The rest of an instruction after its prefixes (`decode` after the prefixes). -/
def scanInstruction (width : CodeWidth) (p : Prefixes) : Scan Instruction := do
  let (map, opcode) ← scanOpcode
  let entry := map.entry opcode
  if entry.operation = .invalid ∨ (width = .bits64 ∧ entry.flags.invalid64) then
    throw .invalid
  let modRM ← if entry.flags.modRM then some <$> ModRM.ofByte <$> Scan.byte else pure none
  if modRM.any (isVectorEncoding map opcode) then
    throw .invalid
  let reg := modRM.elim 0 ModRM.reg
  let (operation, extra) :=
    if entry.flags.group then resolveGroup entry.operation opcode reg else (entry.operation, {})
  if operation = .invalid then
    throw .invalid
  let flags := entry.flags.union extra
  -- `XCHG r8, rAX` shares its opcode with `NOP`.
  let operation :=
    if map = .primary ∧ opcode = 0x90 ∧ p.rexBit Rex.b then .unsupported else operation
  let operandSize := instructionOperandSize width p map opcode operation flags
  let addressSize := effectiveAddressSize width p
  let rm ←
    match modRM with
    | some m => some <$> scanRm width p addressSize map opcode m
    | none => pure none
  unless operandsAreValid map opcode operation reg rm do
    throw .invalid
  let (immSize, imm2Size) :=
    immediateSizes width entry.immediate operandSize addressSize flags.byteOperand reg
  let imm ← Scan.word immSize
  let imm2 ← Scan.word imm2Size
  return {
    length := (← get).pos.toUInt8
    map, opcode, operation, flags, operandSize, addressSize, modRM, rm, imm, immSize
    prefixes := p
    imm2 := imm2.toUInt16 }

/-- The instruction at the start of `bytes` (`decode`). -/
def decode (width : CodeWidth) (bytes : List UInt8) : Except DecodeError Instruction :=
  let (p, start) := scanPrefixes width bytes
  (scanInstruction width p).run' start

end X86Replay

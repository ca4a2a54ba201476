import X86Replay.Block.Basic
import X86Replay.Fetch

/-!
# Compiling blocks

`compileBlock`: the block that starts at CS:RIP. Instructions are fetched, decoded and turned into
calls one after the other until

* an instruction ends the block, or cannot be decoded (it is deferred, and ends the block too);
* the next instruction would start on another page, or cross into one;
* the caps on calls or bytes are reached.

Only the first instruction may cross a page boundary. Only a fault on the first instruction is an
error; a later one ends the block before the instruction.

Names in parentheses are those in the emulator, here in its module `compile`.
-/

namespace X86Replay

variable {M : Type} [GuestMemory M]

/-! ## Calls of an instruction -/

namespace Instruction

/-- A register that the instruction numbers, at its operand size (`reg_desc`). -/
def registerOperand (i : Instruction) (n : UInt8) : RegisterOperand :=
  ⟨i.registerRef n i.operandSize, i.operandSize⟩

/-- The register that the opcode names, at the operand size. -/
def opcodeOperand (i : Instruction) : RegisterOperand :=
  ⟨i.opcodeReg, i.operandSize⟩

/-- The handler made for an instruction and its words, if there is one (the fast paths of
    `emit`). -/
def fastCall? (i : Instruction) : Option (Handler × UInt64 × UInt64 × UInt64) :=
  let word (n : UInt8) : UInt64 := (i.registerOperand n).pack
  let aluWord (r : RegisterOperand) : UInt64 := r.packWith i.aluOp.index
  let address (m : MemoryOperand) : UInt64 := (AddressForm.ofOperand m i.addressSize).pack
  let displacement := i.immSigned.toUInt64
  let size := i.operandSize.step
  match i.operation, i.rm with
  | .nop, _ => some (.nop, 0, 0, 0)
  | .movRegImm, _ => some (.movRegImm, word i.opcodeReg, i.imm, 0)
  | .movRmReg, some (.reg r) => some (.movRegReg, word r, word i.reg, 0)
  | .movRegRm, some (.reg r) => some (.movRegReg, word i.reg, word r, 0)
  | .movRegRm, some (.mem m) =>
    some (.loadReg, word i.reg, address m, m.displacement.toUInt64)
  | .movRmReg, some (.mem m) =>
    some (.storeReg, word i.reg, address m, m.displacement.toUInt64)
  | .aluRmReg, some (.reg r) =>
    some (.aluRegReg, aluWord (i.registerOperand r), word i.reg, 0)
  | .aluRegRm, some (.reg r) =>
    some (.aluRegReg, aluWord (i.registerOperand i.reg), word r, 0)
  | .aluAccImm, _ => some (.aluRegImm, aluWord ⟨0, i.operandSize⟩, displacement, 0)
  | .aluRmImm, some (.reg r) =>
    some (.aluRegImm, aluWord (i.registerOperand r), displacement, 0)
  | .incDecReg, _ =>
    some (.incDecReg, RegisterOperand.pack ⟨i.opcode &&& 7, i.operandSize⟩,
      (i.opcode &&& 8 != 0).toUInt64, 0)
  | .incDecRm, some (.reg r) => some (.incDecReg, word r, (i.modReg == 1).toUInt64, 0)
  | .pushReg, _ => some (.pushReg, i.opcodeOperand.pack, 0, 0)
  | .popReg, _ => some (.popReg, i.opcodeOperand.pack, 0, 0)
  | .jmpRel, _ => some (.jmpRel, displacement, size, 0)
  | .jcc, _ => some (.jccRel, displacement, size, (i.opcode &&& 15).toUInt64)
  | .callRel, _ => some (.callRel, displacement, size, 0)
  | .ret, _ => some (.ret, size, 0, 0)
  | .retImm, _ => some (.ret, size, i.imm, 0)
  | .hlt, _ => some (.hlt, 0, 0, 0)
  | _, _ => none

end Instruction

/-- The call that carries the raw bytes of an instruction (the fallback of `emit`). -/
def deferredCall (bytes : List UInt8) (offset : Nat) : Call :=
  let (low, high) := packBytes bytes
  { handler := .deferred, length := bytes.length.toUInt8, offset := offset.toUInt16
    p0 := low, p1 := high, p2 := bytes.length.toUInt64 }

/-- The call of an instruction at an offset of the block: a handler made for it if there is one and
    no lock has to be checked, its raw bytes otherwise (`emit`). -/
def Instruction.toCall (i : Instruction) (bytes : List UInt8) (offset : Nat) : Call :=
  match if i.prefixes.lock then none else i.fastCall? with
  | some (handler, p0, p1, p2) =>
    { handler, length := i.length, offset := offset.toUInt16, p0, p1, p2 }
  | none => deferredCall bytes offset

/-! ## Blocks under construction -/

/-- A block that is being compiled (`TbBuilder`). -/
structure Draft where
  calls : Array Call := #[]
  /-- The range that the first byte is in. -/
  first : CodeRange
  /-- The range on the page after it. -/
  second : Option CodeRange := none
  /-- The number of code bytes. -/
  size : Nat := 0
  instructions : Nat := 0

/-- Whether compiling goes on. -/
inductive Progress where
  | more (d : Draft)
  | finished (d : Draft)
  /-- Fetching the first instruction has faulted. -/
  | fault (e : Exception)

/-- The bytes at a program counter, and what they decode to. -/
structure Encoding where
  bytes : List UInt8
  decoded : Except DecodeError Instruction
  /-- If the next page was needed, its physical address and the number of bytes before it. -/
  crossing : Option (UInt64 × Nat) := none

namespace Encoding

/-- The number of bytes that the encoding is known to occupy (`consumed_len`). One past the length
    limit has used them all; other undecodable bytes have no length. -/
def knownLength (e : Encoding) : Option Nat :=
  match e.decoded with
  | .ok i => some i.length.toNat
  | .error .tooLong => some maxInstructionLength
  | .error _ => none

/-- The number of bytes that the block takes over, one if it is not known. -/
def length (e : Encoding) : Nat :=
  e.knownLength.getD 1

/-- The call of the encoding, which is deferred if it cannot be decoded. -/
def toCall (e : Encoding) (offset : Nat) : Call :=
  let bytes := e.bytes.take e.length
  match e.decoded with
  | .ok i => i.toCall bytes offset
  | .error _ => deferredCall bytes offset

/-- Whether the block ends after the encoding. -/
def endsBlock (e : Encoding) : Bool :=
  match e.decoded with
  | .ok i => i.blockEffect.endsBlock
  | .error _ => true

/-- The part of the encoding on the next page, if it is known to reach it. -/
def tail? (e : Encoding) : Option CodeRange := do
  let (page, near) ← e.crossing
  let n ← e.knownLength
  return ⟨page, (n - near).toUInt32⟩

end Encoding

/-- The encoding at a resolved program counter, from its own page only (part of `compile_block`). -/
def readNear (s : FetchStream) (mem : M) (width : CodeWidth) (pc : UInt64) :
    Except Exception Encoding × FetchStream :=
  let (bytes, s) := s.copyBytes mem pc maxInstructionLength
  (bytes.map fun bytes => ⟨bytes, decode width bytes, none⟩, s)

/-- The encoding continued on the next page (part of `compile_block`). -/
def readFar (s : FetchStream) (cpu : Cpu) (mem : M) (width : CodeWidth) (pc : UInt64)
    (near : List UInt8) : Except Exception Encoding × FetchStream :=
  match s.resolve cpu mem (nextPage pc) with
  | (.error e, s) => (.error e, s)
  | (.ok page, s) =>
    let (far, s) := s.copyBytes mem (nextPage pc) (maxInstructionLength - near.length)
    (far.map fun far =>
      ⟨near ++ far, decode width (near ++ far), some (page, near.length)⟩, s)

/-- Whether the bytes before the page end do not decide the encoding. -/
def Encoding.isCut (e : Encoding) : Bool :=
  e.bytes.length < maxInstructionLength && e.decoded matches .error .unexpectedEnd

/-! ## Compiling -/

/-- What a block is compiled for. -/
structure CompileContext where
  cpu : Cpu
  flags : ModeFlags
  config : Config

namespace CompileContext

/-- The width of the code. -/
def width (c : CompileContext) : CodeWidth :=
  c.flags.codeWidth

/-- The instruction pointer behind the draft. -/
def ip (c : CompileContext) (d : Draft) : UInt64 :=
  c.cpu.rip + d.size.toUInt64

/-- The linear address behind the draft. -/
def pc (c : CompileContext) (d : Draft) : UInt64 :=
  c.cpu.linearIp c.width (c.ip d)

/-- The number of calls that each instruction takes. -/
def callsPerInstruction (c : CompileContext) : Nat :=
  if c.flags.needsLimitChecks then 2 else 1

/-- The draft with one more encoding (part of `compile_block`). -/
def append (c : CompileContext) (d : Draft) (e : Encoding) : Draft :=
  let check : Call :=
    { handler := .checkLimit, length := e.length.toUInt8, offset := d.size.toUInt16
      p0 := e.length.toUInt64 }
  let calls := if c.flags.needsLimitChecks then d.calls.push check else d.calls
  let tailLength := e.tail?.elim 0 CodeRange.length
  { calls := calls.push (e.toCall d.size)
    first := { d.first with length := d.first.length + (e.length.toUInt32 - tailLength) }
    second := e.tail?
    size := d.size + e.length
    instructions := d.instructions + 1 }

/-- The draft after an encoding at `pc`, and whether another one follows: not after an encoding that
    ends the block or reaches the next page (the end of a turn of `compile_block`). -/
def accept (c : CompileContext) (d : Draft) (pc : UInt64) (e : Encoding) : Progress :=
  let d := c.append d e
  if e.endsBlock || e.tail?.isSome || pageOf (pc + e.length.toUInt64) != pageOf pc then
    .finished d
  else
    .more d

/-- The first instruction of a block, which may cross a page boundary (the first turn of
    `compile_block`). -/
def firstStep (c : CompileContext) (mem : M) (s : FetchStream) (d : Draft) :
    Progress × FetchStream :=
  let pc := c.pc d
  match readNear s mem c.width pc with
  | (.error e, s) => (.fault e, s)
  | (.ok near, s) =>
    if near.isCut then
      match readFar s c.cpu mem c.width pc near.bytes with
      | (.error e, s) => (.fault e, s)
      | (.ok e, s) => (c.accept d pc e, s)
    else
      (c.accept d pc near, s)

/-- A later instruction (a later turn of `compile_block`). Whatever stands in its way ends the block
    before it. -/
def nextStep (c : CompileContext) (mem : M) (s : FetchStream) (d : Draft) :
    Progress × FetchStream :=
  let pc := c.pc d
  if c.width.ipLimit < c.ip d || c.config.maxCalls < d.calls.size + c.callsPerInstruction then
    (.finished d, s)
  else
    match s.resolve c.cpu mem pc with
    | (.error _, s) => (.finished d, s)
    | (.ok _, s) =>
      match readNear s mem c.width pc with
      | (.error _, s) => (.finished d, s)
      | (.ok e, s) =>
        if e.isCut || c.config.maxOpcodeBytes < d.size + e.length then (.finished d, s)
        else (c.accept d pc e, s)

/-- Appends later instructions, at most `fuel` (the loop of `compile_block`). A block stays on one
    page and every instruction has a byte, so the bytes left on the page are fuel enough. -/
def extend (c : CompileContext) (mem : M) : Nat → Progress → FetchStream → Progress × FetchStream
  | fuel + 1, .more d, s =>
    let (p, s) := c.nextStep mem s d
    c.extend mem fuel p s
  | _, p, s => (p, s)

/-- The block that a draft has become (the answer of `compile_block`). -/
def finish (c : CompileContext) (d : Draft) : Block where
  physPc := d.first.start
  pc := c.cpu.linearPc
  flags := c.flags
  checksLimit := c.flags.needsLimitChecks
  identity := .ofCpu c.cpu
  size := d.size.toUInt16
  ranges := d.first :: d.second.toList
  calls := d.calls.toList
  instructions := d.instructions.toUInt16

end CompileContext

/-- A fault on the first instruction of a block (`CompileError`). -/
structure CompileFault where
  /-- The linear address of the block. -/
  pc : UInt64
  exception : Exception
deriving DecidableEq, Repr

/-- The fault in words. -/
def CompileFault.message (f : CompileFault) : String :=
  "fault while compiling block at " ++ hexText f.pc.toNat ++ ": " ++ f.exception.message

/-- The block that starts at CS:RIP, and the fetch stream after compiling it (`compile_block`). -/
def compileBlock (cpu : Cpu) (mem : M) (s : FetchStream) (flags : ModeFlags) (config : Config) :
    Except CompileFault Block × FetchStream :=
  let c : CompileContext := ⟨cpu, flags, config⟩
  let pc := cpu.linearPc
  match s.resolve cpu mem pc with
  | (.error e, s) => (.error ⟨pc, e⟩, s)
  | (.ok physPc, s) =>
    let (p, s) := c.firstStep mem s { first := ⟨physPc, 0⟩ }
    match c.extend mem pageSize.toNat p s with
    | (.more d, s) | (.finished d, s) => (.ok (c.finish d), s)
    | (.fault e, s) => (.error ⟨pc, e⟩, s)

end X86Replay

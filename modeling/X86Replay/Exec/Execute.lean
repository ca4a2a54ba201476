import X86Replay.Exec.System
import X86Replay.Flags.Arithmetic
import X86Replay.Flags.Condition

/-!
# Executing an instruction

`Exec.execute`: the semantics of every decoded instruction. Encodings without semantics here stop
the machine with an assist and change nothing.

Names in parentheses are those in the emulator, here in its module `interp`.
-/

namespace X86Replay

variable {M : Type} [GuestMemory M]

namespace Exec

/-! ## Arithmetic -/

/-- Runs an operation on RFLAGS that yields a result and new flags. -/
def withFlags (f : UInt64 → UInt64 × UInt64) : Exec M (UInt64 × UInt64) := do
  return f (← cpu).rflags

/-- A two-operand operation whose destination is a register that the instruction numbers, or the
    accumulator, or the operand that ModRM names (`exec_alu`). -/
def executeAlu (i : Instruction) : Exec M Outcome := do
  let size := i.operandSize
  let op := i.aluOp
  match i.operation with
  | .aluRegRm =>
    let dest ← readReg i i.reg size
    let src ← readRm i size
    let (result, flags) ← withFlags (alu op size · dest src)
    if op.writesResult then writeReg i i.reg size result
    modifyCpu (·.setRflags flags)
  | .aluAccImm =>
    let dest := (← cpu).readGpr 0 size
    let (result, flags) ← withFlags (alu op size · dest i.immSigned.toUInt64)
    if op.writesResult then modifyCpu (·.writeGpr 0 size result)
    modifyCpu (·.setRflags flags)
  | _ =>
    let dest ← readRm i size
    let src ←
      if i.operation = .aluRmImm then pure i.immSigned.toUInt64 else readReg i i.reg size
    let (result, flags) ← withFlags (alu op size · dest src)
    if op.writesResult then writeRm i size result
    modifyCpu (·.setRflags flags)
  retire i

/-- `TEST`: the flags of a conjunction (part of `execute_decoded`). The forms of group 3 have an
    immediate. -/
def executeTest (i : Instruction) : Exec M Outcome := do
  let size := i.operandSize
  let dest ← readRm i size
  let src ←
    if i.map = .primary ∧ (i.opcode = 0xF6 ∨ i.opcode = 0xF7) then pure i.immSigned.toUInt64
    else readReg i i.reg size
  let (_, flags) ← withFlags (alu .and size · dest src)
  modifyCpu (·.setRflags flags)
  retire i

/-- `XCHG` (part of `execute_decoded`). The operand that may be in memory is written first. -/
def executeXchg (i : Instruction) : Exec M Outcome := do
  let size := i.operandSize
  let a ← readRm i size
  let b ← readReg i i.reg size
  writeRm i size b
  writeReg i i.reg size a
  retire i

/-- `INC` or `DEC` of the register in the opcode (part of `execute_decoded`). -/
def executeIncDecReg (i : Instruction) : Exec M Outcome := do
  let size := i.operandSize
  let n := i.opcode &&& 7
  let value := (← cpu).readGpr n size
  let (result, flags) ← withFlags (incDec (i.opcode &&& 8 != 0) size · value)
  modifyCpu fun c => (c.writeGpr n size result).setRflags flags
  retire i

/-- `INC` or `DEC` of the operand that ModRM names (part of `execute_decoded`). -/
def executeIncDecRm (i : Instruction) : Exec M Outcome := do
  let size := i.operandSize
  let value ← readRm i size
  let (result, flags) ← withFlags (incDec (i.modReg == 1) size · value)
  writeRm i size result
  modifyCpu (·.setRflags flags)
  retire i

/-! ## Moves -/

/-- `MOVZX` and `MOVSX` from a byte or, if the opcode is odd, from 16 bits (part of
    `execute_decoded`). -/
def executeExtend (i : Instruction) (isSigned : Bool) : Exec M Outcome := do
  let source : OperandSize := if i.opcode &&& 1 = 0 then .bits8 else .bits16
  let raw ← readRm i source
  writeReg i i.reg i.operandSize (if isSigned then (source.signExtend raw).toUInt64 else raw)
  retire i

/-- The size at which a selector is written to a register. -/
def selectorSize (i : Instruction) (cpu : Cpu) : OperandSize :=
  if i.prefixes.rexBit Rex.w then .bits64
  else if cpu.codeWidth = .bits16 ∨ i.prefixes.otherOperandSize then .bits16
  else .bits32

/-- `MOV r/m, sreg`: 16 bits in memory, extended with zeros in a register (part of
    `execute_decoded`). -/
def executeMovFromSreg (i : Instruction) : Exec M Outcome := do
  let s ← namedSegment i
  let c ← cpu
  let selector := (c.seg s).selector.toUInt64
  match i.rm with
  | some (.reg n) => modifyCpu (·.writeGpr n (selectorSize i c) selector)
  | _ => writeRm i .bits16 selector
  retire i

/-- `LEA`: the offset of a memory operand (part of `execute_decoded`). -/
def executeLea (i : Instruction) : Exec M Outcome :=
  match i.rm with
  | some (.mem m) => do
    writeReg i i.reg i.operandSize (i.memoryOffset (← cpu) m)
    retire i
  | _ => throw .invalidOpcode

/-! ## Branches -/

/-- The count after one turn of a loop instruction, and whether it branches (part of `exec_loop`).
    `JCXZ` leaves the count alone. -/
def loopTurn (opcode : UInt8) (size : OperandSize) (zero : Bool) (count : UInt64) :
    UInt64 × Bool :=
  if opcode = 0xE3 then (count, count == 0)
  else
    let n := (count - 1) &&& size.mask
    let goesOn := if opcode = 0xE0 then !zero else if opcode = 0xE1 then zero else true
    (n, n != 0 && goesOn)

/-- `LOOPNE`, `LOOPE`, `LOOP` and `JCXZ`, which count in CX, ECX or RCX by address size
    (`exec_loop`). -/
def executeLoop (i : Instruction) : Exec M Outcome := do
  let size := i.addressSize.operandSize
  let c ← cpu
  let (count, taken) := loopTurn i.opcode size (c.hasFlag RFlags.zero) (c.readGpr 1 size)
  if taken then
    let target ← check (·.cpu.branchTarget (i.relativeTarget c) i.operandSize)
    modifyCpu fun c => (c.writeGpr 1 size count).setRip target
    return .proceed
  else
    modifyCpu (·.writeGpr 1 size count)
    retire i

/-! ## Flags, interrupts and I/O -/

/-- `CMC`, `CLC`, `STC`, `CLD` and `STD` (part of `execute_decoded`). -/
def executeFlagOp (i : Instruction) : Exec M Outcome := do
  match i.opcode with
  | 0xF5 => modifyCpu fun c => c.setFlag RFlags.carry (!c.hasFlag RFlags.carry)
  | 0xF8 => modifyCpu (·.setFlag RFlags.carry false)
  | 0xF9 => modifyCpu (·.setFlag RFlags.carry true)
  | 0xFC => modifyCpu (·.setFlag RFlags.direction false)
  | 0xFD => modifyCpu (·.setFlag RFlags.direction true)
  | _ => throw .invalidOpcode
  retire i

/-- A software interrupt, with RIP past the instruction (`software_interrupt`). -/
def interrupt (i : Instruction) (vector : UInt8) : Exec M Outcome :=
  finish i (.stop (.softwareInterrupt vector))

/-- `HLT`, at privilege level zero only (`hlt`, and part of `execute_decoded`). -/
def halt (length : UInt64) : Exec M Outcome := do
  require (·.cpl == 0)
  modifyCpu fun c => { c.advanceRip length with halted := true }
  return .stop .halt

/-- The access that an I/O instruction asks for (`io_request`). -/
def ioRequest (i : Instruction) : IoRequest :=
  let immediate := 0xE4 ≤ i.opcode && i.opcode ≤ 0xE7
  let string := 0x6C ≤ i.opcode && i.opcode ≤ 0x6F
  { address := if immediate then some i.imm.toUInt16 else none
    size := min i.operandSize.bytes 4
    write := i.opcode &&& 2 != 0
    string
    rep := string && i.prefixes.rep.isSome }

/-- The assist that a system instruction asks for (part of `execute_decoded`). -/
def systemAssist (i : Instruction) : AssistReason :=
  if i.map = .secondary ∧ (i.opcode = 0x30 ∨ i.opcode = 0x32) then .msr else .privileged

/-! ## All instructions -/

/-- Executes a decoded instruction (`execute_decoded`). -/
def execute (i : Instruction) : Exec M Outcome := do
  if i.prefixes.lock && !i.lockIsValid then
    throw .invalidOpcode
  let size := i.operandSize
  match i.operation with
  | .invalid | .ud2 => throw .invalidOpcode
  | .unsupported => return .stop (.assist .unsupported)
  | .nop => retire i
  | .aluRmReg | .aluRegRm | .aluAccImm | .aluRmImm => executeAlu i
  | .test => executeTest i
  | .xchg => executeXchg i
  | .incDecReg => executeIncDecReg i
  | .incDecRm => executeIncDecRm i
  | .movRmReg =>
    writeRm i size (← readReg i i.reg size)
    retire i
  | .movRegRm =>
    writeReg i i.reg size (← readRm i size)
    retire i
  | .movRegImm =>
    writeReg i i.opcodeReg size i.imm
    retire i
  | .movRmImm =>
    writeRm i size i.immSigned.toUInt64
    retire i
  | .movzx => executeExtend i false
  | .movsx => executeExtend i true
  | .lea => executeLea i
  | .movFromSreg => executeMovFromSreg i
  | .movToSreg => loadSegment i
  | .pushReg =>
    push size ((← cpu).readGpr i.opcodeReg size)
    retire i
  | .popReg =>
    let v ← pop size
    modifyCpu (·.writeGpr i.opcodeReg size v)
    retire i
  | .pushImm =>
    push size i.immSigned.toUInt64
    retire i
  | .jmpRel => branchTo (i.relativeTarget (← cpu)) size
  | .jcc =>
    let c ← cpu
    if i.cond.eval c.rflags then branchTo (i.relativeTarget c) size else retire i
  | .loopRel => executeLoop i
  | .callRel =>
    let c ← cpu
    callTo (i.relativeTarget c) (i.nextRip c) size
  | .callRm =>
    let target ← readRm i size
    callTo target (i.nextRip (← cpu)) size
  | .jmpRm => branchTo (← readRm i size) size
  | .ret => retNear size 0
  | .retImm => retNear size i.imm
  | .farJmp | .farCall | .farRet | .iret => farTransfer i
  | .hlt => halt i.step
  | .flagOp => executeFlagOp i
  | .cli =>
    require (·.mayControlInterrupts)
    modifyCpu (·.setFlag RFlags.interrupt false)
    retire i
  | .sti =>
    require (·.mayControlInterrupts)
    modifyCpu (·.setFlag RFlags.interrupt true)
    finish i .leave
  | .popf =>
    require (!·.trapsSensitive)
    let image ← pop size
    modifyCpu (·.popFlags image size)
    finish i .leave
  | .int3 => interrupt i 3
  | .intImm =>
    require (!·.trapsSensitive)
    interrupt i i.imm.toUInt8
  | .into => if (← cpu).hasFlag RFlags.overflow then interrupt i 4 else retire i
  | .io => return .stop (.io (ioRequest i))
  | .movCr => moveControl i
  | .system => return .stop (.assist (systemAssist i))
  | .cpuid => return .stop (.assist .cpuid)

end Exec

end X86Replay

import X86Replay.Exec.Machine
import X86Replay.Operand

/-!
# Operands of an instruction

Reading and writing the registers and memory operands that an instruction names, and retiring it.

Names in parentheses are those in the emulator, here in its module `interp`.
-/

namespace X86Replay

variable {M : Type} [GuestMemory M]

namespace Instruction

/-- The reference to a register that the instruction numbers. -/
def registerRef (i : Instruction) (n : UInt8) (size : OperandSize) : UInt8 :=
  X86Replay.registerRef n size i.prefixes.rex.isSome

/-- The length as a word. -/
def step (i : Instruction) : UInt64 :=
  i.length.toUInt64

/-- The instruction pointer after the instruction, without wrapping (`next_rip`). -/
def nextRip (i : Instruction) (cpu : Cpu) : UInt64 :=
  cpu.rip + i.step

/-- The target of a relative branch. -/
def relativeTarget (i : Instruction) (cpu : Cpu) : UInt64 :=
  i.nextRip cpu + i.immSigned.toUInt64

/-- The segment offset of a memory operand (`mem_offset`). -/
def memoryOffset (i : Instruction) (cpu : Cpu) (m : MemoryOperand) : UInt64 :=
  (AddressForm.ofOperand m i.addressSize).offset cpu m.displacement (i.nextRip cpu)

/-- The value of a register that the instruction numbers. -/
def readReg (i : Instruction) (cpu : Cpu) (n : UInt8) (size : OperandSize) : UInt64 :=
  cpu.readGpr (i.registerRef n size) size

/-- The state with a register that the instruction numbers written. -/
def writeReg (i : Instruction) (n : UInt8) (size : OperandSize) (v : UInt64) (cpu : Cpu) : Cpu :=
  cpu.writeGpr (i.registerRef n size) size v

end Instruction

namespace Exec

/-- The value of a register that the instruction numbers (`read_reg`). -/
def readReg (i : Instruction) (n : UInt8) (size : OperandSize) : Exec M UInt64 := do
  return i.readReg (← cpu) n size

/-- Writes a register that the instruction numbers (`write_reg`). -/
def writeReg (i : Instruction) (n : UInt8) (size : OperandSize) (v : UInt64) : Exec M Unit :=
  modifyCpu (i.writeReg n size v)

/-- The value of the operand that ModRM names (`read_rm`). -/
def readRm (i : Instruction) (size : OperandSize) : Exec M UInt64 :=
  match i.rm with
  | some (.reg n) => readReg i n size
  | some (.mem m) => do readMem m.segment (i.memoryOffset (← cpu) m) size
  | none => throw .invalidOpcode

/-- Writes the operand that ModRM names (`write_rm`). -/
def writeRm (i : Instruction) (size : OperandSize) (v : UInt64) : Exec M Unit :=
  match i.rm with
  | some (.reg n) => writeReg i n size v
  | some (.mem m) => do writeMem m.segment (i.memoryOffset (← cpu) m) size v
  | none => throw .invalidOpcode

/-- Moves RIP past the instruction, which then ends with the given outcome. -/
def finish (i : Instruction) (o : Outcome) : Exec M Outcome := do
  modifyCpu (·.advanceRip i.step)
  return o

/-- Retires an instruction that the next one in memory follows (`retire`). -/
def retire (i : Instruction) : Exec M Outcome :=
  finish i .proceed

end Exec

end X86Replay

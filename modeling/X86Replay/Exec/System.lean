import X86Replay.Exec.Operand

/-!
# Segments, privilege and control registers

The instructions that touch more than general registers and memory: loads of segment registers, far
transfers, popped flags and moves of control registers. Only real and virtual-8086 mode load segments
here; descriptor tables are the monitor's.

Names in parentheses are those in the emulator, here in its module `interp`.
-/

namespace X86Replay

variable {M : Type} [GuestMemory M]

/-! ## Privilege -/

namespace Cpu

/-- Whether the interrupt flag may be changed by `CLI` and `STI` (`check_if_privilege`). -/
def mayControlInterrupts (cpu : Cpu) : Bool :=
  !cpu.isProtected || (if cpu.isVirtual8086 then cpu.iopl == 3 else cpu.cpl ≤ cpu.iopl)

/-- Whether virtual-8086 mode traps instructions that are sensitive to the I/O privilege level (part
    of `execute_decoded`). -/
def trapsSensitive (cpu : Cpu) : Bool :=
  cpu.isVirtual8086 && cpu.iopl < 3

/-- The flags that a popped image of the given size may change: IOPL at level zero only, IF at or
    inside the I/O privilege level (part of `apply_popped_flags`). -/
def poppableFlags (cpu : Cpu) (size : OperandSize) : UInt64 :=
  (RFlags.poppable
    ||| (if cpu.cpl = 0 ∧ !cpu.isVirtual8086 then RFlags.iopl else 0)
    ||| (if cpu.cpl ≤ cpu.iopl ∨ cpu.isVirtual8086 then RFlags.interrupt else 0)) &&& size.mask

/-- The state with a popped flags image merged into RFLAGS (`apply_popped_flags`). -/
def popFlags (cpu : Cpu) (image : UInt64) (size : OperandSize) : Cpu :=
  cpu.setRflags (RFlags.merge cpu.rflags (cpu.poppableFlags size) image)

end Cpu

namespace Exec

/-- Raises a general protection fault unless a condition on the processor holds. -/
def require (p : Cpu → Bool) : Exec M Unit :=
  check fun m => if p m.cpu then .ok () else .error (.generalProtection 0)

/-! ## Segment loads -/

/-- The segment register that ModRM.reg names (`sreg_operand`). -/
def namedSegment (i : Instruction) : Exec M SegmentName :=
  check fun _ => (SegmentName.ofIndex? i.modReg).elim (.error .invalidOpcode) .ok

/-- The segment register that a load names and the selector it is given: `MOV` takes both from
    ModRM, `POP` from the opcode and the stack (part of `exec_load_sreg`). -/
def segmentLoad (i : Instruction) : Exec M (SegmentName × UInt16) := do
  if i.map = .primary ∧ i.opcode = 0x8E then
    let s ← namedSegment i
    return (s, (← readRm i .bits16).toUInt16)
  else
    let s ← check fun _ => (SegmentName.ofIndex? (i.opcode >>> 3)).elim (.error .invalidOpcode) .ok
    return (s, (← pop i.operandSize).toUInt16)

/-- Loads a segment register as real mode does, with its access rights kept (`exec_load_sreg`). A
    load of SS holds off interrupts, so the block ends after it. -/
def loadSegment (i : Instruction) : Exec M Outcome := do
  let c ← cpu
  if c.isProtected && !c.isVirtual8086 then
    return .stop (.assist .segmentLoad)
  let (s, selector) ← segmentLoad i
  modifyCpu fun c => c.setSeg s { SegmentRegister.real selector with attr := (c.seg s).attr }
  finish i (if s = .ss then .leave else .proceed)

/-! ## Far transfers -/

/-- The offset and selector that a far transfer goes to: from memory or the immediates for a jump or
    call, from the stack for a return (the target in `exec_far_real`). -/
def farTarget (i : Instruction) : Exec M (UInt64 × UInt16) := do
  let size := i.operandSize
  let c ← cpu
  if i.operation = .farJmp ∨ i.operation = .farCall then
    match i.rm with
    | some (.mem m) =>
      let pointer := i.memoryOffset c m
      let offset ← readMem m.segment pointer size
      let selector ← readMem m.segment (pointer + size.step) .bits16
      return (offset, selector.toUInt16)
    | some (.reg _) => throw .invalidOpcode
    | none => return (i.imm, i.imm2)
  else
    let sp := c.stackPointer
    let offset ← readMem .ss sp size
    let selector ← readMem .ss (sp + size.step) size
    return (offset, selector.toUInt16)

/-- What a far transfer does to stack and flags: a call stores its return address, a return releases
    it, and `IRET` also takes the flags (the stack in `exec_far_real`). -/
def farFrame (i : Instruction) : Exec M Unit := do
  let size := i.operandSize
  let c ← cpu
  let sp := c.stackPointer
  match i.operation with
  | .farCall =>
    let frame := (sp - 2 * size.step) &&& c.stackAddressSize.mask
    writeMem .ss (frame + size.step) size (c.seg .cs).selector.toUInt64
    writeMem .ss frame size (i.nextRip c)
    modifyCpu (·.setStackPointer frame)
  | .farRet => modifyCpu (·.setStackPointer (sp + 2 * size.step + i.imm))
  | .iret =>
    let flags ← readMem .ss (sp + 2 * size.step) size
    modifyCpu fun c => (c.setStackPointer (sp + 3 * size.step)).popFlags flags size
  | _ => return ()

/-- A far transfer in real mode, whose offset has to fit in 64 KiB (`exec_far_real`). -/
def farTransfer (i : Instruction) : Exec M Outcome := do
  if (← cpu).isProtected then
    return .stop (.assist .segmentLoad)
  let (offset, selector) ← farTarget i
  let offset := offset &&& i.operandSize.mask
  require fun _ => offset ≤ 0xFFFF
  farFrame i
  modifyCpu fun c => (c.setSeg .cs (.realCode selector)).setRip offset
  return if i.operation = .iret then .leave else .proceed

/-! ## Control registers -/

/-- The control register of a number that can be read or written here (part of `exec_mov_cr`). -/
def controlRegister? (cpu : Cpu) : UInt8 → Option (UInt64 × (UInt64 → Cpu))
  | 0 => some (cpu.cr0, cpu.setCr0)
  | 2 => some (cpu.cr2, fun v => { cpu with cr2 := v })
  | 3 => some (cpu.cr3, cpu.setCr3)
  | 4 => some (cpu.cr4, cpu.setCr4)
  | _ => none

/-- A move from or to a control register (`exec_mov_cr`). CR8 is the monitor's; a write of any other
    but CR2 may change the mode, so the block ends after it. -/
def moveControl (i : Instruction) : Exec M Outcome := do
  require (·.cpl == 0)
  let some m := i.modRM | throw .invalidOpcode
  let c ← cpu
  let number := i.reg
  let gpr := i.prefixes.extend Rex.b m.rm
  let width : OperandSize := if c.is64Bit then .bits64 else .bits32
  if number = 8 then
    return .stop (.assist .privileged)
  let some (value, load) := controlRegister? c number | throw .invalidOpcode
  if i.opcode = 0x20 then
    modifyCpu (·.writeGpr gpr width value)
    retire i
  else
    modifyCpu fun c => load (c.readGpr gpr width)
    finish i (if number = 2 then .proceed else .leave)

end Exec

end X86Replay

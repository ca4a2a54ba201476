import X86Replay.Cpu.Basic
import X86Replay.Memory.Basic

/-!
# Execution

`Machine`: a processor, its memory and the log of physical spans it has written. `Exec` is a
computation on a machine that may raise an exception; what it changed before the exception stays.

* `Cpu.linearAddress`: segmentation, with limit, write and canonical checks.
* `Exec.readMem`, `Exec.writeMem`, `Exec.push`, `Exec.pop`: memory through segments.
* `Exec.branchTo`, `Exec.callTo`, `Exec.retNear`: near control transfers.

The instruction pointer and the stack pointer move only after all that may fail has succeeded.

Names in parentheses are those in the emulator, here in its module `threaded`.
-/

namespace X86Replay

/-! ## Outcomes -/

/-- An I/O access to be completed by the surrounding monitor (`IoRequest`). -/
structure IoRequest where
  /-- The I/O address, or none if it is in DX. -/
  address : Option UInt16
  size : Nat
  write : Bool
  string : Bool
  rep : Bool
deriving DecidableEq, Repr

/-- Why the run loop has to be left (`StopReason`). -/
inductive Stop where
  | halt
  | io (request : IoRequest)
  /-- `INT n`, `INT3` or `INTO`; RIP is past the instruction. -/
  | softwareInterrupt (vector : UInt8)
  | assist (reason : AssistReason)
deriving DecidableEq, Repr

/-- Whether the instruction that stopped has been completed. -/
def Stop.retires : Stop → Bool
  | .halt | .softwareInterrupt _ => true
  | .io _ | .assist _ => false

/-- How an instruction ended (`CallStatus`). -/
inductive Outcome where
  /-- The next instruction of the block follows. -/
  | proceed
  /-- The block ends here and the run loop goes on. -/
  | leave
  | stop (reason : Stop)
deriving DecidableEq, Repr

/-! ## Checks on the processor state -/

/-- Whether bits 47 to 63 of an address agree (`is_canonical`). -/
def isCanonical (a : UInt64) : Bool :=
  a >>> 47 == 0 || a >>> 47 == 0x1FFFF

namespace Cpu

/-- The exception that an invalid address in a segment raises. -/
def segmentFault (s : SegmentName) : Exception :=
  if s = .ss then .stackFault 0 else .generalProtection 0

/-- The base that a segment adds in 64-bit code: only FS and GS have one. -/
def base64 (cpu : Cpu) (s : SegmentName) : UInt64 :=
  if s = .fs ∨ s = .gs then (cpu.seg s).base else 0

/-- Whether protected mode forbids writes through a segment. -/
def forbidsWrite (cpu : Cpu) (s : SegmentName) : Bool :=
  cpu.isProtected && !cpu.isVirtual8086 && ((cpu.seg s).has .code || !(cpu.seg s).has .writable)

/-- The linear address of `n` bytes at an offset in a segment (`linear`). -/
def linearAddress (cpu : Cpu) (s : SegmentName) (offset n : UInt64) (write : Bool) :
    Except Exception UInt64 :=
  if cpu.is64Bit then
    let linear := cpu.base64 s + offset
    let last := linear + (n - 1)
    if isCanonical linear && isCanonical last then .ok linear else .error (segmentFault s)
  else
    let last := offset + (n - 1)
    if (cpu.seg s).limit.toUInt64 < last || last < offset || write && cpu.forbidsWrite s then
      .error (segmentFault s)
    else
      .ok (((cpu.seg s).base + offset) &&& 0xFFFFFFFF)

/-- A near branch target cut to the operand size, if it is canonical or inside the code segment
    (`branch_target`). -/
def branchTarget (cpu : Cpu) (target : UInt64) (size : OperandSize) : Except Exception UInt64 :=
  let target := target &&& size.mask
  let valid :=
    if cpu.is64Bit then isCanonical target else target ≤ (cpu.seg .cs).limit.toUInt64
  if valid then .ok target else .error (.generalProtection 0)

end Cpu

/-! ## Computations -/

/-- A processor with memory of type `M` and the log of what it has written (`ThreadedCtx`). -/
structure Machine (M : Type) where
  cpu : Cpu
  mem : M
  log : Array PhysSpan := #[]

/-- A computation on a machine that may raise an exception. -/
abbrev Exec (M : Type) := ExceptT Exception (StateM (Machine M))

variable {M : Type}

namespace Exec

/-- The processor state. -/
def cpu : Exec M Cpu := fun m => (.ok m.cpu, m)

/-- Changes the processor state. -/
def modifyCpu (f : Cpu → Cpu) : Exec M Unit := fun m => (.ok (), { m with cpu := f m.cpu })

/-- Answers a check on the machine. -/
def check {α : Type} (f : Machine M → Except Exception α) : Exec M α := fun m => (f m, m)

variable [GuestMemory M]

/-- Reads an operand through a segment (`read_mem`). -/
def readMem (s : SegmentName) (offset : UInt64) (size : OperandSize) : Exec M UInt64 :=
  check fun m => do
    let linear ← m.cpu.linearAddress s offset size.step false
    let mapping ← mapForAccess m.mem linear size.bytes .read m.cpu.cpl
    return mapping.word

/-- Writes an operand through a segment (`write_mem`). -/
def writeMem (s : SegmentName) (offset : UInt64) (size : OperandSize) (v : UInt64) :
    Exec M Unit := fun ⟨cpu, mem, log⟩ =>
  let mapped := do
    let linear ← cpu.linearAddress s offset size.step true
    mapForAccess mem linear size.bytes .write cpu.cpl
  match mapped with
  | .error e => (.error e, ⟨cpu, mem, log⟩)
  | .ok mapping =>
    let (result, mem, log) := (mapping.setWord v).commit mem log
    (result, ⟨cpu, mem, log⟩)

/-- Pushes an operand (`push`). The stack pointer moves after the store. -/
def push (size : OperandSize) (v : UInt64) : Exec M Unit := do
  let cpu ← Exec.cpu
  let sp := (cpu.stackPointer - size.step) &&& cpu.stackAddressSize.mask
  writeMem .ss sp size v
  modifyCpu (·.setStackPointer sp)

/-- Pops an operand (`pop`). -/
def pop (size : OperandSize) : Exec M UInt64 := do
  let sp := (← Exec.cpu).stackPointer
  let v ← readMem .ss sp size
  modifyCpu (·.setStackPointer (sp + size.step))
  return v

/-- Jumps to a near target (`branch_to`). -/
def branchTo (target : UInt64) (size : OperandSize) : Exec M Outcome := do
  let target ← check (·.cpu.branchTarget target size)
  modifyCpu (·.setRip target)
  return .proceed

/-- Calls a near target (`call_to`). The return address is pushed once the target has been
    checked. -/
def callTo (target returnRip : UInt64) (size : OperandSize) : Exec M Outcome := do
  let target ← check (·.cpu.branchTarget target size)
  push size (returnRip &&& size.mask)
  modifyCpu (·.setRip target)
  return .proceed

/-- Returns to the near address on the stack and releases `release` bytes below it (`ret_near`). The
    stack pointer stays if that address is invalid. -/
def retNear (size : OperandSize) (release : UInt64) : Exec M Outcome := do
  let sp := (← Exec.cpu).stackPointer
  let address ← readMem .ss sp size
  let target ← check (·.cpu.branchTarget address size)
  modifyCpu fun cpu => (cpu.setStackPointer (sp + size.step + release)).setRip target
  return .proceed

end Exec

end X86Replay

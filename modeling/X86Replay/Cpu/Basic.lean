import X86Replay.Cpu.Segment
import X86Replay.Flags.Basic

/-!
# Processor state

`Cpu`: the architectural state of one virtual processor, with the rules of its registers:

* writes of 32 bits clear the upper half of a general register, narrower ones merge;
* the instruction pointer and the stack pointer wrap at the width of the code and of the stack;
* every write of CR0, CR3, CR4 or EFER starts a new epoch, as it may change where linear addresses
  lead.

Names in parentheses are those in the emulator, here in its module `state`.
-/

namespace X86Replay

/-! ## Control bits -/

/-- CR0.PE, protected mode. -/
def Cr0.protection : UInt64 := 0x1

/-- CR0.PG, paging. -/
def Cr0.paging : UInt64 := 0x80000000

/-- CR4.DE, I/O breakpoints. -/
def Cr4.debugExtensions : UInt64 := 0x8

/-- CR4.PAE, physical address extension. -/
def Cr4.pae : UInt64 := 0x20

/-- EFER.LME, long mode enabled. -/
def Efer.longModeEnable : UInt64 := 0x100

/-- EFER.LMA, long mode active. -/
def Efer.longModeActive : UInt64 := 0x400

/-! ## General registers -/

/-- The bit of a register reference that stands for the high byte (`AH`, `CH`, `DH`, `BH`) of the
    register in its low two bits (`GPR_HIGH8`). -/
def highByteMark : UInt8 := 0x10

/-- The reference to a register number at a size (`gpr_ref`). Without a REX prefix the byte
    registers 4 to 7 are the high bytes of the first four registers. -/
def registerRef (index : UInt8) (size : OperandSize) (rexPresent : Bool) : UInt8 :=
  if size = .bits8 ∧ !rexPresent ∧ 4 ≤ index ∧ index < 8 then (index - 4) ||| highByteMark
  else index

/-- The slot of a register number. -/
def gprSlot (n : UInt8) : Fin 16 :=
  ⟨n.toNat % 16, Nat.mod_lt _ (by decide)⟩

/-- The stack pointer's number (`RSP`). -/
def rsp : UInt8 := 4

/-! ## State -/

/-- The virtualization context that the processor executes in (`ExecContext`). -/
inductive ExecContext where
  | normal
  | vmx (inGuest : Bool)
  | svm (inGuest : Bool)
  | smm
deriving DecidableEq, Repr

/-- The state of a virtual processor (`CpuState`). -/
structure Cpu where
  gpr : Vector UInt64 16
  rip : UInt64
  rflags : UInt64
  segments : Segments
  cr0 : UInt64
  cr2 : UInt64
  cr3 : UInt64
  cr4 : UInt64
  efer : UInt64
  dr7 : UInt64
  context : ExecContext
  /-- Requests that make the run loop return before the next block. -/
  force : UInt32
  halted : Bool
  /-- The number of changes to where linear addresses may lead, modulo `2 ^ 64`. -/
  epoch : UInt64
deriving DecidableEq, Repr

namespace Cpu

/-- Real mode as after power-on, with all selectors zero (`new_real_mode`). -/
def realMode : Cpu where
  gpr := Vector.replicate 16 0
  rip := 0
  rflags := RFlags.fixed
  segments := (Segments.same (.real 0)).set .cs (.realCode 0)
  cr0 := 0
  cr2 := 0
  cr3 := 0
  cr4 := 0
  efer := 0
  dr7 := 0x400
  context := .normal
  force := 0
  halted := false
  epoch := 0

/-- Protected mode with flat 32-bit segments at privilege level zero (`new_flat32`). -/
def flat32 : Cpu :=
  { realMode with
    cr0 := Cr0.protection
    segments := (Segments.same (.flatData32 0x10)).set .cs (.flatCode32 0x08) }

/-- Long mode with a 64-bit code segment at privilege level zero (`new_long64`). -/
def long64 : Cpu :=
  { flat32 with
    cr0 := flat32.cr0 ||| Cr0.paging
    cr4 := flat32.cr4 ||| Cr4.pae
    efer := Efer.longModeEnable ||| Efer.longModeActive
    segments := flat32.segments.set .cs (.code64 0x08) }

/-! ## Modes -/

/-- The segment register of a name (`seg`). -/
def seg (cpu : Cpu) (n : SegmentName) : SegmentRegister :=
  cpu.segments.get n

/-- The state with one segment register replaced (`seg_mut`). -/
def setSeg (cpu : Cpu) (n : SegmentName) (r : SegmentRegister) : Cpu :=
  { cpu with segments := cpu.segments.set n r }

/-- Whether the processor is in protected mode (`protected_mode`). -/
def isProtected (cpu : Cpu) : Bool :=
  cpu.cr0 &&& Cr0.protection != 0

/-- Whether any flag of `mask` is set (`get_flag`). -/
def hasFlag (cpu : Cpu) (mask : UInt64) : Bool :=
  RFlags.has cpu.rflags mask

/-- Whether the processor is in virtual-8086 mode (`v86_mode`). -/
def isVirtual8086 (cpu : Cpu) : Bool :=
  cpu.isProtected && cpu.hasFlag RFlags.virtual8086

/-- Whether long mode is active (`long_mode_active`). -/
def isLongMode (cpu : Cpu) : Bool :=
  cpu.efer &&& Efer.longModeActive != 0

/-- The width of the current code segment (`code_mode`). -/
def codeWidth (cpu : Cpu) : CodeWidth :=
  let cs := cpu.seg .cs
  if cpu.isVirtual8086 then .bits16
  else if cpu.isLongMode && cs.has .long then .bits64
  else if cs.isBig then .bits32
  else .bits16

/-- Whether the current code segment has 64 bits (`is_64bit`). -/
def is64Bit (cpu : Cpu) : Bool :=
  cpu.codeWidth == .bits64

/-- The current privilege level (`cpl`). -/
def cpl (cpu : Cpu) : UInt8 :=
  if !cpu.isProtected then 0
  else if cpu.isVirtual8086 then 3
  else ((cpu.seg .cs).selector &&& 3).toUInt8

/-- The privilege level that I/O and interrupt control need (`iopl`). -/
def iopl (cpu : Cpu) : UInt8 :=
  ((cpu.rflags &&& RFlags.iopl) >>> 12).toUInt8

/-! ## Instruction pointer -/

/-- The bits that a load of RIP keeps (`ip_mask`). -/
def ripMask (cpu : Cpu) : UInt64 :=
  cpu.codeWidth.ripMask

/-- RIP loaded with a new value (`set_rip`). -/
def setRip (cpu : Cpu) (rip : UInt64) : Cpu :=
  { cpu with rip := rip &&& cpu.ripMask }

/-- RIP moved past `delta` bytes of straight-line code, wrapping at the width of the code
    (`advance_rip`). -/
def advanceRip (cpu : Cpu) (delta : UInt64) : Cpu :=
  { cpu with rip := (cpu.rip + delta) &&& cpu.codeWidth.ipLimit }

/-- The linear address of an instruction pointer in code of the given width (`linear`). -/
def linearIp (cpu : Cpu) (width : CodeWidth) (ip : UInt64) : UInt64 :=
  match width with
  | .bits64 => ip
  | _ => ((cpu.seg .cs).base + ip) &&& 0xFFFFFFFF

/-- The linear address of the next instruction (`linear_pc`). -/
def linearPc (cpu : Cpu) : UInt64 :=
  cpu.linearIp cpu.codeWidth cpu.rip

/-! ## Flags and control registers -/

/-- RFLAGS loaded with a new value, of which the fixed bit stays one (`set_rflags`). -/
def setRflags (cpu : Cpu) (flags : UInt64) : Cpu :=
  { cpu with rflags := flags ||| RFlags.fixed }

/-- The flags of `mask` set or cleared (`set_flag`). -/
def setFlag (cpu : Cpu) (mask : UInt64) (on : Bool) : Cpu :=
  { cpu with rflags := RFlags.put cpu.rflags mask on }

/-- A new epoch, in which linear addresses may lead elsewhere (`bump_translation_epoch`). -/
def bumpEpoch (cpu : Cpu) : Cpu :=
  { cpu with epoch := cpu.epoch + 1 }

/-- CR0 loaded with a new value (`set_cr0`). -/
def setCr0 (cpu : Cpu) (v : UInt64) : Cpu :=
  { cpu with cr0 := v }.bumpEpoch

/-- CR3 loaded with a new value (`set_cr3`). -/
def setCr3 (cpu : Cpu) (v : UInt64) : Cpu :=
  { cpu with cr3 := v }.bumpEpoch

/-- CR4 loaded with a new value (`set_cr4`). -/
def setCr4 (cpu : Cpu) (v : UInt64) : Cpu :=
  { cpu with cr4 := v }.bumpEpoch

/-- EFER loaded with a new value (`set_efer`). -/
def setEfer (cpu : Cpu) (v : UInt64) : Cpu :=
  { cpu with efer := v }.bumpEpoch

/-! ## General registers -/

/-- The whole slot of a register number. -/
def gprAt (cpu : Cpu) (n : UInt8) : UInt64 :=
  cpu.gpr.get (gprSlot n)

/-- The whole slot of a register number replaced. -/
def setGprAt (cpu : Cpu) (n : UInt8) (v : UInt64) : Cpu :=
  { cpu with gpr := cpu.gpr.set (gprSlot n).val v (gprSlot n).isLt }

/-- The value of a register reference at a size (`read_gpr`). -/
def readGpr (cpu : Cpu) (ref : UInt8) (size : OperandSize) : UInt64 :=
  if ref &&& highByteMark != 0 then (cpu.gprAt (ref &&& 3) >>> 8) &&& 0xFF
  else cpu.gprAt ref &&& size.mask

/-- A register reference written at a size: 32 bits clear the upper half, fewer bits merge
    (`write_gpr`). -/
def writeGpr (cpu : Cpu) (ref : UInt8) (size : OperandSize) (v : UInt64) : Cpu :=
  if ref &&& highByteMark != 0 then
    let n := ref &&& 3
    cpu.setGprAt n ((cpu.gprAt n &&& ~~~(0xFF00 : UInt64)) ||| ((v &&& 0xFF) <<< 8))
  else
    cpu.setGprAt ref <|
      match size with
      | .bits64 => v
      | .bits32 => v &&& 0xFFFFFFFF
      | .bits16 | .bits8 => (cpu.gprAt ref &&& ~~~size.mask) ||| (v &&& size.mask)

/-! ## Stack pointer -/

/-- The address size of implicit stack accesses (`stack_addr_size`). -/
def stackAddressSize (cpu : Cpu) : AddressSize :=
  if cpu.is64Bit then .bits64
  else if (cpu.seg .ss).isBig && !cpu.isVirtual8086 then .bits32
  else .bits16

/-- The stack pointer at the width of the stack (`stack_ptr`). -/
def stackPointer (cpu : Cpu) : UInt64 :=
  cpu.gprAt rsp &&& cpu.stackAddressSize.mask

/-- The stack pointer written at the width of the stack; the bits above it stay
    (`set_stack_ptr`). -/
def setStackPointer (cpu : Cpu) (v : UInt64) : Cpu :=
  let mask := cpu.stackAddressSize.mask
  cpu.setGprAt rsp ((cpu.gprAt rsp &&& ~~~mask) ||| (v &&& mask))

end Cpu

end X86Replay

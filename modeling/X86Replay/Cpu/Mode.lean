import X86Replay.Config
import X86Replay.Cpu.Basic

/-!
# Execution mode

`ModeFlags`: the part of the processor state that code is compiled against, as one word.

| Bits     | Meaning                                           |
|----------|---------------------------------------------------|
| 0 to 1   | 16-bit, 32-bit or 64-bit code                     |
| 2        | 16-bit: target before the 386; 32-bit: flat       |
| 3        | protected mode                                    |
| 4        | virtual-8086 mode                                 |
| 6        | locks are disregarded                             |
| 8 to 10  | pending breakpoints on instructions, data and I/O |
| 12 to 13 | privilege level                                   |
| 16 to 19 | VMX, SVM, in a guest, SMM                         |

* `ModeFlags.ofCpu`: the flags of a processor state.
* `ModeFlags.key`: the flags that tell blocks apart. Privilege and virtualization do not change how
  code decodes; system management code is kept apart all the same.

Names in parentheses are those in the emulator, here in its module `mode`.
-/

namespace X86Replay

/-! ## Valid modes -/

/-- The valid combinations of width, flatness, protection and virtual-8086 mode (`ExecMode`). -/
inductive ExecMode where
  | real16
  | pre386
  | prot16
  | protPre386
  | virtual8086
  | bits32
  | flat32
  | prot32
  | protFlat32
  | bits64
deriving DecidableEq, Repr

namespace ExecMode

/-- The mode in the low five bits of the flags. -/
def bits : ExecMode → UInt32
  | .real16 => 0x00
  | .pre386 => 0x04
  | .prot16 => 0x08
  | .protPre386 => 0x0C
  | .virtual8086 => 0x18
  | .bits32 => 0x01
  | .flat32 => 0x05
  | .prot32 => 0x09
  | .protFlat32 => 0x0D
  | .bits64 => 0x0A

/-- The mode that the low five bits of a word stand for (`from_bits`). -/
def ofBits? (w : UInt32) : Option ExecMode :=
  match w &&& 0x1F with
  | 0x00 => some .real16
  | 0x04 => some .pre386
  | 0x08 => some .prot16
  | 0x0C => some .protPre386
  | 0x18 => some .virtual8086
  | 0x01 => some .bits32
  | 0x05 => some .flat32
  | 0x09 => some .prot32
  | 0x0D => some .protFlat32
  | 0x0A => some .bits64
  | _ => none

/-- The width of code in the mode (`decode_mode`). -/
def codeWidth (m : ExecMode) : CodeWidth :=
  match m.bits &&& 3 with
  | 0 => .bits16
  | 1 => .bits32
  | _ => .bits64

theorem ofBits?_bits (m : ExecMode) : ofBits? m.bits = some m := by
  cases m <;> rfl

end ExecMode

/-! ## Flags -/

/-- The execution mode flags (`ExecModeFlags`). Any word may be written; `ofCpu` makes the
    meaningful ones. -/
structure ModeFlags where
  bits : UInt32
deriving DecidableEq, Repr

namespace ModeFlags

/-- The flags of code width. -/
def widthMask : UInt32 := 0x3

/-- Flat segments in 32-bit code, a target before the 386 in 16-bit code. -/
def flatOrPre386 : UInt32 := 0x4

/-- Protected mode. -/
def protectedMode : UInt32 := 0x8

/-- Locks are disregarded. -/
def disregardLock : UInt32 := 0x40

/-- An instruction breakpoint is enabled. -/
def instructionBreakpoint : UInt32 := 0x100

/-- A data breakpoint is enabled. -/
def dataBreakpoint : UInt32 := 0x200

/-- An I/O breakpoint is enabled. -/
def ioBreakpoint : UInt32 := 0x400

/-- The privilege level. -/
def cplMask : UInt32 := 0x3000

/-- A VMX context. -/
def vmx : UInt32 := 0x10000

/-- An SVM context. -/
def svm : UInt32 := 0x20000

/-- In the guest of a VMX or SVM context. -/
def inGuest : UInt32 := 0x40000

/-- System management mode. -/
def smm : UInt32 := 0x80000

/-- The four flags of the context (`CTX_MASK`). -/
def contextMask : UInt32 := 0xF0000

/-- The flags that tell blocks apart (`KEY_MASK`). -/
def keyMask : UInt32 := ~~~(cplMask ||| contextMask) ||| smm

/-- A flag if a condition holds. -/
def flagIf (c : Bool) (flag : UInt32) : UInt32 :=
  if c then flag else 0

/-- Whether CS, DS, ES and SS are all flat (`flat_data_segments`). -/
def hasFlatSegments (cpu : Cpu) : Bool :=
  [SegmentName.cs, .ds, .es, .ss].all fun s => (cpu.seg s).isFlat

/-- The mode flags proper (part of `from_cpu`). -/
def modeBits (cpu : Cpu) (target : CpuTarget) : UInt32 :=
  match cpu.codeWidth with
  | .bits64 => ExecMode.bits64.bits
  | .bits32 =>
    ExecMode.bits32.bits ||| flagIf cpu.isProtected protectedMode
      ||| flagIf (hasFlatSegments cpu) flatOrPre386
  | .bits16 =>
    if cpu.isVirtual8086 then ExecMode.virtual8086.bits
    else
      ExecMode.real16.bits ||| flagIf cpu.isProtected protectedMode
        ||| flagIf target.isPre386 flatOrPre386

/-- The flag of breakpoint `i` by its kind in DR7, if it is enabled. I/O breakpoints need the
    debug extensions. -/
def breakpointBits (cpu : Cpu) (i : Nat) : UInt32 :=
  if cpu.dr7 &&& ((3 : UInt64) <<< (2 * i).toUInt64) = 0 then 0
  else
    match (cpu.dr7 >>> (16 + 4 * i).toUInt64) &&& 3 with
    | 0 => instructionBreakpoint
    | 2 => flagIf (cpu.cr4 &&& Cr4.debugExtensions != 0) ioBreakpoint
    | _ => dataBreakpoint

/-- The flags of all enabled breakpoints (`pending_breakpoints`). -/
def pendingBreakpoints (cpu : Cpu) : UInt32 :=
  (List.range 4).foldl (fun bits i => bits ||| breakpointBits cpu i) 0

/-- The flags of the virtualization context (part of `from_cpu`). -/
def contextBits : ExecContext → UInt32
  | .normal => 0
  | .vmx guest => vmx ||| flagIf guest inGuest
  | .svm guest => svm ||| flagIf guest inGuest
  | .smm => smm

/-- The flags of a processor state (`from_cpu`). -/
def ofCpu (cpu : Cpu) (target : CpuTarget) (lockDisregarded : Bool) : ModeFlags :=
  ⟨modeBits cpu target ||| flagIf lockDisregarded disregardLock ||| pendingBreakpoints cpu
    ||| (cpu.cpl.toUInt32 <<< 12) ||| contextBits cpu.context⟩

/-- The mode, if the flags hold a valid one (`mode`). -/
def mode? (f : ModeFlags) : Option ExecMode :=
  ExecMode.ofBits? f.bits

/-- The width of code (`decode_mode`). -/
def codeWidth (f : ModeFlags) : CodeWidth :=
  match f.bits &&& widthMask with
  | 0 => .bits16
  | 1 => .bits32
  | _ => .bits64

/-- The privilege level (`cpl`). -/
def cpl (f : ModeFlags) : UInt8 :=
  ((f.bits &&& cplMask) >>> 12).toUInt8

/-- The flags that tell blocks apart (`key`). -/
def key (f : ModeFlags) : UInt32 :=
  f.bits &&& keyMask

/-- Whether code has 64 bits (`is_64bit`). -/
def is64Bit (f : ModeFlags) : Bool :=
  f.bits &&& widthMask == 2

/-- Whether neither base nor limit of a segment can affect execution (`is_flat`). -/
def isFlat (f : ModeFlags) : Bool :=
  f.is64Bit || (f.bits &&& widthMask == 1 && f.bits &&& flatOrPre386 != 0)

/-- Whether every instruction has to be checked against the code limit (`needs_cs_lim_checks`). -/
def needsLimitChecks (f : ModeFlags) : Bool :=
  !f.isFlat

end ModeFlags

end X86Replay

/-!
# The flags register

The bits of RFLAGS as masks, and the two ways of changing them.

Names in parentheses are those in the emulator, here in its modules `state` and `alu`.
-/

namespace X86Replay.RFlags

/-- CF, the unsigned carry or borrow. -/
def carry : UInt64 := 0x1

/-- The bit that always reads as one. -/
def fixed : UInt64 := 0x2

/-- PF, even parity of the low byte. -/
def parity : UInt64 := 0x4

/-- AF, the carry or borrow out of the low four bits. -/
def adjust : UInt64 := 0x10

/-- ZF, a zero result. -/
def zero : UInt64 := 0x40

/-- SF, a negative result. -/
def sign : UInt64 := 0x80

/-- TF, single-step mode. -/
def trap : UInt64 := 0x100

/-- IF, external interrupts are taken. -/
def interrupt : UInt64 := 0x200

/-- DF, string operations count down. -/
def direction : UInt64 := 0x400

/-- OF, the signed overflow. -/
def overflow : UInt64 := 0x800

/-- IOPL, the two bits of the I/O privilege level. -/
def iopl : UInt64 := 0x3000

/-- NT, a nested task. -/
def nestedTask : UInt64 := 0x4000

/-- RF, instruction breakpoints are held off. -/
def resume : UInt64 := 0x10000

/-- VM, virtual-8086 mode. -/
def virtual8086 : UInt64 := 0x20000

/-- AC, alignment checks. -/
def alignment : UInt64 := 0x40000

/-- ID, `CPUID` exists. -/
def identification : UInt64 := 0x200000

/-- The flags that a popped image may change at every privilege level (`POPF_BASE_MASK`). -/
def poppable : UInt64 :=
  carry ||| parity ||| adjust ||| zero ||| sign ||| trap ||| direction ||| overflow
    ||| nestedTask ||| alignment ||| identification

/-- Whether any bit of `mask` is set (`get_flag`). -/
def has (flags mask : UInt64) : Bool :=
  flags &&& mask != 0

/-- `flags` with all bits of `mask` set or cleared (`set`). -/
def put (flags mask : UInt64) (on : Bool) : UInt64 :=
  if on then flags ||| mask else flags &&& ~~~mask

/-- `flags` with the bits of `mask` taken from `image`. -/
def merge (flags mask image : UInt64) : UInt64 :=
  (flags &&& ~~~mask) ||| (image &&& mask)

end X86Replay.RFlags

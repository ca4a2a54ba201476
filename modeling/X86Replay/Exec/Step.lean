import X86Replay.Exec.Execute
import X86Replay.Instruction.Decode

/-!
# Fetching and stepping

* `Exec.executeBytes`: decodes given bytes in the current code width and executes them.
* `Exec.step`: fetches, decodes and executes the instruction at CS:RIP. The second page of an
  instruction that crosses a page boundary is touched only if the bytes on the first one do not
  decide.

Names in parentheses are those in the emulator, here in its module `interp`.
-/

namespace X86Replay

variable {M : Type} [GuestMemory M]

/-- The exception that undecodable bytes raise: an encoding past the length limit is a protection
    fault, any other an invalid opcode (`decode_fault`). -/
def DecodeError.exception : DecodeError → Exception
  | .tooLong => .generalProtection 0
  | .unexpectedEnd | .invalid => .invalidOpcode

/-- A decoded instruction, or the exception that its bytes raise. -/
def decodeOrFault (width : CodeWidth) (bytes : List UInt8) : Except Exception Instruction :=
  (decode width bytes).mapError DecodeError.exception

/-- The instruction at a linear address, as its bytes are fetched from memory (the fetch in
    `step`). -/
def fetchInstruction (cpu : Cpu) (mem : M) (pc : UInt64) : Except Exception Instruction := do
  let room := min (pageRoom pc) maxInstructionLength
  let page ← mapForFetch mem pc cpu.cpl
  let near ← readBytes mem (page ||| pageOffset pc) room
  if room < maxInstructionLength ∧ decode cpu.codeWidth near matches .error .unexpectedEnd then
    let page ← mapForFetch mem (nextPage pc) cpu.cpl
    let far ← readBytes mem page (maxInstructionLength - room)
    decodeOrFault cpu.codeWidth (near ++ far)
  else
    decodeOrFault cpu.codeWidth near

/-- Whether `n` bytes at CS:RIP lie inside the code segment (the limit test in `step` and
    `check_cs_lim`). -/
def Cpu.codeInLimit (cpu : Cpu) (n : UInt64) : Bool :=
  cpu.rip + (n - 1) ≤ (cpu.seg .cs).limit.toUInt64

namespace Exec

/-- Decodes bytes in the current code width and executes the instruction (`execute_bytes`). -/
def executeBytes (bytes : List UInt8) : Exec M Outcome := do
  execute (← check fun m => decodeOrFault m.cpu.codeWidth bytes)

/-- Fetches, decodes and executes the instruction at CS:RIP (`step`). Outside 64-bit code all its
    bytes have to lie inside the code segment. -/
def step : Exec M Outcome := do
  let i ← check fun m => fetchInstruction m.cpu m.mem m.cpu.linearPc
  require fun c => c.is64Bit || c.codeInLimit i.step
  execute i

end Exec

end X86Replay

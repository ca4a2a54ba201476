import X86Replay.Text.Hex

/-!
# Exceptions

* `Exception`: what translating or executing guest code may raise, with its text, vector and error
  code. A faulting instruction leaves RIP at its start.
* `AssistReason`: why an instruction has to be completed by the surrounding monitor.

Names in parentheses are those in the emulator, here in its module `exception`.
-/

namespace X86Replay

/-- An architectural exception (`Exception`). -/
inductive Exception where
  | divideError
  | debug
  | breakpoint
  | overflow
  | invalidOpcode
  | deviceNotAvailable
  | segmentNotPresent (selector : UInt16)
  | stackFault (selector : UInt16)
  | generalProtection (selector : UInt16)
  | pageFault (address : UInt64) (code : UInt32)
  | alignmentCheck
deriving DecidableEq, Repr

namespace Exception

/-- The exception by its mnemonic, with its selector or its address and code. -/
def message : Exception → String
  | .divideError => "#DE"
  | .debug => "#DB"
  | .breakpoint => "#BP"
  | .overflow => "#OF"
  | .invalidOpcode => "#UD"
  | .deviceNotAvailable => "#NM"
  | .segmentNotPresent sel => "#NP(" ++ hexText sel.toNat ++ ")"
  | .stackFault sel => "#SS(" ++ hexText sel.toNat ++ ")"
  | .generalProtection sel => "#GP(" ++ hexText sel.toNat ++ ")"
  | .pageFault address code =>
    "#PF(addr=" ++ hexText address.toNat ++ ", error_code=" ++ hexText code.toNat ++ ")"
  | .alignmentCheck => "#AC"

/-- The vector through which the exception is delivered (`vector`). -/
def vector : Exception → UInt8
  | .divideError => 0
  | .debug => 1
  | .breakpoint => 3
  | .overflow => 4
  | .invalidOpcode => 6
  | .deviceNotAvailable => 7
  | .segmentNotPresent _ => 11
  | .stackFault _ => 12
  | .generalProtection _ => 13
  | .pageFault _ _ => 14
  | .alignmentCheck => 17

/-- The error code that is pushed on delivery, if the vector has one (`error_code`). -/
def errorCode? : Exception → Option UInt32
  | .segmentNotPresent sel | .stackFault sel | .generalProtection sel => some sel.toUInt32
  | .pageFault _ code => some code
  | .alignmentCheck => some 0
  | _ => none

end Exception

/-- Why an instruction is handed to the surrounding monitor (`AssistReason`). -/
inductive AssistReason where
  | cpuid
  /-- `RDMSR` and `WRMSR`. -/
  | msr
  /-- A segment load or far transfer that needs a descriptor table. -/
  | segmentLoad
  | privileged
  /-- A valid encoding without semantics here. -/
  | unsupported
deriving DecidableEq, Repr

end X86Replay

import X86Replay.Exec.Step

/-!
# Calls

A block is a list of calls. Each names a handler and carries up to three words that were decided
when the block was compiled: packed operands, immediates, displacements, raw bytes.

* `Handler`: the handlers, with their names and parameter counts.
* `Call.run`: what a call does. RIP stays at the start of the instruction until it completes.

The table that leads from a name to its handler is the default one (`THREADED_FUNCTIONS`). Runners
with another table (`with_function_table`) are left out: none can be made outside the emulator.

Names in parentheses are those in the emulator, here in its module `threaded`.
-/

namespace X86Replay

variable {M : Type} [GuestMemory M]

/-! ## Handlers -/

/-- What a call can do (`ThreadedFunction`). -/
inductive Handler where
  | nop
  /-- Checks the instruction that follows against the code limit. -/
  | checkLimit
  | movRegImm
  | movRegReg
  | loadReg
  | storeReg
  | aluRegReg
  | aluRegImm
  | incDecReg
  | pushReg
  | popReg
  | jmpRel
  | jccRel
  | callRel
  | ret
  | hlt
  /-- Decodes and executes the raw bytes of an instruction. -/
  | deferred
deriving DecidableEq, Repr

namespace Handler

/-- All handlers in the order of their numbers. -/
def all : List Handler :=
  [.nop, .checkLimit, .movRegImm, .movRegReg, .loadReg, .storeReg, .aluRegReg, .aluRegImm,
    .incDecReg, .pushReg, .popReg, .jmpRel, .jccRel, .callRel, .ret, .hlt, .deferred]

/-- The name by which a handler is listed (the names in `THREADED_FUNCTIONS`). -/
def name : Handler → String
  | .nop => "Nop"
  | .checkLimit => "CheckCsLim"
  | .movRegImm => "MovRegImm"
  | .movRegReg => "MovRegReg"
  | .loadReg => "LoadReg"
  | .storeReg => "StoreReg"
  | .aluRegReg => "AluRegReg"
  | .aluRegImm => "AluRegImm"
  | .incDecReg => "IncDecReg"
  | .pushReg => "PushReg"
  | .popReg => "PopReg"
  | .jmpRel => "JmpRel"
  | .jccRel => "JccRel"
  | .callRel => "CallRel"
  | .ret => "Ret"
  | .hlt => "Hlt"
  | .deferred => "DeferToFull"

/-- The handler of a name. -/
def ofName? (s : String) : Option Handler :=
  all.find? (·.name == s)

/-- The number of a handler. -/
def index (h : Handler) : Nat :=
  all.idxOf h

/-- The number of words that the handler looks at (the counts in `THREADED_FUNCTIONS`). -/
def paramCount : Handler → Nat
  | .nop | .hlt => 0
  | .checkLimit | .pushReg | .popReg => 1
  | .movRegImm | .movRegReg | .aluRegReg | .aluRegImm | .incDecReg | .jmpRel | .callRel | .ret => 2
  | .loadReg | .storeReg | .jccRel | .deferred => 3

theorem mem_all (h : Handler) : h ∈ all := by
  cases h <;> decide

end Handler

/-! ## Calls -/

/-- A call of a handler (`CallEntry`). -/
structure Call where
  handler : Handler
  /-- The length of the instruction that the call belongs to. -/
  length : UInt8
  /-- The offset of that instruction in the block. -/
  offset : UInt16
  /-- The range of the block that the instruction starts in. -/
  range : UInt8 := 0
  p0 : UInt64 := 0
  p1 : UInt64 := 0
  p2 : UInt64 := 0
deriving DecidableEq, Repr

namespace Call

/-- The operand size in a word (`opsize`). A size that is none stands for 32 bits. -/
def sizeOfWord (raw : UInt64) : OperandSize :=
  (OperandSize.ofBytes? raw.toUInt8).getD .bits32

/-- The length of the instruction as a word. -/
def step (c : Call) : UInt64 :=
  c.length.toUInt64

/-- The instruction pointer after the instruction, without wrapping (`next_rip`). -/
def nextRip (c : Call) (cpu : Cpu) : UInt64 :=
  cpu.rip + c.step

/-- Moves RIP past the instruction, which is thereby complete (`finish`). -/
def retire (c : Call) : Exec M Outcome := do
  Exec.modifyCpu (·.advanceRip c.step)
  return .proceed

/-- The code limit holds for `n` bytes at RIP (`check_cs_lim`). An `n` of zero counts as one. -/
def runCheckLimit (c : Call) : Exec M Outcome := do
  Exec.require (·.codeInLimit (if c.p0 = 0 then 1 else c.p0))
  return .proceed

/-- The register of the first word and the segment offset of the address in the other two. -/
def addressed (c : Call) (cpu : Cpu) : RegisterOperand × SegmentName × UInt64 :=
  let form := AddressForm.unpack c.p1
  (RegisterOperand.unpack c.p0, form.segment, form.offset cpu c.p2.toInt64 (c.nextRip cpu))

/-- A register loaded from memory (`load_reg`). -/
def runLoad (c : Call) : Exec M Outcome := do
  let (dest, s, offset) := c.addressed (← Exec.cpu)
  let v ← Exec.readMem s offset dest.size
  Exec.modifyCpu (·.writeGpr dest.ref dest.size v)
  c.retire

/-- A register stored to memory (`store_reg`). -/
def runStore (c : Call) : Exec M Outcome := do
  let cpu ← Exec.cpu
  let (src, s, offset) := c.addressed cpu
  Exec.writeMem s offset src.size (cpu.readGpr src.ref src.size)
  c.retire

/-- A two-operand operation on the register and with the operation in the first word
    (`alu_into_reg`). -/
def runAlu (c : Call) (src : UInt64) : Exec M Outcome := do
  let (dest, n) := RegisterOperand.unpackWith c.p0
  let op := AluOp.ofIndex n
  let cpu ← Exec.cpu
  let (result, flags) := alu op dest.size cpu.rflags (cpu.readGpr dest.ref dest.size) src
  if op.writesResult then
    Exec.modifyCpu (·.writeGpr dest.ref dest.size result)
  Exec.modifyCpu (·.setRflags flags)
  c.retire

/-- The register of the first word incremented, or decremented if the second is not zero
    (`inc_dec_reg`). -/
def runIncDec (c : Call) : Exec M Outcome := do
  let r := RegisterOperand.unpack c.p0
  let cpu ← Exec.cpu
  let (result, flags) := incDec (c.p1 != 0) r.size cpu.rflags (cpu.readGpr r.ref r.size)
  Exec.modifyCpu fun cpu => (cpu.writeGpr r.ref r.size result).setRflags flags
  c.retire

/-- A jump by the displacement in the first word (the jump of `jmp_rel` and `jcc_rel`). -/
def runJump (c : Call) : Exec M Outcome := do
  Exec.branchTo (c.nextRip (← Exec.cpu) + c.p0) (sizeOfWord c.p1)

/-- Runs a call (the handlers of `THREADED_FUNCTIONS`). -/
def run (c : Call) : Exec M Outcome := do
  match c.handler with
  | .nop => c.retire
  | .checkLimit => c.runCheckLimit
  | .movRegImm =>
    let dest := RegisterOperand.unpack c.p0
    Exec.modifyCpu (·.writeGpr dest.ref dest.size c.p1)
    c.retire
  | .movRegReg =>
    let dest := RegisterOperand.unpack c.p0
    let src := RegisterOperand.unpack c.p1
    Exec.modifyCpu fun cpu => cpu.writeGpr dest.ref dest.size (cpu.readGpr src.ref src.size)
    c.retire
  | .loadReg => c.runLoad
  | .storeReg => c.runStore
  | .aluRegReg =>
    let src := RegisterOperand.unpack c.p1
    c.runAlu ((← Exec.cpu).readGpr src.ref src.size)
  | .aluRegImm => c.runAlu c.p1
  | .incDecReg => c.runIncDec
  | .pushReg =>
    let r := RegisterOperand.unpack c.p0
    Exec.push r.size ((← Exec.cpu).readGpr r.ref r.size)
    c.retire
  | .popReg =>
    let r := RegisterOperand.unpack c.p0
    let v ← Exec.pop r.size
    Exec.modifyCpu (·.writeGpr r.ref r.size v)
    c.retire
  | .jmpRel => c.runJump
  | .jccRel =>
    if (Cond.ofIndex c.p2.toUInt8).eval (← Exec.cpu).rflags then c.runJump else c.retire
  | .callRel =>
    let next := c.nextRip (← Exec.cpu)
    Exec.callTo (next + c.p0) next (sizeOfWord c.p1)
  | .ret => Exec.retNear (sizeOfWord c.p0) c.p1
  | .hlt => Exec.halt c.step
  | .deferred => Exec.executeBytes ((unpackBytes c.p0 c.p1).take c.p2.toNat)

end Call

end X86Replay

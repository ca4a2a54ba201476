import X86Replay.Block.Basic

/-!
# Replaying blocks

`Block.replay`: runs the calls of a block in order, until one faults, leaves the block or stops the
machine, or until the block has stored into its own code. The instructions completed are counted: a
call completes its instruction if the next call belongs to another one.

Names in parentheses are those in the emulator, here in its module `executor`.
-/

namespace X86Replay

variable {M : Type} [GuestMemory M]

/-- How the replay of a block ended without a fault (`ExitReason`). -/
inductive ReplayReason where
  /-- Every call has run. -/
  | completed
  /-- A call has left the block. -/
  | left
  /-- The block has stored into its own code, so that the rest of it is stale. -/
  | selfModified
  | stop (reason : Stop)
deriving DecidableEq, Repr

/-- The end of a replay and the number of instructions completed (`BlockExit`). -/
structure ReplayEnd where
  reason : ReplayReason
  instructions : Nat
deriving DecidableEq, Repr

/-- A fault of one of the instructions, at which RIP then points (`ExecFault`). -/
structure ReplayFault where
  exception : Exception
  /-- The linear address of the instruction. -/
  pc : UInt64
  /-- The length of the instruction. -/
  length : UInt8
  /-- The number of instructions completed before it. -/
  instructions : Nat
deriving DecidableEq, Repr

/-- The fault in words. -/
def ReplayFault.message (f : ReplayFault) : String :=
  f.exception.message ++ " at " ++ hexText f.pc.toNat

namespace Block

/-- Whether one of the spans logged from position `n` on meets the code of the block (part of
    `execute`). -/
def hitBy (b : Block) (log : Array PhysSpan) (n : Nat) : Bool :=
  (log.extract n log.size).any fun s => b.meets s.start s.length.toUInt64

/-- Whether a call is the last one of its instruction, given the calls after it (part of
    `execute`). -/
def isLastOfInstruction (c : Call) (rest : List Call) : Bool :=
  rest.head?.all (·.offset != c.offset)

/-- Runs the given calls, after `n` completed instructions (the loop of `execute`). -/
def replayCalls (b : Block) :
    List Call → Nat → Machine M → Except ReplayFault ReplayEnd × Machine M
  | [], n, m => (.ok ⟨.completed, n⟩, m)
  | c :: rest, n, m =>
    let logged := m.log.size
    match c.run m with
    | (.error e, m) => (.error ⟨e, b.pc + c.offset.toUInt64, c.length, n⟩, m)
    | (.ok .leave, m) => (.ok ⟨.left, n + 1⟩, m)
    | (.ok (.stop s), m) => (.ok ⟨.stop s, if s.retires then n + 1 else n⟩, m)
    | (.ok .proceed, m) =>
      let n := if isLastOfInstruction c rest then n + 1 else n
      if !rest.isEmpty && b.hitBy m.log logged then (.ok ⟨.selfModified, n⟩, m)
      else b.replayCalls rest n m

/-- Runs the calls of the block (`execute`). -/
def replay (b : Block) (m : Machine M) : Except ReplayFault ReplayEnd × Machine M :=
  b.replayCalls b.calls 0 m

end Block

end X86Replay

import X86Replay.Block.Compile
import X86Replay.Block.Replay
import X86Replay.Cache.Store

/-!
# The run loop

`Runner.run`: executes guest code until something needs the caller's attention. Blocks are looked up
by the physical address of CS:RIP, compiled on a miss and replayed; everything that guest stores
touch is dropped from the cache and the fetch window before the next block is looked up.

Exceptions and software interrupts are delivered to an `EventSink`, one for each run at most.

Names in parentheses are those in the emulator, here in its module `driver`.
-/

namespace X86Replay

variable {M : Type} [GuestMemory M]

/-! ## Events and exits -/

/-- What the run loop delivers. -/
inductive Event where
  | exception (e : Exception)
  | interrupt (vector : UInt8)
deriving DecidableEq, Repr

/-- A receiver of events of type `S`, which may change the processor state (`EventSink`). -/
class EventSink (S : Type) where
  deliver : S → Cpu → Event → S × Cpu

/-- Why a run has ended (`ExitStatus`). -/
inductive RunExit where
  | halted
  | exception (e : Exception)
  | io (request : IoRequest)
  | softwareInterrupt (vector : UInt8)
  | assist (reason : AssistReason)
  /-- The trap flag was set and one instruction has been executed. -/
  | singleStep
  | forcedAction (force : UInt32)
  | budgetExhausted
  /-- The first instruction of a block could not be fetched. -/
  | compileFault (fault : CompileFault)
deriving DecidableEq, Repr

/-- What a runner has done so far (`IemStats`). -/
structure RunStats where
  blocksExecuted : Nat := 0
  blocksCompiled : Nat := 0
  compileFaults : Nat := 0
  instructionsRetired : Nat := 0
deriving DecidableEq, Repr

/-! ## Runners -/

/-- The block cache and fetch window of a virtual processor (`Iem`). -/
structure Runner where
  config : Config
  cache : BlockCache
  fetch : FetchStream := {}
  /-- The spans written by the block that is executed, as long as they are not dropped from cache
      and window. -/
  log : Array PhysSpan := #[]
  stats : RunStats := {}

namespace Runner

/-- A runner with an empty cache, if its settings are valid (`new`). -/
def ofConfig? (config : Config) : Except ConfigError Runner := do
  config.validate
  return { config, cache := .empty config.cacheCapacity config.hashBits }

/-- The runner without cached blocks and fetch window (`flush`). -/
def flush (r : Runner) : Runner :=
  { r with cache := r.cache.flush, fetch := r.fetch.drop }

/-- The number of blocks that a write of `n` bytes to physical memory from `start` meets, and the
    runner without them (`notify_phys_write`). -/
def notifyWrite (r : Runner) (start n : UInt64) : Nat × Runner :=
  let ⟨config, cache, fetch, log, stats⟩ := r
  let (count, cache) := cache.invalidate start n
  (count, ⟨config, cache, fetch.dropWritten start n, log, stats⟩)

/-- The runner with an empty log, without what the spans in the log meet (`drain_write_log`). -/
def drain (r : Runner) : Runner :=
  let ⟨config, cache, fetch, log, stats⟩ := r
  log.foldl (fun r s => (r.notifyWrite s.start s.length.toUInt64).2)
    ⟨config, cache, fetch, #[], stats⟩

end Runner

/-! ## States of a run -/

/-- A runner with the processor, memory and receiver that it runs on. -/
structure RunState (M S : Type) where
  runner : Runner
  cpu : Cpu
  mem : M
  sink : S

namespace RunState

variable {S : Type}

/-- The mode flags of the processor. -/
def flags (s : RunState M S) : ModeFlags :=
  .ofCpu s.cpu s.runner.config.target s.runner.config.disregardLock

/-- Executes on the processor and memory, logging writes, and drops what the writes meet. -/
def execute {α : Type} (f : Machine M → α × Machine M) (s : RunState M S) :
    α × RunState M S :=
  let ⟨⟨config, cache, fetch, log, stats⟩, cpu, mem, sink⟩ := s
  let (a, ⟨cpu, mem, log⟩) := f ⟨cpu, mem, log⟩
  (a, ⟨Runner.drain ⟨config, cache, fetch, log, stats⟩, cpu, mem, sink⟩)

/-- Uses the block cache. -/
def withCache {α : Type} (f : BlockCache → α × BlockCache) (s : RunState M S) :
    α × RunState M S :=
  let ⟨⟨config, cache, fetch, log, stats⟩, cpu, mem, sink⟩ := s
  let (a, cache) := f cache
  (a, ⟨⟨config, cache, fetch, log, stats⟩, cpu, mem, sink⟩)

/-- The state with other statistics. -/
def modifyStats (f : RunStats → RunStats) (s : RunState M S) : RunState M S :=
  { s with runner.stats := f s.runner.stats }

/-- The state with `n` more instructions retired. -/
def retire (s : RunState M S) (n : Nat) : RunState M S :=
  s.modifyStats fun t => { t with instructionsRetired := t.instructionsRetired + n }

/-! ## Leaving the loop -/

variable [EventSink S]

/-- Delivers an event. -/
def deliver (s : RunState M S) (e : Event) : RunState M S :=
  let (sink, cpu) := EventSink.deliver s.sink s.cpu e
  { s with sink, cpu }

/-- The end of a run by an exception. -/
def raise (s : RunState M S) (e : Exception) : RunExit × RunState M S :=
  (.exception e, s.deliver (.exception e))

/-- The end of a run by a stop (`stop_status`). -/
def stop (s : RunState M S) : Stop → RunExit × RunState M S
  | .halt => (.halted, s)
  | .io request => (.io request, s)
  | .softwareInterrupt vector => (.softwareInterrupt vector, s.deliver (.interrupt vector))
  | .assist reason => (.assist reason, s)

/-- The end of a run by a fault on the first instruction of a block (part of `run`). -/
def failCompile (s : RunState M S) (f : CompileFault) : RunExit × RunState M S :=
  let s := s.modifyStats fun t => { t with compileFaults := t.compileFaults + 1 }
  (.compileFault f, s.deliver (.exception f.exception))

/-- Executes one instruction without a block (`single_step`). -/
def singleStep (s : RunState M S) : RunExit × RunState M S :=
  match s.execute (Exec.step (M := M)) with
  | (.ok (.stop reason), s) => (s.retire (if reason.retires then 1 else 0)).stop reason
  | (.ok _, s) => (.singleStep, s.retire 1)
  | (.error e, s) => s.raise e

/-! ## The loop -/

/-- Whether the second page of a block is still where it was compiled from (`second_page_current`).
    The first page is part of what a block is looked up by. -/
def secondPageIsCurrent (s : RunState M S) (b : Block) : Bool :=
  match b.secondPage? with
  | none => true
  | some page =>
    match translate s.mem (nextPage s.cpu.linearPc) .execute s.cpu.cpl with
    | .ok a => pageOf a == page
    | .error _ => false

/-- The cached block for a physical address, if it is current (the state `Lookup` of `run`). A block
    whose second page has moved is removed. -/
def cachedBlock (s : RunState M S) (physPc : UInt64) : Option Block × RunState M S :=
  let flags := s.flags
  let identity := CodeIdentity.ofCpu s.cpu
  match s.withCache (·.lookupBlock physPc flags identity) with
  | (none, s) => (none, s)
  | (some (h, b), s) =>
    if s.secondPageIsCurrent b then (some b, s)
    else (none, (s.withCache (·.remove h)).2)

/-- Compiles and caches the block at CS:RIP (the state `Compile` of `run`). The answer is the block
    as the cache holds it. -/
def compiledBlock (s : RunState M S) : Except CompileFault (Option Block) × RunState M S :=
  let (result, fetch) := compileBlock s.cpu s.mem s.runner.fetch s.flags s.runner.config
  let s := { s with runner.fetch := fetch }
  match result with
  | .error f => (.error f, s)
  | .ok b =>
    let s := s.modifyStats fun t => { t with blocksCompiled := t.blocksCompiled + 1 }
    let (h, s) := s.withCache (·.insert b)
    (.ok (s.runner.cache.get? h), s)

/-- Replays a block (the state `Execute` of `run`). The run ends with an exception or a stop, and
    goes on otherwise. -/
def replayBlock (s : RunState M S) (b : Block) : Option RunExit × RunState M S :=
  let s := s.modifyStats fun t => { t with blocksExecuted := t.blocksExecuted + 1 }
  match s.execute b.replay with
  | (.error f, s) => ((s.retire f.instructions).raise f.exception).map some id
  | (.ok ⟨.stop reason, n⟩, s) => ((s.retire n).stop reason).map some id
  | (.ok ⟨_, n⟩, s) => (none, s.retire n)

/-- How the way to the next block ended. -/
inductive Next where
  /-- The run is over. -/
  | exit (e : RunExit)
  /-- A block has to be replayed. -/
  | block (b : Block)
  /-- The compiled block was not found in the cache. -/
  | again

/-- The end of a run that is due before another block, after `blocks` blocks of this run (the tests
    of the state `ResolvePc` of `run`). -/
def exitBefore (s : RunState M S) (blocks : Nat) : Option (RunExit × RunState M S) :=
  if s.cpu.halted then some (.halted, s)
  else if s.cpu.force ≠ 0 then some (.forcedAction s.cpu.force, s)
  else if s.runner.config.maxBlocks ≤ blocks then some (.budgetExhausted, s)
  else if s.cpu.hasFlag RFlags.trap then some s.singleStep
  else none

/-- The block at CS:RIP, cached or compiled (from `ResolvePc` to `Execute` in `run`). -/
def nextBlock (s : RunState M S) : Next × RunState M S :=
  let pc := s.cpu.linearPc
  let (resolved, fetch) := s.runner.fetch.resolve s.cpu s.mem pc
  let s := { s with runner.fetch := fetch }
  match resolved with
  | .error e => (s.failCompile ⟨pc, e⟩).map .exit id
  | .ok physPc =>
    match s.cachedBlock physPc with
    | (some b, s) => (.block b, s)
    | (none, s) =>
      match s.compiledBlock with
      | (.error f, s) => (s.failCompile f).map .exit id
      | (.ok none, s) => (.again, s)
      | (.ok (some b), s) => (.block b, s)

/-- Runs blocks after `blocks` blocks of this run, taking at most `fuel` turns (the loop of
    `run`). -/
def loop : Nat → Nat → RunState M S → RunExit × RunState M S
  | 0, _, s => (.budgetExhausted, s)
  | fuel + 1, blocks, s =>
    match s.exitBefore blocks with
    | some result => result
    | none =>
      match s.nextBlock with
      | (.exit e, s) => (e, s)
      | (.again, s) => loop fuel blocks s
      | (.block b, s) =>
        match s.replayBlock b with
        | (some e, s) => (e, s)
        | (none, s) => loop fuel (blocks + 1) s

/-- Runs guest code until something needs the caller's attention (`run`). Every turn but the last
    replays a block, so one turn more than the budget is fuel enough. -/
def run (s : RunState M S) : RunExit × RunState M S :=
  s.loop (s.runner.config.maxBlocks + 1) 0

end RunState

end X86Replay

import X86Replay.Proofs.Bounds
import X86Replay.Proofs.Handles
import X86Replay.Proofs.Starts
import X86Replay.Proofs.Walks

/-!
# Every run returns

The run loop goes round as long as blocks can be replayed. Nothing in it counts down but the budget,
so every turn has to replay a block, or be the last one. Fuel is left out here: the loop is a
relation, and the function with fuel is shown to be in it.

* `Block.ranCalls`: the calls that a replay runs. `replayCalls_ranCalls`: it does what they do.
* `RunState.turn?`: a turn of the loop, which gives up where compiling takes too many rounds and
  where a walk along the links of the cache does not end.
* `RunState.Runs`: the turns of a run, and how it ends.
* `Runner.Reachable`, `Runner.Ready`: runners after any operations. Their cache is linked, its blocks
  keep to the caps, and their fetch window is well-formed.
* `RunState.ready_turn`: a turn replays a block, or is the last one.
* `run_returns`: every run of a reachable runner returns, within its budget.
-/

namespace X86Replay

/-! ## Calls of a replay -/

namespace Block

variable {M : Type} [GuestMemory M]

/-- The calls that a replay runs: up to the first that faults, leaves the block, stops the machine or
    has stored into the block. -/
def ranCalls (b : Block) : List Call → Machine M → List Call
  | [], _ => []
  | c :: rest, m =>
    match c.run m with
    | (.ok .proceed, m') =>
      if !rest.isEmpty && b.hitBy m'.log m.log.size then [c] else c :: b.ranCalls rest m'
    | _ => [c]

theorem ranCalls_prefix (b : Block) (calls : List Call) (m : Machine M) :
    b.ranCalls calls m <+: calls := by
  induction calls generalizing m with
  | nil => exact List.nil_prefix
  | cons c rest ih =>
    have hone : [c] <+: c :: rest := List.prefix_append [c] rest
    rw [ranCalls]
    rcases c.run m with ⟨e | _ | _ | stop, m'⟩
    · exact hone
    · dsimp only
      split_ifs
      · exact hone
      · exact List.cons_prefix_cons.2 ⟨rfl, ih m'⟩
    · exact hone
    · exact hone

/-- **A replay does what its calls do, one after the other.** -/
theorem replayCalls_ranCalls (b : Block) (calls : List Call) (n : Nat) (m : Machine M) :
    (b.replayCalls calls n m).2 = (b.ranCalls calls m).foldl (fun m c => (c.run m).2) m := by
  induction calls generalizing n m with
  | nil => rfl
  | cons c rest ih =>
    rw [replayCalls, ranCalls]
    rcases hrun : c.run m with ⟨e | _ | _ | stop, m'⟩
    · exact (congrArg Prod.snd hrun).symm
    · dsimp only
      by_cases hhit : (!rest.isEmpty && b.hitBy m'.log m.log.size) = true
      · rw [if_pos hhit, if_pos hhit]
        exact (congrArg Prod.snd hrun).symm
      · rw [if_neg hhit, if_neg hhit, List.foldl_cons, hrun]
        exact ih _ m'
    · exact (congrArg Prod.snd hrun).symm
    · exact (congrArg Prod.snd hrun).symm

end Block

/-! ## Turns -/

/-- What a turn of the run loop does. -/
inductive Turn where
  /-- It executes nothing. -/
  | leave
  /-- It executes one instruction without a block. -/
  | step
  /-- It replays a block, and runs some calls of it. -/
  | replay (b : Block) (ran : List Call)
  /-- It compiles a block that is then not in the cache. -/
  | again

namespace Turn

/-- The number of blocks that the turn replays. -/
def blocks : Turn → Nat
  | .replay _ _ => 1
  | _ => 0

/-- The number of instructions that the turn executes without a block. -/
def steps : Turn → Nat
  | .step => 1
  | _ => 0

/-- The number of blocks that turns replay. -/
def replays (ts : List Turn) : Nat :=
  (ts.map blocks).sum

@[simp] theorem replays_singleton (t : Turn) : replays [t] = t.blocks :=
  Nat.add_zero _

@[simp] theorem replays_cons (t : Turn) (ts : List Turn) :
    replays (t :: ts) = t.blocks + replays ts :=
  rfl

end Turn

/-! ## Turns that give up -/

namespace Runner

/-- Every walk ends when writes are reported one after the other. -/
def notifyEnds (r : Runner) : List PhysSpan → Bool
  | [] => true
  | s :: spans =>
    r.cache.ends (.invalidate s.start s.length.toUInt64) &&
      (r.notifyWrite s.start s.length.toUInt64).2.notifyEnds spans

/-- Every walk ends when what the spans in the log meet is dropped. -/
def drainEnds (r : Runner) : Bool :=
  notifyEnds { r with log := #[] } r.log.toList

end Runner

namespace RunState

variable {M S : Type}

/-- `withCache`, unless a walk of an operation does not end. -/
def withCache? {α : Type} (op : CacheOp) (f : BlockCache → α × BlockCache) (s : RunState M S) :
    Option (α × RunState M S) :=
  if s.runner.cache.ends op then some (s.withCache f) else none

/-- `execute`, unless a walk does not end when the writes are reported. -/
def execute? {α : Type} (f : Machine M → α × Machine M) (s : RunState M S) :
    Option (α × RunState M S) :=
  let (_, m) := f ⟨s.cpu, s.mem, s.runner.log⟩
  if Runner.drainEnds { s.runner with log := m.log } then some (s.execute f) else none

variable [GuestMemory M]

/-- `cachedBlock`, unless a walk does not end. -/
def cachedBlock? (s : RunState M S) (physPc : UInt64) : Option (Option Block × RunState M S) :=
  let flags := s.flags
  let identity := CodeIdentity.ofCpu s.cpu
  (s.withCache? (.lookup physPc flags identity) (·.lookupBlock physPc flags identity)).bind fun
    | (none, s) => some (none, s)
    | (some (h, b), s) =>
      if s.secondPageIsCurrent b then some (some b, s)
      else (s.withCache? (.remove h) (·.remove h)).map fun (_, s) => (none, s)

/-- `compiledBlock`, unless compiling takes too many rounds or a walk does not end. -/
def compiledBlock? (s : RunState M S) :
    Option (Except CompileFault (Option Block) × RunState M S) :=
  (compileBlock? s.cpu s.mem s.runner.fetch s.flags s.runner.config).bind fun (result, fetch) =>
    let s := { s with runner.fetch := fetch }
    match result with
    | .error f => some (.error f, s)
    | .ok b =>
      let s := s.modifyStats fun t => { t with blocksCompiled := t.blocksCompiled + 1 }
      (s.withCache? (.insert b) (·.insert b)).map fun (h, s) => (.ok (s.runner.cache.get? h), s)

variable [EventSink S]

/-- `singleStep`, unless a walk does not end. -/
def singleStep? (s : RunState M S) : Option (RunExit × RunState M S) :=
  (s.execute? (Exec.step (M := M))).map fun _ => s.singleStep

/-- `replayBlock`, unless a walk does not end. -/
def replayBlock? (s : RunState M S) (b : Block) : Option (Option RunExit × RunState M S) :=
  let counted := s.modifyStats fun t => { t with blocksExecuted := t.blocksExecuted + 1 }
  (counted.execute? b.replay).map fun _ => s.replayBlock b

/-- `nextBlock`, unless compiling takes too many rounds or a walk does not end. -/
def nextBlock? (s : RunState M S) : Option (Next × RunState M S) :=
  let pc := s.cpu.linearPc
  let (resolved, fetch) := s.runner.fetch.resolve s.cpu s.mem pc
  let s := { s with runner.fetch := fetch }
  match resolved with
  | .error e => some ((s.failCompile ⟨pc, e⟩).map .exit id)
  | .ok physPc =>
    (s.cachedBlock? physPc).bind fun
      | (some b, s) => some (.block b, s)
      | (none, s) =>
        s.compiledBlock?.map fun
          | (.error f, s) => (s.failCompile f).map .exit id
          | (.ok none, s) => (.again, s)
          | (.ok (some b), s) => (.block b, s)

/-- A turn of the loop after `blocks` blocks of this run: what it does, how the run ends if it does,
    and the state afterwards. It may give up. -/
def turn? (s : RunState M S) (blocks : Nat) : Option (Turn × Option RunExit × RunState M S) :=
  if s.cpu.halted then some (.leave, some .halted, s)
  else if s.cpu.force ≠ 0 then some (.leave, some (.forcedAction s.cpu.force), s)
  else if s.runner.config.maxBlocks ≤ blocks then some (.leave, some .budgetExhausted, s)
  else if s.cpu.hasFlag RFlags.trap then s.singleStep?.map fun r => (.step, r.map some id)
  else
    s.nextBlock?.bind fun
      | (.exit e, s) => some (.leave, some e, s)
      | (.again, s) => some (.again, none, s)
      | (.block b, s) =>
        (s.replayBlock? b).map fun r =>
          (.replay b (b.ranCalls b.calls ⟨s.cpu, s.mem, s.runner.log⟩), r)

/-- The loop after `blocks` blocks of this run, without fuel: its turns and its result. -/
inductive Runs : Nat → RunState M S → List Turn → RunExit × RunState M S → Prop
  | last {blocks : Nat} {s s' : RunState M S} {t : Turn} {e : RunExit}
      (turn : s.turn? blocks = some (t, some e, s')) : Runs blocks s [t] (e, s')
  | more {blocks : Nat} {s s' : RunState M S} {t : Turn} {ts : List Turn}
      {result : RunExit × RunState M S} (turn : s.turn? blocks = some (t, none, s'))
      (rest : Runs (blocks + t.blocks) s' ts result) : Runs blocks s (t :: ts) result

/-- There is one way at most in which the loop can go. -/
theorem Runs.unique {blocks : Nat} {s : RunState M S} {ts ts' : List Turn}
    {result result' : RunExit × RunState M S} (h : Runs blocks s ts result)
    (h' : Runs blocks s ts' result') : ts' = ts ∧ result' = result := by
  induction h generalizing ts' with
  | last hturn =>
    cases h' with
    | last hturn' =>
      rw [hturn] at hturn'
      cases hturn'
      exact ⟨rfl, rfl⟩
    | more hturn' =>
      rw [hturn] at hturn'
      cases hturn'
  | more hturn _ ih =>
    cases h' with
    | last hturn' =>
      rw [hturn] at hturn'
      cases hturn'
    | more hturn' hrest' =>
      rw [hturn] at hturn'
      cases hturn'
      obtain ⟨rfl, rfl⟩ := ih hrest'
      exact ⟨rfl, rfl⟩

end RunState

/-! ## Runners that can run -/

namespace Runner

/-- A runner after any number of runs, flushes and reported writes. Neither the processors, the
    memories nor the receivers of its runs need have anything to do with each other. -/
inductive Reachable : Runner → Prop
  | new {config : Config} {r : Runner} : ofConfig? config = .ok r → Reachable r
  | run {M S : Type} [GuestMemory M] [EventSink S] (s : RunState M S) :
      Reachable s.runner → Reachable s.run.2.runner
  | flush {r : Runner} : Reachable r → Reachable r.flush
  | notifyWrite {r : Runner} (start n : UInt64) :
      Reachable r → Reachable (r.notifyWrite start n).2

/-- The settings are valid, the links of the cache agree, its blocks keep to the cap on calls, and
    the fetch window is well-formed. -/
structure Ready (config : Config) (r : Runner) : Prop where
  settings : r.config = config
  valid : config.validate = .ok ()
  linked : ∃ order, r.cache.Linked order
  calls : r.cache.Sound fun b => b.calls.length ≤ config.maxCalls
  fetch : r.fetch.WellFormed

namespace Ready

variable {config : Config} {r r' : Runner}

/-- Log and statistics make no difference. -/
theorem of_eq (h : r.Ready config) (hconfig : r'.config = r.config) (hcache : r'.cache = r.cache)
    (hfetch : r'.fetch = r.fetch) : r'.Ready config where
  settings := hconfig.trans h.settings
  valid := h.valid
  linked := by rw [hcache]; exact h.linked
  calls := by rw [hcache]; exact h.calls
  fetch := by rw [hfetch]; exact h.fetch

theorem new (h : ofConfig? config = .ok r) : r.Ready config := by
  unfold ofConfig? at h
  cases hvalid : config.validate with
  | error x =>
    rw [hvalid] at h
    cases h
  | ok =>
    rw [hvalid] at h
    cases h
    exact ⟨rfl, hvalid, ⟨[], .empty _ _⟩, .empty _ _, FetchStream.forall_window_of_none rfl⟩

theorem flush (h : r.Ready config) : r.flush.Ready config := by
  obtain ⟨order, hlinked⟩ := h.linked
  exact ⟨h.settings, h.valid, ⟨[], hlinked.flush.1⟩, .flush _,
    FetchStream.forall_window_of_none rfl⟩

theorem notifyWrite (h : r.Ready config) (start n : UInt64) :
    (r.notifyWrite start n).2.Ready config := by
  obtain ⟨order, hlinked⟩ := h.linked
  obtain ⟨order', hlinked', -⟩ := hlinked.invalidate start n
  refine ⟨h.settings, h.valid, ⟨order', hlinked'⟩, h.calls.dropHit start n, ?_⟩
  show (r.fetch.dropWritten start n).WellFormed
  unfold FetchStream.dropWritten
  split_ifs
  · exact FetchStream.forall_window_of_none rfl
  · exact h.fetch

/-- Writes are reported one after the other, and every walk ends. -/
theorem notifyAll (h : r.Ready config) (spans : List PhysSpan) :
    r.notifyEnds spans ∧
      (spans.foldl (fun r s => (r.notifyWrite s.start s.length.toUInt64).2) r).Ready config := by
  induction spans generalizing r with
  | nil => exact ⟨rfl, h⟩
  | cons s spans ih =>
    obtain ⟨order, hlinked⟩ := h.linked
    obtain ⟨hends, hready⟩ := ih (h.notifyWrite s.start s.length.toUInt64)
    refine ⟨?_, hready⟩
    rw [notifyEnds, hlinked.ends, hends]
    rfl

theorem drain (h : r.Ready config) : r.drainEnds ∧ r.drain.Ready config := by
  obtain ⟨config', cache, fetch, log, stats⟩ := r
  unfold Runner.drain drainEnds
  dsimp only
  rw [← Array.foldl_toList]
  exact notifyAll (r := ⟨config', cache, fetch, #[], stats⟩) (h.of_eq rfl rfl rfl) _

end Ready

end Runner

namespace FetchStream

theorem kept_wellFormed {M : Type} [GuestMemory M] (cpu : Cpu) (mem : M) :
    Kept cpu mem WellFormed WellFormed where
  weaken _ hs := hs
  resolve _ pc hs := hs.resolve cpu mem pc
  copyBytes _ pc limit hs := hs.copyBytes mem pc limit

end FetchStream

open Runner (Ready)

namespace RunState

variable {M S : Type} {config : Config} {s s' : RunState M S} {b : Block}

theorem ready_execute {α : Type} (h : s.runner.Ready config) (f : Machine M → α × Machine M) :
    s.execute? f = some (s.execute f) ∧ (s.execute f).2.runner.Ready config := by
  obtain ⟨⟨config', cache, fetch, log, stats⟩, cpu, mem, sink⟩ := s
  unfold execute? execute
  dsimp only
  obtain ⟨hends, hready⟩ := Ready.drain (r := ⟨config', cache, fetch,
    (f ⟨cpu, mem, log⟩).2.log, stats⟩) (h.of_eq rfl rfl rfl)
  exact ⟨if_pos hends, hready⟩

/-- Using the cache leaves a runner ready if it does so with cache and blocks. -/
theorem ready_withCache {α : Type} {f : BlockCache → α × BlockCache} (h : s.runner.Ready config)
    (op : CacheOp) (hlinked : ∃ order, (f s.runner.cache).2.Linked order)
    (hcalls : (f s.runner.cache).2.Sound fun b => b.calls.length ≤ config.maxCalls) :
    s.withCache? op f = some (s.withCache f) ∧ (s.withCache f).2.runner.Ready config := by
  obtain ⟨order, hcache⟩ := h.linked
  exact ⟨if_pos (hcache.ends op), h.settings, h.valid, hlinked, hcalls, h.fetch⟩

theorem runner_stop [EventSink S] (s : RunState M S) (reason : Stop) :
    (s.stop reason).2.runner = s.runner := by
  cases reason <;> rfl

theorem stop_ne_budgetExhausted [EventSink S] (s : RunState M S) (reason : Stop) :
    (s.stop reason).1 ≠ .budgetExhausted := by
  cases reason <;> rintro ⟨⟩

/-! ## What is asked of turns -/

/-- What a turn does, after `blocks` blocks of this run. -/
structure Turned (config : Config) (blocks : Nat) (s : RunState M S) (t : Turn)
    (e : Option RunExit) (s' : RunState M S) : Prop where
  ready : s'.runner.Ready config
  executed : s'.executed = s.executed + t.blocks
  found : t ≠ .again
  steps : t.steps + t.blocks ≤ 1
  within : ∀ b ran, t = .replay b ran →
    blocks < config.maxBlocks ∧ ran <+: b.calls ∧ ran.length ≤ config.maxCalls
  goesOn : e = none → t.blocks = 1
  exhausted : e = some .budgetExhausted → t.blocks = 0 ∧ config.maxBlocks ≤ blocks

/-- A turn that executes nothing, or one instruction without a block, is the last one. -/
theorem Turned.of_exit {blocks : Nat} {t : Turn} {e : RunExit} (hready : s'.runner.Ready config)
    (hexecuted : s'.executed = s.executed) (ht : t = .leave ∨ t = .step)
    (he : e = .budgetExhausted → config.maxBlocks ≤ blocks) :
    Turned config blocks s t (some e) s' := by
  obtain rfl | rfl := ht
  · exact ⟨hready, hexecuted, by rintro ⟨⟩, Nat.zero_le _, fun _ _ h => (nomatch h),
      fun h => (nomatch h), fun h => ⟨rfl, he (Option.some.inj h)⟩⟩
  · exact ⟨hready, hexecuted, by rintro ⟨⟩, Nat.le_refl _, fun _ _ h => (nomatch h),
      fun h => (nomatch h), fun h => ⟨rfl, he (Option.some.inj h)⟩⟩

theorem Turned.room {blocks : Nat} {t : Turn} {e : Option RunExit}
    (h : Turned config blocks s t e s') (hblocks : blocks ≤ config.maxBlocks) :
    blocks + t.blocks ≤ config.maxBlocks := by
  cases t with
  | replay b ran => exact (h.within b ran rfl).1
  | leave | step | again => exact hblocks

/-- What is asked of the turns of a run, after `blocks` blocks of it. -/
structure Bounded (config : Config) (blocks : Nat) (ts : List Turn) (e : RunExit) : Prop where
  found : .again ∉ ts
  replays : blocks + Turn.replays ts ≤ config.maxBlocks
  steps : (ts.map Turn.steps).sum ≤ 1
  calls : ∀ b ran, .replay b ran ∈ ts → ran <+: b.calls ∧ ran.length ≤ config.maxCalls
  exhausted : e = .budgetExhausted → blocks + Turn.replays ts = config.maxBlocks

namespace Bounded

variable {blocks : Nat} {t : Turn} {ts : List Turn} {e : RunExit}

theorem last (h : Turned config blocks s t (some e) s') (hblocks : blocks ≤ config.maxBlocks) :
    Bounded config blocks [t] e where
  found hmem := h.found (List.mem_singleton.1 hmem).symm
  replays := by
    rw [Turn.replays_singleton]
    exact h.room hblocks
  steps := by
    have hsteps := h.steps
    show t.steps + 0 ≤ 1
    omega
  calls b ran hmem := (h.within b ran (List.mem_singleton.1 hmem).symm).2
  exhausted hexhausted := by
    obtain ⟨hzero, hfull⟩ := h.exhausted (congrArg some hexhausted)
    rw [Turn.replays_singleton, hzero]
    omega

/-- The next turns only begin after a block. -/
theorem more (h : Turned config blocks s t none s')
    (hrest : Bounded config (blocks + t.blocks) ts e) : Bounded config blocks (t :: ts) e where
  found hmem := (List.mem_cons.1 hmem).elim (fun ht => h.found ht.symm) hrest.found
  replays := by
    rw [Turn.replays_cons, ← Nat.add_assoc]
    exact hrest.replays
  steps := by
    have hone := h.goesOn rfl
    have hsteps := h.steps
    have hstepsRest := hrest.steps
    show t.steps + (ts.map Turn.steps).sum ≤ 1
    omega
  calls b ran hmem := (List.mem_cons.1 hmem).elim (fun ht => (h.within b ran ht.symm).2)
    (hrest.calls b ran)
  exhausted hexhausted := by
    rw [Turn.replays_cons, ← Nat.add_assoc]
    exact hrest.exhausted hexhausted

end Bounded

variable [GuestMemory M]

/-! ## Blocks -/

theorem ready_cachedBlock (h : s.runner.Ready config) (physPc : UInt64) :
    s.cachedBlock? physPc = some (s.cachedBlock physPc) ∧
      (s.cachedBlock physPc).2.runner.Ready config ∧
      ∀ b, (s.cachedBlock physPc).1 = some b → b.calls.length ≤ config.maxCalls := by
  obtain ⟨order, hlinked⟩ := h.linked
  obtain ⟨order', hlinked', -⟩ := hlinked.lookup physPc s.flags (.ofCpu s.cpu)
  obtain ⟨hends, hlookup⟩ := ready_withCache
    (f := (·.lookupBlock physPc s.flags (.ofCpu s.cpu))) h (.lookup physPc s.flags (.ofCpu s.cpu))
    ⟨order', hlinked'⟩ (h.calls.lookupBlock _ _ _)
  unfold cachedBlock? cachedBlock
  dsimp only
  rw [hends, Option.bind_some]
  rcases hresult : s.withCache (·.lookupBlock physPc s.flags (.ofCpu s.cpu)) with ⟨found, s₁⟩
  rw [hresult] at hlookup
  cases found with
  | none => exact ⟨rfl, hlookup, fun b hb => nomatch hb⟩
  | some found =>
    obtain ⟨handle, b⟩ := found
    dsimp only at hlookup ⊢
    split_ifs
    · refine ⟨rfl, hlookup, fun b' hb' => ?_⟩
      obtain rfl := Option.some.inj hb'
      have hfound : (s.runner.cache.lookupBlock physPc s.flags (.ofCpu s.cpu)).1 =
          some (handle, b) := congrArg Prod.fst hresult
      exact h.calls.blocks _ _ (BlockCache.lookupBlock_some hfound).1
    · obtain ⟨order₁, hlinked₁⟩ := hlookup.linked
      obtain ⟨order₂, hlinked₂, -⟩ := hlinked₁.remove handle
      obtain ⟨hends, hremove⟩ := ready_withCache (f := (·.remove handle)) hlookup
        (.remove handle) ⟨order₂, hlinked₂⟩ (hlookup.calls.remove handle)
      rw [hends]
      exact ⟨rfl, hremove, fun b hb => nomatch hb⟩

/-- **A block that has been compiled is in the cache**, and keeps to the cap on calls. -/
theorem ready_compiledBlock (h : s.runner.Ready config) :
    s.compiledBlock? = some s.compiledBlock ∧ s.compiledBlock.2.runner.Ready config ∧
      ∀ found, s.compiledBlock.1 = .ok found →
        ∃ b, found = some b ∧ b.calls.length ≤ config.maxCalls := by
  have hwidth : s.flags.codeWidth = s.cpu.codeWidth := ModeFlags.codeWidth_ofCpu _ _ _
  have hvalid : s.runner.config.validate = .ok () := by
    rw [h.settings]
    exact h.valid
  obtain ⟨hchecked, hblock⟩ := compileBlock_succeeds s.mem hvalid hwidth h.fetch
  have hfetch := (FetchStream.kept_wellFormed s.cpu s.mem).compileBlock h.fetch s.flags
    s.runner.config
  unfold compiledBlock? compiledBlock
  rw [hchecked, Option.bind_some]
  generalize compileBlock s.cpu s.mem s.runner.fetch s.flags s.runner.config = r at hblock hfetch ⊢
  obtain ⟨f | b, fetch⟩ := r
  · exact ⟨rfl, ⟨h.settings, h.valid, h.linked, h.calls, hfetch⟩, fun found hfound => nomatch hfound⟩
  · obtain ⟨order, hlinked⟩ := h.linked
    obtain ⟨order', hlinked', -⟩ := hlinked.insert b
    have hcalls : b.calls.length ≤ config.maxCalls := by
      obtain ⟨physPc, e, es, -, -, hwithin, rfl⟩ := hblock b rfl
      rw [← h.settings]
      exact Array.length_toList.trans_le hwithin.calls
    have hcounted : Ready config { s.runner with
        fetch, stats.blocksCompiled := s.runner.stats.blocksCompiled + 1 } :=
      ⟨h.settings, h.valid, h.linked, h.calls, hfetch⟩
    obtain ⟨hends, hinsert⟩ := ready_withCache
      (s := ⟨{ s.runner with
        fetch, stats.blocksCompiled := s.runner.stats.blocksCompiled + 1 }, s.cpu, s.mem, s.sink⟩)
      (f := (·.insert b)) hcounted (.insert b) ⟨order', hlinked'⟩ (h.calls.insert hcalls)
    refine ⟨congrArg (Option.map _) hends, hinsert, fun found hfound => ⟨b, ?_, hcalls⟩⟩
    have hget : (s.runner.cache.insert b).2.get? (s.runner.cache.insert b).1 = found :=
      Except.ok.inj hfound
    rw [← hget, hlinked.get?_insert]

variable [EventSink S]

/-- The way to the next block ends with a block that keeps to the cap on calls, or with a fault. -/
theorem ready_nextBlock (h : s.runner.Ready config) :
    s.nextBlock? = some s.nextBlock ∧ s.nextBlock.2.runner.Ready config ∧
      match s.nextBlock.1 with
      | .exit e => e ≠ .budgetExhausted
      | .block b => b.calls.length ≤ config.maxCalls
      | .again => False := by
  have hresolve := h.fetch.resolve s.cpu s.mem s.cpu.linearPc
  unfold nextBlock? nextBlock
  dsimp only
  generalize s.runner.fetch.resolve s.cpu s.mem s.cpu.linearPc = r at hresolve ⊢
  obtain ⟨x | physPc, fetch⟩ := r
  · exact ⟨rfl, ⟨h.settings, h.valid, h.linked, h.calls, hresolve⟩, by rintro ⟨⟩⟩
  · dsimp only
    have hfetch : ({ s with runner.fetch := fetch } : RunState M S).runner.Ready config :=
      ⟨h.settings, h.valid, h.linked, h.calls, hresolve⟩
    obtain ⟨hends, hcached, hcalls⟩ := ready_cachedBlock hfetch physPc
    rw [hends, Option.bind_some]
    generalize ({ s with runner.fetch := fetch } : RunState M S).cachedBlock physPc = found
      at hcached hcalls ⊢
    obtain ⟨_ | b, s₁⟩ := found
    · dsimp only at hcached ⊢
      obtain ⟨hchecked, hcompiled, hfound⟩ := ready_compiledBlock hcached
      rw [hchecked, Option.map_some]
      generalize s₁.compiledBlock = compiled at hcompiled hfound ⊢
      obtain ⟨f | found, s₂⟩ := compiled
      · exact ⟨rfl, hcompiled.of_eq rfl rfl rfl, by rintro ⟨⟩⟩
      · obtain ⟨b, rfl, hb⟩ := hfound found rfl
        exact ⟨rfl, hcompiled, hb⟩
    · exact ⟨rfl, hcached, hcalls b rfl⟩

/-! ## Executing -/

theorem ready_singleStep (h : s.runner.Ready config) :
    s.singleStep? = some s.singleStep ∧ s.singleStep.2.runner.Ready config ∧
      s.singleStep.1 ≠ .budgetExhausted := by
  obtain ⟨hends, hexecute⟩ := ready_execute h (Exec.step (M := M))
  rw [singleStep?, hends, Option.map_some]
  refine ⟨rfl, ?_⟩
  unfold singleStep
  generalize s.execute (Exec.step (M := M)) = result at hexecute ⊢
  obtain ⟨e | _ | _ | reason, s'⟩ := result
  · exact ⟨hexecute.of_eq rfl rfl rfl, by rintro ⟨⟩⟩
  · exact ⟨hexecute.of_eq rfl rfl rfl, by rintro ⟨⟩⟩
  · exact ⟨hexecute.of_eq rfl rfl rfl, by rintro ⟨⟩⟩
  · refine ⟨?_, stop_ne_budgetExhausted _ reason⟩
    dsimp only
    rw [runner_stop]
    exact hexecute.of_eq rfl rfl rfl

theorem ready_replayBlock (h : s.runner.Ready config) (b : Block) :
    s.replayBlock? b = some (s.replayBlock b) ∧ (s.replayBlock b).2.runner.Ready config ∧
      (s.replayBlock b).1 ≠ some .budgetExhausted := by
  have hcounted : (s.modifyStats fun t => { t with
      blocksExecuted := t.blocksExecuted + 1 }).runner.Ready config := h.of_eq rfl rfl rfl
  obtain ⟨hends, hexecute⟩ := ready_execute hcounted b.replay
  rw [replayBlock?, hends, Option.map_some]
  refine ⟨rfl, ?_⟩
  unfold replayBlock
  dsimp only
  generalize (s.modifyStats fun t => { t with blocksExecuted := t.blocksExecuted + 1 }).execute
    b.replay = result at hexecute ⊢
  obtain ⟨f | ⟨_ | _ | _ | reason, n⟩, s'⟩ := result
  · exact ⟨hexecute.of_eq rfl rfl rfl, by rintro ⟨⟩⟩
  · exact ⟨hexecute.of_eq rfl rfl rfl, by rintro ⟨⟩⟩
  · exact ⟨hexecute.of_eq rfl rfl rfl, by rintro ⟨⟩⟩
  · exact ⟨hexecute.of_eq rfl rfl rfl, by rintro ⟨⟩⟩
  · refine ⟨?_, fun hstop => stop_ne_budgetExhausted _ reason (Option.some.inj hstop)⟩
    show ((s'.retire n).stop reason).2.runner.Ready config
    rw [runner_stop]
    exact hexecute.of_eq rfl rfl rfl

/-! ## The loop -/

/-- **A turn replays a block, or is the last one.** It does what the loop does with any fuel, and
    never gives up. -/
theorem ready_turn (h : s.runner.Ready config) (blocks : Nat) :
    ∃ t e s', s.turn? blocks = some (t, e, s') ∧ Turned config blocks s t e s' ∧
      ∀ fuel, s.loop (fuel + 1) blocks =
        match e with
        | some e => (e, s')
        | none => s'.loop fuel (blocks + t.blocks) := by
  unfold turn?
  simp only [loop, exitBefore]
  split_ifs with hhalted hforce hbudget htrap
  · exact ⟨_, _, _, rfl, .of_exit h rfl (.inl rfl) (by rintro ⟨⟩), fun _ => rfl⟩
  · exact ⟨_, _, _, rfl, .of_exit h rfl (.inl rfl) (by rintro ⟨⟩), fun _ => rfl⟩
  · exact ⟨_, _, _, rfl, .of_exit h rfl (.inl rfl) (fun _ => h.settings ▸ hbudget), fun _ => rfl⟩
  · obtain ⟨hends, hready, he⟩ := ready_singleStep h
    rw [hends]
    exact ⟨_, _, _, rfl, .of_exit hready (executed_singleStep s) (.inr rfl)
      (fun hexhausted => absurd hexhausted he), fun _ => rfl⟩
  · obtain ⟨hchecked, hready, hnext⟩ := ready_nextBlock h
    have hexecuted := executed_nextBlock s
    rw [hchecked, Option.bind_some]
    generalize s.nextBlock = next at hready hnext hexecuted ⊢
    obtain ⟨e | b | _, s₁⟩ := next
    · exact ⟨_, _, _, rfl, .of_exit hready hexecuted (.inl rfl)
        (fun hexhausted => absurd hexhausted hnext), fun _ => rfl⟩
    · obtain ⟨hends, hready', he⟩ := ready_replayBlock hready b
      dsimp only
      rw [hends]
      have hran := b.ranCalls_prefix b.calls (⟨s₁.cpu, s₁.mem, s₁.runner.log⟩ : Machine M)
      refine ⟨.replay b _, (s₁.replayBlock b).1, (s₁.replayBlock b).2, rfl, ⟨hready', ?_,
        by rintro ⟨⟩, Nat.le_refl _, ?_, fun _ => rfl, fun hexhausted => absurd hexhausted he⟩,
        fun _ => ?_⟩
      · exact (executed_replayBlock s₁ b).trans (congrArg (· + 1) hexecuted)
      · rintro b' ran ⟨⟩
        exact ⟨h.settings ▸ Nat.lt_of_not_le hbudget, hran, hran.length_le.trans hnext⟩
      · rcases s₁.replayBlock b with ⟨_ | e, s₂⟩ <;> rfl
    · exact hnext.elim

/-- **The loop returns within its budget**, if it has one turn more as fuel. -/
theorem ready_loop (h : s.runner.Ready config) {fuel blocks : Nat}
    (hblocks : blocks ≤ config.maxBlocks) (hfuel : config.maxBlocks < blocks + fuel) :
    (s.loop fuel blocks).2.runner.Ready config ∧ ∃ ts, Runs blocks s ts (s.loop fuel blocks) ∧
      Bounded config blocks ts (s.loop fuel blocks).1 ∧
      (s.loop fuel blocks).2.executed = s.executed + Turn.replays ts := by
  -- A turn that is not the last one counts as a block, so room and fuel shrink together.
  induction fuel generalizing blocks s with
  | zero => omega
  | succ fuel ih =>
    obtain ⟨t, e, s', hturn, hturned, hloop⟩ := ready_turn h blocks
    have hroom := hturned.room hblocks
    rw [hloop]
    cases e with
    | some e =>
      refine ⟨hturned.ready, [t], .last hturn, .last hturned hblocks, ?_⟩
      rw [Turn.replays_singleton]
      exact hturned.executed
    | none =>
      have hone := hturned.goesOn rfl
      obtain ⟨hready, ts, hruns, hbounded, hexecuted⟩ := ih hturned.ready hroom (by omega)
      refine ⟨hready, t :: ts, .more hturn hruns, .more hturned hbounded, ?_⟩
      rw [hexecuted, hturned.executed, Turn.replays_cons, Nat.add_assoc]

end RunState

/-- **Reachable runners are ready.** -/
theorem Runner.Reachable.ready {r : Runner} (h : r.Reachable) : r.Ready r.config := by
  have hready : ∃ config, r.Ready config := by
    induction h with
    | new hnew => exact ⟨_, .new hnew⟩
    | run s _ ih =>
      obtain ⟨config, hready⟩ := ih
      refine ⟨config, (RunState.ready_loop hready (Nat.zero_le _) ?_).1⟩
      rw [hready.settings]
      omega
    | flush _ ih => exact ⟨_, ih.choose_spec.flush⟩
    | notifyWrite start n _ ih => exact ⟨_, ih.choose_spec.notifyWrite start n⟩
  obtain ⟨config, hready⟩ := hready
  exact hready.settings ▸ hready

end X86Replay

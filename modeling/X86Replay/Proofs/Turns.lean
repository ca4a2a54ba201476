import X86Replay.Proofs.Keeping
import X86Replay.Run

/-!
# What the run loop does with the processor

* `RunState.nextBlock_cases`: what the way to the next block can come to, with
  `RunState.cachedBlock_cases` and `RunState.compiledBlock_cases` for its parts.
* `RunState.Waits`: the guest has not executed anything. The way to the next block is such, whatever
  cache and fetch window hold.
* `Block.keeps_replayCalls`: a replay keeps what every call keeps.
* `RunState.keeps_loop`: so does a run, if what it delivers events to leaves the processor alone.
-/

namespace X86Replay

/-- A receiver that leaves the processor state alone. -/
def EventSink.Passive (S : Type) [EventSink S] : Prop :=
  ∀ (sink : S) (cpu : Cpu) (e : Event), (EventSink.deliver sink cpu e).2 = cpu

/-- The receiver that does nothing. -/
instance : EventSink Unit where
  deliver _ cpu _ := ((), cpu)

namespace RunState

variable {M S : Type} {s s' s'' : RunState M S}

/-! ## Waiting -/

/-- The guest has not executed anything from one state to another. -/
structure Waits (s s' : RunState M S) : Prop where
  cpu : s'.cpu = s.cpu
  mem : s'.mem = s.mem
  config : s'.runner.config = s.runner.config

namespace Waits

theorem trans (h : Waits s s') (h' : Waits s' s'') : Waits s s'' :=
  ⟨h'.cpu.trans h.cpu, h'.mem.trans h.mem, h'.config.trans h.config⟩

end Waits

/-- Executing changes processor and memory as the computation does. -/
theorem execute_apply {α : Type} (f : Machine M → α × Machine M) (s : RunState M S) {a : α}
    {m : Machine M} (h : f ⟨s.cpu, s.mem, s.runner.log⟩ = (a, m)) :
    ∃ runner, s.execute f = (a, ⟨runner, m.cpu, m.mem, s.sink⟩) := by
  unfold execute
  dsimp only
  rw [h]
  exact ⟨_, rfl⟩

variable [GuestMemory M]

/-! ## Ways to the next block -/

/-- The state in which CS:RIP has been resolved. -/
def resolved (s : RunState M S) : RunState M S :=
  { s with runner.fetch := (s.runner.fetch.resolve s.cpu s.mem s.cpu.linearPc).2 }

/-- What a search of the cache can come to. -/
inductive CachedBlock (s : RunState M S) (physPc : UInt64) : Option Block × RunState M S → Prop
  | missing {cache : BlockCache} :
      s.runner.cache.lookupBlock physPc s.flags (.ofCpu s.cpu) = (none, cache) →
      CachedBlock s physPc (none, { s with runner.cache := cache })
  | current {handle : Handle} {b : Block} {cache : BlockCache} :
      s.runner.cache.lookupBlock physPc s.flags (.ofCpu s.cpu) = (some (handle, b), cache) →
      s.secondPageIsCurrent b → CachedBlock s physPc (some b, { s with runner.cache := cache })
  /-- The second page is elsewhere now. -/
  | moved {handle : Handle} {b : Block} {cache : BlockCache} :
      s.runner.cache.lookupBlock physPc s.flags (.ofCpu s.cpu) = (some (handle, b), cache) →
      s.secondPageIsCurrent b = false →
      CachedBlock s physPc (none, { s with runner.cache := (cache.remove handle).2 })

theorem cachedBlock_cases (s : RunState M S) (physPc : UInt64) :
    CachedBlock s physPc (s.cachedBlock physPc) := by
  unfold cachedBlock withCache
  dsimp only
  rcases hlookup : s.runner.cache.lookupBlock physPc s.flags (.ofCpu s.cpu) with
    ⟨_ | ⟨handle, b⟩, cache⟩
  · exact .missing hlookup
  · dsimp only
    split_ifs with hsecond
    · exact .current hlookup hsecond
    · exact .moved hlookup (Bool.eq_false_iff.2 hsecond)

/-- What compiling a block can come to. -/
inductive CompiledBlock (s : RunState M S) :
    Except CompileFault (Option Block) × RunState M S → Prop
  | fault {f : CompileFault} {fetch : FetchStream} :
      compileBlock s.cpu s.mem s.runner.fetch s.flags s.runner.config = (.error f, fetch) →
      CompiledBlock s (.error f, { s with runner.fetch := fetch })
  | inserted {b : Block} {fetch : FetchStream} :
      compileBlock s.cpu s.mem s.runner.fetch s.flags s.runner.config = (.ok b, fetch) →
      CompiledBlock s (.ok ((s.runner.cache.insert b).2.get? (s.runner.cache.insert b).1),
        { s with runner := { s.runner with
          fetch
          cache := (s.runner.cache.insert b).2
          stats.blocksCompiled := s.runner.stats.blocksCompiled + 1 } })

theorem compiledBlock_cases (s : RunState M S) : CompiledBlock s s.compiledBlock := by
  unfold compiledBlock
  rcases hcompile : compileBlock s.cpu s.mem s.runner.fetch s.flags s.runner.config with
    ⟨f | b, fetch⟩
  · exact .fault hcompile
  · exact .inserted hcompile

section

variable [EventSink S]

/-- What the way to the next block can come to: CS:RIP is resolved, the cache is searched, and a
    block is compiled if none is found. -/
inductive NextBlock (s : RunState M S) : Next × RunState M S → Prop
  | unresolved {e : Exception} :
      (s.runner.fetch.resolve s.cpu s.mem s.cpu.linearPc).1 = .error e →
      NextBlock s ((s.resolved.failCompile ⟨s.cpu.linearPc, e⟩).map .exit id)
  | cached {physPc : UInt64} {b : Block} :
      (s.runner.fetch.resolve s.cpu s.mem s.cpu.linearPc).1 = .ok physPc →
      (s.resolved.cachedBlock physPc).1 = some b →
      NextBlock s (.block b, (s.resolved.cachedBlock physPc).2)
  | fault {physPc : UInt64} {f : CompileFault} :
      (s.runner.fetch.resolve s.cpu s.mem s.cpu.linearPc).1 = .ok physPc →
      (s.resolved.cachedBlock physPc).1 = none →
      (s.resolved.cachedBlock physPc).2.compiledBlock.1 = .error f →
      NextBlock s (((s.resolved.cachedBlock physPc).2.compiledBlock.2.failCompile f).map .exit id)
  /-- The cache does not hold the block that has been compiled. -/
  | lost {physPc : UInt64} :
      (s.runner.fetch.resolve s.cpu s.mem s.cpu.linearPc).1 = .ok physPc →
      (s.resolved.cachedBlock physPc).1 = none →
      (s.resolved.cachedBlock physPc).2.compiledBlock.1 = .ok none →
      NextBlock s (.again, (s.resolved.cachedBlock physPc).2.compiledBlock.2)
  | compiled {physPc : UInt64} {b : Block} :
      (s.runner.fetch.resolve s.cpu s.mem s.cpu.linearPc).1 = .ok physPc →
      (s.resolved.cachedBlock physPc).1 = none →
      (s.resolved.cachedBlock physPc).2.compiledBlock.1 = .ok (some b) →
      NextBlock s (.block b, (s.resolved.cachedBlock physPc).2.compiledBlock.2)

theorem nextBlock_cases (s : RunState M S) : NextBlock s s.nextBlock := by
  unfold nextBlock
  dsimp only
  rcases hresolve : s.runner.fetch.resolve s.cpu s.mem s.cpu.linearPc with ⟨e | physPc, fetch⟩
  · obtain rfl : fetch = (s.runner.fetch.resolve s.cpu s.mem s.cpu.linearPc).2 := by rw [hresolve]
    exact .unresolved (congrArg Prod.fst hresolve)
  · obtain rfl : fetch = (s.runner.fetch.resolve s.cpu s.mem s.cpu.linearPc).2 := by rw [hresolve]
    have hpc := congrArg Prod.fst hresolve
    dsimp only
    rw [← resolved]
    rcases hcached : s.resolved.cachedBlock physPc with ⟨_ | b, s₁⟩
    · obtain rfl : s₁ = (s.resolved.cachedBlock physPc).2 := by rw [hcached]
      have hnone := congrArg Prod.fst hcached
      dsimp only
      rcases hcompiled : (s.resolved.cachedBlock physPc).2.compiledBlock with ⟨f | _ | b, s₂⟩
      all_goals
        obtain rfl : s₂ = (s.resolved.cachedBlock physPc).2.compiledBlock.2 := by rw [hcompiled]
      · exact .fault hpc hnone (congrArg Prod.fst hcompiled)
      · exact .lost hpc hnone (congrArg Prod.fst hcompiled)
      · exact .compiled hpc hnone (congrArg Prod.fst hcompiled)
    · obtain rfl : s₁ = (s.resolved.cachedBlock physPc).2 := by rw [hcached]
      exact .cached hpc (congrArg Prod.fst hcached)

end

theorem waits_resolved (s : RunState M S) : Waits s s.resolved :=
  ⟨rfl, rfl, rfl⟩

theorem waits_cachedBlock (s : RunState M S) (physPc : UInt64) :
    Waits s (s.cachedBlock physPc).2 := by
  have hcases := s.cachedBlock_cases physPc
  generalize s.cachedBlock physPc = r at hcases ⊢
  cases hcases <;> exact ⟨rfl, rfl, rfl⟩

theorem waits_compiledBlock (s : RunState M S) : Waits s s.compiledBlock.2 := by
  have hcases := s.compiledBlock_cases
  generalize s.compiledBlock = r at hcases ⊢
  cases hcases <;> exact ⟨rfl, rfl, rfl⟩

variable [EventSink S]

/-- The way to the next block ends while the guest waits, or a fault is delivered. -/
theorem waits_nextBlock (s : RunState M S) :
    ∃ s₁, Waits s s₁ ∧
      (s.nextBlock.2 = s₁ ∨ ∃ f, s.nextBlock = (s₁.failCompile f).map .exit id) := by
  have hcached (physPc : UInt64) : Waits s (s.resolved.cachedBlock physPc).2 :=
    s.waits_resolved.trans (waits_cachedBlock _ physPc)
  have hcompiled (physPc : UInt64) : Waits s (s.resolved.cachedBlock physPc).2.compiledBlock.2 :=
    (hcached physPc).trans (waits_compiledBlock _)
  have hcases := s.nextBlock_cases
  generalize s.nextBlock = r at hcases ⊢
  cases hcases with
  | unresolved => exact ⟨_, s.waits_resolved, .inr ⟨_, rfl⟩⟩
  | cached => exact ⟨_, hcached _, .inl rfl⟩
  | fault => exact ⟨_, hcompiled _, .inr ⟨_, rfl⟩⟩
  | lost | compiled => exact ⟨_, hcompiled _, .inl rfl⟩

end RunState

/-! ## Replaying -/

/-- **A replay keeps what every call keeps.** -/
theorem Block.keeps_replayCalls {M : Type} [GuestMemory M] {R : Cpu → Cpu → Prop} [IsTrans Cpu R]
    (h : Exec.SystemKeeps M R) (b : Block) (calls : List Call) (n : Nat) (m : Machine M) :
    R m.cpu (b.replayCalls calls n m).2.cpu := by
  have := h.refl
  induction calls generalizing n m with
  | nil => exact refl_of R m.cpu
  | cons c rest ih =>
    have hc := c.keeps_run h m
    rw [replayCalls]
    rcases hrun : c.run m with ⟨e | _ | _ | stop, m₁⟩
    · rwa [hrun] at hc
    · rw [hrun] at hc
      dsimp only
      split
      · exact hc
      · exact trans_of R hc (ih _ m₁)
    · rwa [hrun] at hc
    · rwa [hrun] at hc

/-! ## The loop -/

namespace RunState

variable {M S : Type} [EventSink S] {R : Cpu → Cpu → Prop}

theorem cpu_stop (hpassive : EventSink.Passive S) (s : RunState M S) (reason : Stop) :
    (s.stop reason).2.cpu = s.cpu := by
  cases reason with
  | halt | io | assist => rfl
  | softwareInterrupt vector => exact hpassive _ _ _

variable [GuestMemory M]

theorem cpu_nextBlock (hpassive : EventSink.Passive S) (s : RunState M S) :
    s.nextBlock.2.cpu = s.cpu := by
  obtain ⟨s₁, hwaits, hnext | ⟨f, hnext⟩⟩ := s.waits_nextBlock
  · rw [hnext, hwaits.cpu]
  · rw [hnext]
    exact (hpassive _ _ _).trans hwaits.cpu

theorem cpu_replayBlock (hpassive : EventSink.Passive S) (s : RunState M S) (b : Block) :
    (s.replayBlock b).2.cpu = (b.replay ⟨s.cpu, s.mem, s.runner.log⟩).2.cpu := by
  unfold replayBlock
  dsimp only
  generalize hcounted : s.modifyStats (fun t => { t with blocksExecuted := t.blocksExecuted + 1 }) =
    counted
  rcases hreplay : b.replay ⟨s.cpu, s.mem, s.runner.log⟩ with ⟨r, m⟩
  have hreplay' : b.replay ⟨counted.cpu, counted.mem, counted.runner.log⟩ = (r, m) := by
    subst hcounted
    exact hreplay
  obtain ⟨runner, hexecute⟩ := counted.execute_apply _ hreplay'
  rw [hexecute]
  obtain f | ⟨_ | _ | _ | reason, n⟩ := r
  · exact hpassive _ _ _
  · rfl
  · rfl
  · rfl
  · exact cpu_stop hpassive _ reason

theorem cpu_singleStep (hpassive : EventSink.Passive S) (s : RunState M S) :
    s.singleStep.2.cpu = (Exec.step ⟨s.cpu, s.mem, s.runner.log⟩).2.cpu := by
  rcases hstep : Exec.step ⟨s.cpu, s.mem, s.runner.log⟩ with ⟨r, m⟩
  obtain ⟨runner, hexecute⟩ := s.execute_apply _ hstep
  unfold singleStep
  rw [hexecute]
  obtain e | _ | _ | reason := r
  · exact hpassive _ _ _
  · rfl
  · rfl
  · exact cpu_stop hpassive _ reason

/-- A run that is over before a turn has done nothing, or has executed one instruction. -/
theorem exitBefore_some {s : RunState M S} {blocks : Nat} {result : RunExit × RunState M S}
    (h : s.exitBefore blocks = some result) : result.2 = s ∨ result = s.singleStep := by
  unfold exitBefore at h
  split_ifs at h
  · cases h
    exact .inl rfl
  · cases h
    exact .inl rfl
  · cases h
    exact .inl rfl
  · cases h
    exact .inr rfl

/-- **A run keeps what the system instructions keep.** -/
theorem keeps_loop [IsTrans Cpu R] (h : Exec.SystemKeeps M R) (hpassive : EventSink.Passive S)
    (fuel blocks : Nat) (s : RunState M S) : R s.cpu (s.loop fuel blocks).2.cpu := by
  have := h.refl
  induction fuel generalizing blocks s with
  | zero => exact refl_of R s.cpu
  | succ fuel ih =>
    rw [loop]
    rcases hexit : s.exitBefore blocks with _ | result
    · have hnext := cpu_nextBlock hpassive s
      rw [← hnext]
      generalize s.nextBlock = next
      obtain ⟨e | b | _, s₁⟩ := next
      · exact refl_of R s₁.cpu
      · have hkeeps := b.keeps_replayCalls h b.calls 0 ⟨s₁.cpu, s₁.mem, s₁.runner.log⟩
        rw [← Block.replay, ← cpu_replayBlock hpassive] at hkeeps
        dsimp only at hkeeps ⊢
        generalize s₁.replayBlock b = replayed at hkeeps ⊢
        obtain ⟨_ | e, s₂⟩ := replayed
        · exact trans_of R hkeeps (ih (blocks + 1) s₂)
        · exact hkeeps
      · exact ih blocks s₁
    · dsimp only
      obtain hsame | rfl := exitBefore_some hexit
      · rw [hsame]
        exact refl_of R s.cpu
      · rw [cpu_singleStep hpassive]
        exact Exec.keeps_step h ⟨s.cpu, s.mem, s.runner.log⟩

end RunState

end X86Replay

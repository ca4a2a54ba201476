import X86Replay.Proofs.Runner
import X86Replay.Proofs.Turns

/-!
# The turns of a run

* `RunState.turns`: the states of a run in which a block is looked for, one after the other.
* `RunState.Compiles`: the block is compiled in this turn.
* `executed_run`: the turns that start a block are all the blocks that a run executes.
-/

namespace X86Replay

namespace RunState

variable {M S : Type}

/-! ## Turns -/

/-- What a block is compiled for in a state. -/
def context (s : RunState M S) : CompileContext :=
  ⟨s.cpu, s.flags, s.runner.config⟩

variable [GuestMemory M]

/-- The next turn compiles a block: the code address is resolved, no cached block is used, and
    compiling succeeds. -/
def Compiles (s : RunState M S) (b : Block) : Prop :=
  ∃ physPc fetch s', s.runner.fetch.resolve s.cpu s.mem s.cpu.linearPc = (.ok physPc, fetch) ∧
    ({ s with runner.fetch := fetch } : RunState M S).cachedBlock physPc = (none, s') ∧
    (compileBlock s'.cpu s'.mem s'.runner.fetch s'.flags s'.runner.config).1 = .ok b

theorem compiles_of_resolved {s s' : RunState M S} {physPc : UInt64} {b : Block}
    (hresolve : (s.runner.fetch.resolve s.cpu s.mem s.cpu.linearPc).1 = .ok physPc)
    (hcached : s.resolved.cachedBlock physPc = (none, s'))
    (hb : (compileBlock s'.cpu s'.mem s'.runner.fetch s'.flags s'.runner.config).1 = .ok b) :
    s.Compiles b :=
  ⟨physPc, _, s', Prod.ext hresolve rfl, hcached, hb⟩

/-- The check of the second page. -/
theorem mapForFetch_of_secondPageIsCurrent {s : RunState M S} {b : Block}
    (h : s.secondPageIsCurrent b) (page : UInt64) (hpage : b.secondPage? = some page) :
    mapForFetch s.mem (nextPage s.cpu.linearPc) s.cpu.cpl = .ok page := by
  unfold secondPageIsCurrent at h
  rw [hpage] at h
  rw [mapForFetch, pageOf_eq_self (CompileContext.nextPage_mod s.cpu.linearPc)]
  dsimp only at h
  split at h
  · rename_i a ha
    rw [ha]
    exact congrArg Except.ok (beq_iff_eq.1 h)
  · cases h

variable [EventSink S]

/-- The states at the start of those turns of the loop in which a block is looked for. -/
def turnsFrom : Nat → Nat → RunState M S → List (RunState M S)
  | 0, _, _ => []
  | fuel + 1, blocks, s =>
    match s.exitBefore blocks with
    | some _ => []
    | none =>
      s :: match s.nextBlock with
        | (.exit _, _) => []
        | (.again, s') => turnsFrom fuel blocks s'
        | (.block b, s') =>
          match s'.replayBlock b with
          | (some _, _) => []
          | (none, s'') => turnsFrom fuel (blocks + 1) s''

/-- The states at the start of those turns of a run in which a block is looked for. -/
def turns (s : RunState M S) : List (RunState M S) :=
  s.turnsFrom (s.runner.config.maxBlocks + 1) 0

/-- A run that is not over at once begins with a turn. -/
theorem head?_turns {s : RunState M S} (h : s.exitBefore 0 = none) : s.turns[0]? = some s := by
  rw [turns, turnsFrom, h]
  rfl

theorem turns_eq_singleton {s : RunState M S} (h : s.exitBefore 0 = none)
    (hlength : s.turns.length = 1) : s.turns = [s] := by
  obtain ⟨t, ht⟩ := List.length_eq_one_iff.1 hlength
  have hhead := head?_turns h
  rw [ht] at hhead ⊢
  rw [Option.some.inj hhead]

/-- The block that the next turn starts. -/
def started (s : RunState M S) : Option Block :=
  match s.nextBlock.1 with
  | .block b => some b
  | _ => none

theorem nextBlock_of_started {s : RunState M S} {b : Block} (h : s.started = some b) :
    ∃ s', s.nextBlock = (.block b, s') := by
  unfold started at h
  rcases hnext : s.nextBlock with ⟨e | b' | _, s'⟩
  · rw [hnext] at h
    cases h
  · rw [hnext] at h
    cases h
    exact ⟨s', rfl⟩
  · rw [hnext] at h
    cases h

end RunState

/-! ## Counting blocks -/

theorem Runner.stats_drain (r : Runner) : r.drain.stats = r.stats := by
  obtain ⟨config, cache, fetch, log, stats⟩ := r
  have hlog : (#[] : Array PhysSpan) ++ log.toList = log :=
    Array.toList_inj.1 (by rw [Array.toList_appendList, List.nil_append])
  have hnotified := Runner.Notified.drain config cache fetch log.toList stats
  rw [hlog] at hnotified
  exact hnotified.stats

namespace RunState

variable {M S : Type} {s : RunState M S}

/-- The number of blocks that have been executed. -/
def executed (s : RunState M S) : Nat :=
  s.runner.stats.blocksExecuted

theorem executed_execute {α : Type} (f : Machine M → α × Machine M) (s : RunState M S) :
    (s.execute f).2.executed = s.executed := by
  obtain ⟨⟨config, cache, fetch, log, stats⟩, cpu, mem, sink⟩ := s
  unfold execute executed
  dsimp only
  rw [Runner.stats_drain]

theorem executed_stop [EventSink S] (s : RunState M S) (reason : Stop) :
    (s.stop reason).2.executed = s.executed := by
  cases reason <;> rfl

variable [GuestMemory M]

theorem executed_cachedBlock (s : RunState M S) (physPc : UInt64) :
    (s.cachedBlock physPc).2.executed = s.executed := by
  have hcases := s.cachedBlock_cases physPc
  generalize s.cachedBlock physPc = r at hcases ⊢
  cases hcases <;> rfl

theorem executed_compiledBlock (s : RunState M S) :
    s.compiledBlock.2.executed = s.executed := by
  have hcases := s.compiledBlock_cases
  generalize s.compiledBlock = r at hcases ⊢
  cases hcases <;> rfl

variable [EventSink S]

theorem executed_nextBlock (s : RunState M S) : s.nextBlock.2.executed = s.executed := by
  have hcases := s.nextBlock_cases
  generalize s.nextBlock = r at hcases ⊢
  cases hcases with
  | unresolved => rfl
  | cached => exact executed_cachedBlock s.resolved _
  | fault | lost | compiled =>
    exact (executed_compiledBlock _).trans (executed_cachedBlock s.resolved _)

theorem executed_singleStep (s : RunState M S) : s.singleStep.2.executed = s.executed := by
  have hstep := executed_execute (Exec.step (M := M)) s
  unfold singleStep
  generalize s.execute (Exec.step (M := M)) = result at hstep ⊢
  obtain ⟨e | _ | _ | reason, s'⟩ := result
  · exact hstep
  · exact hstep
  · exact hstep
  · exact (executed_stop _ reason).trans hstep

theorem executed_exitBefore {blocks : Nat} {result : RunExit × RunState M S}
    (h : s.exitBefore blocks = some result) : result.2.executed = s.executed := by
  obtain hsame | rfl := exitBefore_some h
  · rw [hsame]
  · exact executed_singleStep s

/-- Replaying a block counts as one. -/
theorem executed_replayBlock (s : RunState M S) (b : Block) :
    (s.replayBlock b).2.executed = s.executed + 1 := by
  unfold replayBlock
  dsimp only
  have hreplay := executed_execute b.replay
    (s.modifyStats fun t => { t with blocksExecuted := t.blocksExecuted + 1 })
  generalize (s.modifyStats fun t => { t with blocksExecuted := t.blocksExecuted + 1 }).execute
    b.replay = result at hreplay ⊢
  obtain ⟨f | ⟨_ | _ | _ | reason, n⟩, s'⟩ := result
  · exact hreplay
  · exact hreplay
  · exact hreplay
  · exact hreplay
  · exact (executed_stop _ reason).trans hreplay

theorem executed_loop (fuel blocks : Nat) (s : RunState M S) :
    (s.loop fuel blocks).2.executed =
      s.executed + ((s.turnsFrom fuel blocks).filterMap started).length := by
  induction fuel generalizing blocks s with
  | zero => rfl
  | succ fuel ih =>
    rw [loop, turnsFrom]
    rcases hexit : s.exitBefore blocks with _ | result
    · dsimp only
      have hnext := executed_nextBlock s
      rcases hresult : s.nextBlock with ⟨e | b | _, s₁⟩
      · have hstarted : s.started = none := by rw [started, hresult]
        rw [hresult] at hnext
        rw [List.filterMap_cons_none hstarted]
        exact hnext
      · have hstarted : s.started = some b := by rw [started, hresult]
        rw [hresult] at hnext
        rw [List.filterMap_cons_some hstarted, List.length_cons]
        have hreplay := executed_replayBlock s₁ b
        dsimp only at hnext ⊢
        generalize s₁.replayBlock b = replayed at hreplay ⊢
        obtain ⟨_ | e, s₂⟩ := replayed
        · dsimp only at hreplay ⊢
          rw [ih, hreplay, hnext]
          omega
        · dsimp only at hreplay ⊢
          rw [hreplay, hnext]
          rfl
      · have hstarted : s.started = none := by rw [started, hresult]
        rw [hresult] at hnext
        rw [List.filterMap_cons_none hstarted]
        dsimp only at hnext ⊢
        rw [ih, hnext]
    · exact executed_exitBefore hexit

/-- **The turns that start a block are all the blocks that a run executes.** -/
theorem executed_run (s : RunState M S) :
    s.run.2.executed = s.executed + (s.turns.filterMap started).length :=
  executed_loop _ 0 s

end RunState

end X86Replay

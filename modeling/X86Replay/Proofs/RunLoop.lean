import X86Replay.Proofs.Runner
import X86Replay.Proofs.Turns

/-!
# The run loop executes instructions one at a time

* `RunState.Follows`: a state that is reached by executing as many instructions as have been
  counted.
* `RunState.Ends`: the end of a run, in terms of instructions executed one at a time.
* `nextBlock_spec`: the block that is found or compiled is up to date, and nothing else changes.
* `replayBlock_spec`: a block that is replayed leads to a state that follows.
* `Reachable`: runners after any runs, flushes and reported writes. They are sound.
* `run_ends`: a run of a reachable runner ends as its instructions, executed one at a time, do.
-/

namespace X86Replay

namespace RunExit

/-- Whether an exception has ended the run. -/
def isFault : RunExit → Bool
  | .exception _ | .compileFault _ => true
  | _ => false

/-- The stop that is left to the caller, with the instruction not completed. -/
def pending? : RunExit → Option Stop
  | .io request => some (.io request)
  | .assist reason => some (.assist reason)
  | _ => none

end RunExit

namespace RunState

variable {S : Type} {s s' s'' : RunState FlatMemory S} {b : Block}

/-- The number of instructions that have been counted. -/
def retired (s : RunState FlatMemory S) : Nat :=
  s.runner.stats.instructionsRetired

/-- The state is reached by executing instructions one at a time, all of which have been completed
    and counted. -/
def Follows (s s' : RunState FlatMemory S) : Prop :=
  ∃ k, s'.retired = s.retired + k ∧
    ∀ log, ∃ log', Retires k ⟨s.cpu, s.mem, log⟩ ⟨s'.cpu, s'.mem, log'⟩

/-- The end of a run that has started from state `s`, in terms of instructions executed one at a
    time: the state is reached by those that have been counted, and executing another one changes
    nothing if the run has ended with a stop left to the caller. -/
def Ends (s : RunState FlatMemory S) : RunExit × RunState FlatMemory S → Prop
  | (e, s') => e.isFault = false → s.Follows s' ∧
      ∀ stop ∈ e.pending?, ∀ log,
        Exec.step ⟨s'.cpu, s'.mem, log⟩ = (.ok (.stop stop), ⟨s'.cpu, s'.mem, log⟩)

/-! ## States that follow -/

theorem follows_of_retires {k : Nat} {log : Array PhysSpan} {m : Machine FlatMemory}
    (h : Retires k ⟨s.cpu, s.mem, log⟩ m) (hcpu : s'.cpu = m.cpu) (hmem : s'.mem = m.mem)
    (hretired : s'.retired = s.retired + k) : s.Follows s' := by
  refine ⟨k, hretired, fun log => ?_⟩
  rw [hcpu, hmem]
  exact h.relog log

namespace Follows

theorem trans (h : s.Follows s') (h' : s'.Follows s'') : s.Follows s'' := by
  obtain ⟨k, hretired, hsteps⟩ := h
  obtain ⟨k', hretired', hsteps'⟩ := h'
  refine ⟨k + k', by rw [hretired', hretired, Nat.add_assoc], fun log => ?_⟩
  obtain ⟨log₁, hfirst⟩ := hsteps log
  obtain ⟨log₂, hrest⟩ := hsteps' log₁
  exact ⟨log₂, hfirst.trans hrest⟩

theorem inRange (h : s.Follows s') (hs : s.cpu.InRange) : s'.cpu.InRange := by
  obtain ⟨k, -, hsteps⟩ := h
  obtain ⟨log', hsteps⟩ := hsteps #[]
  exact hsteps.inRange hs

theorem ends (h : s.Follows s') {result : RunExit × RunState FlatMemory S} (h' : s'.Ends result) :
    s.Ends result := by
  intro hfault
  obtain ⟨hfollows, hpending⟩ := h' hfault
  exact ⟨h.trans hfollows, hpending⟩

end Follows

/-- The state after a block has been looked for: the machine is the same, and so is what has been
    counted as executed. -/
structure Idle (s s' : RunState FlatMemory S) : Prop where
  cpu : s'.cpu = s.cpu
  mem : s'.mem = s.mem
  config : s'.runner.config = s.runner.config
  retired : s'.retired = s.retired

namespace Idle

theorem refl (s : RunState FlatMemory S) : Idle s s :=
  ⟨rfl, rfl, rfl, rfl⟩

theorem trans (h : Idle s s') (h' : Idle s' s'') : Idle s s'' :=
  ⟨h'.cpu.trans h.cpu, h'.mem.trans h.mem, h'.config.trans h.config, h'.retired.trans h.retired⟩

theorem follows (h : Idle s s') : s.Follows s' := by
  refine ⟨0, h.retired, fun log => ⟨log, ?_⟩⟩
  rw [h.cpu, h.mem]
  exact .zero _

end Idle

/-! ## Finding a block -/

/-- The block is up to date, and the one for the processor state. -/
structure Fits (s : RunState FlatMemory S) (b : Block) : Prop where
  upToDate : b.UpToDate s.runner.config s.mem
  isFor : b.isFor s.cpu.linearPc s.flags (.ofCpu s.cpu)

theorem Fits.idle (h : s.Fits b) (hidle : Idle s s') : s'.Fits b := by
  refine ⟨?_, ?_⟩
  · rw [hidle.config, hidle.mem]
    exact h.upToDate
  · rw [flags, hidle.cpu, hidle.config]
    exact h.isFor

/-- The state is one of a sound runner, with the machine of `s`. -/
structure Rests (s s' : RunState FlatMemory S) : Prop where
  idle : Idle s s'
  sound : s'.runner.Sound s'.mem

namespace Rests

theorem trans (h : Rests s s') (h' : Rests s' s'') : Rests s s'' :=
  ⟨h.idle.trans h'.idle, h'.sound⟩

end Rests

/-- Another cache, window and count of compiled blocks leave a runner sound, if cache and window
    are. -/
theorem rests_runner {cache : BlockCache} {fetch : FetchStream} (h : s.runner.Sound s.mem)
    (hcache : cache.Sound fun b => b.UpToDate s.runner.config s.mem)
    (hfetch : fetch.Current s.mem) (n : Nat) :
    Rests s { s with runner := { s.runner with cache, fetch, stats.blocksCompiled := n } } :=
  ⟨⟨rfl, rfl, rfl, rfl⟩, ⟨h.size, h.log, hfetch, hcache⟩⟩

/-- **A cached block is up to date**, and the one for the processor state. -/
theorem cachedBlock_spec (h : s.runner.Sound s.mem) :
    Rests s (s.cachedBlock s.cpu.linearPc).2 ∧
      ∀ b ∈ (s.cachedBlock s.cpu.linearPc).1, s.Fits b := by
  have hsound := h.cache.lookupBlock s.cpu.linearPc s.flags (.ofCpu s.cpu)
  have hcases := s.cachedBlock_cases s.cpu.linearPc
  generalize s.cachedBlock s.cpu.linearPc = r at hcases ⊢
  cases hcases with
  | missing hlookup =>
    rw [hlookup] at hsound
    exact ⟨rests_runner h hsound h.fetch _, fun b hb => nomatch hb⟩
  | current hlookup =>
    rw [hlookup] at hsound
    refine ⟨rests_runner h hsound h.fetch _, fun b hb => ?_⟩
    obtain rfl := Option.some.inj hb
    obtain ⟨hblock, hfor⟩ := BlockCache.lookupBlock_some (congrArg Prod.fst hlookup)
    exact ⟨h.cache.blocks _ _ hblock, hfor⟩
  | moved hlookup =>
    rw [hlookup] at hsound
    exact ⟨rests_runner h (hsound.remove _) h.fetch _, fun b hb => nomatch hb⟩

/-- **A compiled block is up to date**, and the one for the processor state. -/
theorem compiledBlock_spec (h : s.runner.Sound s.mem) :
    Rests s s.compiledBlock.2 ∧ ∀ b, s.compiledBlock.1 = .ok (some b) → s.Fits b := by
  have hwidth : s.flags.codeWidth = s.cpu.codeWidth := ModeFlags.codeWidth_ofCpu _ _ _
  have hcurrent : (compileBlock s.cpu s.mem s.runner.fetch s.flags s.runner.config).2.Current
      s.mem := current_compileBlock hwidth h.fetch
  have hcases := s.compiledBlock_cases
  generalize s.compiledBlock = r at hcases ⊢
  cases hcases with
  | fault hcompile =>
    rw [hcompile] at hcurrent
    exact ⟨rests_runner h h.cache hcurrent _, fun b hb => nomatch hb⟩
  | inserted hcompile =>
    rw [hcompile] at hcurrent
    have hfits : s.Fits _ := ⟨.of_compile h.fetch hcompile, Block.isFor_of_compile h.fetch hcompile⟩
    refine ⟨rests_runner h (h.cache.insert hfits.upToDate) hcurrent _, fun b hb => ?_⟩
    rwa [BlockCache.get?_insert (Except.ok.inj hb)]

variable [EventSink S]

theorem sound_failCompile (h : s.runner.Sound s.mem) (f : CompileFault) :
    (s.failCompile f).2.runner.Sound (s.failCompile f).2.mem :=
  h.withStats _

omit [EventSink S] in
/-- In flat memory CS:RIP is resolved to itself. -/
theorem resolved_spec (h : s.runner.Sound s.mem) :
    Rests s s.resolved ∧
      ∀ physPc, (s.runner.fetch.resolve s.cpu s.mem s.cpu.linearPc).1 = .ok physPc →
        physPc = s.cpu.linearPc := by
  unfold resolved
  rcases hresolve : s.runner.fetch.resolve s.cpu s.mem s.cpu.linearPc with ⟨x | a, fetch⟩
  · obtain ⟨-, hwindow⟩ := FetchStream.resolve_error hresolve
    exact ⟨rests_runner h h.cache (FetchStream.forall_window_of_none hwindow) _,
      fun _ hok => nomatch hok⟩
  · obtain ⟨page, hpage, ha, honPage⟩ := FetchStream.resolve_ok h.fetch hresolve
    refine ⟨rests_runner h h.cache honPage.current _, fun physPc hok => ?_⟩
    obtain rfl := Except.ok.inj hok
    rw [← UInt64.toNat_inj, ha, (mapForFetch_flat hpage).1, toNat_pageOf]
    omega

/-- How the way to the next block ends: by a fault, or in a state in which a block that fits is to
    be replayed, or in one in which the block has been lost. -/
theorem nextBlock_spec (h : s.runner.Sound s.mem) :
    match s.nextBlock with
    | (.exit e, s') => e.isFault ∧ s'.runner.Sound s'.mem
    | (.again, s') => Rests s s'
    | (.block b, s') => Rests s s' ∧ s'.Fits b := by
  obtain ⟨hresolved, hpc⟩ := resolved_spec h
  obtain ⟨hcached, hfound⟩ := cachedBlock_spec hresolved.sound
  obtain ⟨hcompiled, hfits⟩ := compiledBlock_spec hcached.sound
  have hrests := (hresolved.trans hcached).trans hcompiled
  have hcases := s.nextBlock_cases
  generalize s.nextBlock = r at hcases ⊢
  cases hcases with
  | unresolved => exact ⟨rfl, sound_failCompile hresolved.sound _⟩
  | cached hresolve hb =>
    obtain rfl := hpc _ hresolve
    exact ⟨hresolved.trans hcached, (hfound _ hb).idle hcached.idle⟩
  | fault hresolve =>
    obtain rfl := hpc _ hresolve
    exact ⟨rfl, sound_failCompile hrests.sound _⟩
  | lost hresolve =>
    obtain rfl := hpc _ hresolve
    exact hrests
  | compiled hresolve _ hb =>
    obtain rfl := hpc _ hresolve
    exact ⟨hrests, (hfits _ hb).idle hcompiled.idle⟩

/-! ## Executing -/

theorem sound_stop {reason : Stop} (h : s.runner.Sound s.mem) :
    (s.stop reason).2.runner.Sound (s.stop reason).2.mem := by
  cases reason with
  | halt | io | assist => exact h
  | softwareInterrupt => exact h.withStats _

theorem machine_stop (hpassive : EventSink.Passive S) (s : RunState FlatMemory S) (reason : Stop) :
    (s.stop reason).2.cpu = s.cpu ∧ (s.stop reason).2.mem = s.mem ∧
      (s.stop reason).2.retired = s.retired := by
  cases reason with
  | halt | io | assist => exact ⟨rfl, rfl, rfl⟩
  | softwareInterrupt vector => exact ⟨hpassive _ _ _, rfl, rfl⟩

/-- Only a stop whose instruction has not been completed is left to the caller. -/
theorem pending?_stop (s : RunState FlatMemory S) (reason : Stop) :
    (s.stop reason).1.pending? = if reason.retires then none else some reason := by
  cases reason <;> rfl

/-- A run that a stop has ended in state `s'`, after `k` completed instructions and the one that
    stops. -/
theorem ends_stop (hpassive : EventSink.Passive S) {reason : Stop} {k : Nat}
    {m₁ m₂ : Machine FlatMemory} {log : Array PhysSpan}
    (hsteps : Retires k ⟨s.cpu, s.mem, log⟩ m₁) (hstep : Exec.step m₁ = (.ok (.stop reason), m₂))
    (hcpu : s'.cpu = m₂.cpu) (hmem : s'.mem = m₂.mem)
    (hretired : s'.retired = s.retired + if reason.retires then k + 1 else k) :
    s.Ends (s'.stop reason) := by
  obtain ⟨hcpu', hmem', hretired'⟩ := machine_stop hpassive s' reason
  have hpending := pending?_stop s' reason
  generalize s'.stop reason = result at hcpu' hmem' hretired' hpending
  obtain ⟨e, s''⟩ := result
  rw [hcpu] at hcpu'
  rw [hmem] at hmem'
  rw [hretired] at hretired'
  intro _
  cases hretires : reason.retires with
  | true =>
    rw [hretires, if_pos rfl] at hpending hretired'
    have hall := hsteps.trans (.one hstep hretires)
    refine ⟨follows_of_retires hall hcpu' hmem' hretired', fun stop hstop => ?_⟩
    rw [hpending] at hstop
    cases hstop
  | false =>
    rw [hretires, if_neg Bool.false_ne_true] at hpending hretired'
    obtain rfl := Exec.conduct_step.pends hstep hretires
    refine ⟨follows_of_retires hsteps hcpu' hmem' hretired', fun stop hstop log' => ?_⟩
    rw [hpending] at hstop
    obtain rfl := Option.some.inj hstop
    obtain ⟨log'', hstep'⟩ := Exec.step_log hstep log'
    have hsame := Exec.conduct_step.pends hstep' hretires
    rw [hcpu', hmem', hstep', hsame]

/-- Executing one instruction ends the run as that instruction does. -/
theorem singleStep_spec (h : s.runner.Sound s.mem) :
    s.singleStep.2.runner.Sound s.singleStep.2.mem ∧
      (EventSink.Passive S → s.Ends s.singleStep) := by
  rcases hstep : Exec.step ⟨s.cpu, s.mem, #[]⟩ with ⟨r, m⟩
  obtain ⟨runner, hexecute, hsound, -, hstats⟩ := execute_spec logs_step h hstep
  unfold singleStep
  rw [hexecute]
  have hretired : (⟨runner, m.cpu, m.mem, s.sink⟩ : RunState FlatMemory S).retired = s.retired :=
    congrArg RunStats.instructionsRetired hstats
  have hsound' (n : Nat) :
      ((⟨runner, m.cpu, m.mem, s.sink⟩ : RunState FlatMemory S).retire n).runner.Sound m.mem :=
    hsound.withStats _
  have hone (o : Outcome) (ho : o.retires) (hr : r = .ok o) :
      s.Follows ((⟨runner, m.cpu, m.mem, s.sink⟩ : RunState FlatMemory S).retire 1) :=
    follows_of_retires (.one (hr ▸ hstep) ho) rfl rfl (congrArg (· + 1) hretired)
  rcases r with x | _ | _ | reason
  · exact ⟨hsound.withStats _, fun _ hfault => nomatch hfault⟩
  · exact ⟨hsound' 1, fun _ _ => ⟨hone _ rfl rfl, fun _ hstop => nomatch hstop⟩⟩
  · exact ⟨hsound' 1, fun _ _ => ⟨hone _ rfl rfl, fun _ hstop => nomatch hstop⟩⟩
  · refine ⟨sound_stop (hsound' _), fun hpassive => ?_⟩
    exact ends_stop hpassive (.zero _) hstep rfl rfl (congrArg (· + _) hretired)

/-- **A block that fits is replayed as its instructions are executed one at a time.** -/
theorem replayBlock_spec (h : s.runner.Sound s.mem) (hb : s.Fits b) :
    (s.replayBlock b).2.runner.Sound (s.replayBlock b).2.mem ∧
      (EventSink.Passive S → s.cpu.InRange →
        match s.replayBlock b with
        | (some e, s') => s.Ends (e, s')
        | (none, s') => s.Follows s') := by
  rcases hreplay : b.replay ⟨s.cpu, s.mem, #[]⟩ with ⟨r, m⟩
  have hsteps (hrip : s.cpu.InRange) := hb.upToDate.replay h.size hrip hb.isFor #[]
  rw [hreplay] at hsteps
  unfold replayBlock
  dsimp only
  generalize hcounted : s.modifyStats (fun t => { t with blocksExecuted := t.blocksExecuted + 1 }) =
    counted
  have hidle : Rests s counted := by
    subst hcounted
    exact ⟨⟨rfl, rfl, rfl, rfl⟩, h.withStats _⟩
  rw [← hidle.idle.cpu, ← hidle.idle.mem] at hreplay
  obtain ⟨runner, hexecute, hsound, -, hstats⟩ :=
    execute_spec hb.upToDate.logs_replay hidle.sound hreplay
  rw [hexecute]
  generalize hafter : (⟨runner, m.cpu, m.mem, counted.sink⟩ : RunState FlatMemory S) = after
  have hcpu : after.cpu = m.cpu := by rw [← hafter]
  have hmem : after.mem = m.mem := by rw [← hafter]
  have hretired (n : Nat) : (after.retire n).retired = s.retired + n := by
    rw [← hidle.idle.retired]
    subst hafter
    exact congrArg (· + n) (congrArg RunStats.instructionsRetired hstats)
  have hretire (n : Nat) : (after.retire n).runner.Sound (after.retire n).mem := by
    subst hafter
    exact hsound.withStats _
  -- The cases are the ways a replay ends: at a fault, which promises nothing about the steps, with
  -- the whole block done, left early, after a write to the block, or at a stop.
  obtain f | ⟨_ | _ | _ | reason, n⟩ := r
  · exact ⟨(hretire f.instructions).withStats _, fun _ _ hend => nomatch hend⟩
  · refine ⟨hretire n, fun _ hrip => ?_⟩
    obtain hsteps | ⟨f, m', hfault⟩ := hsteps hrip
    · exact follows_of_retires (Proceeds.retires hsteps) hcpu hmem (hretired n)
    · cases hfault
  · refine ⟨hretire n, fun _ hrip => ?_⟩
    obtain ⟨k, m₁, rfl, hsteps, hlast⟩ | ⟨f, m', hfault⟩ := hsteps hrip
    · exact follows_of_retires (hsteps.retires.trans (.one hlast rfl)) hcpu hmem (hretired (k + 1))
    · cases hfault
  · refine ⟨hretire n, fun _ hrip => ?_⟩
    obtain hsteps | ⟨f, m', hfault⟩ := hsteps hrip
    · exact follows_of_retires (Proceeds.retires hsteps) hcpu hmem (hretired n)
    · cases hfault
  · refine ⟨sound_stop (hretire n), fun hpassive hrip => ?_⟩
    obtain ⟨k, m₁, hn, hsteps, hlast⟩ | ⟨f, m', hfault⟩ := hsteps hrip
    · exact ends_stop hpassive hsteps.retires hlast hcpu hmem (hn ▸ hretired n)
    · cases hfault

/-! ## The loop -/

theorem exitBefore_spec {blocks : Nat} {result : RunExit × RunState FlatMemory S}
    (h : s.runner.Sound s.mem) (hexit : s.exitBefore blocks = some result) :
    result.2.runner.Sound result.2.mem ∧ (EventSink.Passive S → s.Ends result) := by
  have hends {e : RunExit} (he : e.pending? = none) : s.Ends (e, s) := fun _ =>
    ⟨(Idle.refl s).follows, fun stop hstop => by rw [he] at hstop; cases hstop⟩
  unfold exitBefore at hexit
  split_ifs at hexit
  · cases hexit
    exact ⟨h, fun _ => hends rfl⟩
  · cases hexit
    exact ⟨h, fun _ => hends rfl⟩
  · cases hexit
    exact ⟨h, fun _ => hends rfl⟩
  · cases hexit
    exact singleStep_spec h

/-- **The loop ends as its instructions, executed one at a time, do.** -/
theorem loop_spec (fuel blocks : Nat) (h : s.runner.Sound s.mem) :
    (s.loop fuel blocks).2.runner.Sound (s.loop fuel blocks).2.mem ∧
      (EventSink.Passive S → s.cpu.InRange → s.Ends (s.loop fuel blocks)) := by
  induction fuel generalizing blocks s with
  | zero =>
    exact ⟨h, fun _ _ _ => ⟨(Idle.refl s).follows, fun _ hstop => nomatch hstop⟩⟩
  | succ fuel ih =>
    rw [loop]
    rcases hexit : s.exitBefore blocks with _ | result
    · have hnext := nextBlock_spec h
      generalize s.nextBlock = next at hnext ⊢
      obtain ⟨e | b | _, s₁⟩ := next
      · obtain ⟨hfault, hsound⟩ := hnext
        refine ⟨hsound, fun _ _ hend => ?_⟩
        rw [hfault] at hend
        cases hend
      · -- What a block does is put in front of what the rest of the loop does: `Follows` composes.
        obtain ⟨hrests, hfits⟩ := hnext
        obtain ⟨hsound, hreplay⟩ := replayBlock_spec hrests.sound hfits
        have hfollows := hrests.idle.follows
        dsimp only
        generalize s₁.replayBlock b = replayed at hsound hreplay ⊢
        obtain ⟨_ | e, s₂⟩ := replayed
        · obtain ⟨hsound', hends⟩ := ih (blocks + 1) hsound
          refine ⟨hsound', fun hpassive hrip => hfollows.ends ?_⟩
          have hrip₁ := hfollows.inRange hrip
          have hblock : s₁.Follows s₂ := hreplay hpassive hrip₁
          exact hblock.ends (hends hpassive (hblock.inRange hrip₁))
        · exact ⟨hsound, fun hpassive hrip =>
            hfollows.ends (hreplay hpassive (hfollows.inRange hrip))⟩
      · obtain ⟨hsound, hends⟩ := ih blocks hnext.sound
        have hfollows := hnext.idle.follows
        exact ⟨hsound, fun hpassive hrip =>
          hfollows.ends (hends hpassive (hfollows.inRange hrip))⟩
    · obtain ⟨hsound, hends⟩ := exitBefore_spec h hexit
      exact ⟨hsound, fun hpassive _ => hends hpassive⟩

end RunState

/-! ## Reachable runners -/

/-- A new runner is sound. -/
theorem Runner.sound_ofConfig? {config : Config} {r : Runner} {mem : FlatMemory}
    (h : Runner.ofConfig? config = .ok r) (hsize : mem.bytes.size ≤ 2 ^ 32) : r.Sound mem := by
  unfold Runner.ofConfig? at h
  cases hvalid : config.validate with
  | error x =>
    rw [hvalid] at h
    cases h
  | ok =>
    rw [hvalid] at h
    cases h
    exact ⟨hsize, rfl, FetchStream.current_empty mem, .empty _ _⟩

/-- A runner and the memory it runs on, after any number of runs, for any processor states and
    receivers. Between runs the runner may be flushed, and memory may change in the spans that are
    reported; its pages stay. -/
inductive Reachable : Runner → FlatMemory → Prop
  | new {config : Config} {r : Runner} {mem : FlatMemory} :
      Runner.ofConfig? config = .ok r → mem.bytes.size ≤ 2 ^ 32 → Reachable r mem
  | run {S : Type} [EventSink S] (s : RunState FlatMemory S) :
      Reachable s.runner s.mem → Reachable s.run.2.runner s.run.2.mem
  | flush {r : Runner} {mem : FlatMemory} : Reachable r mem → Reachable r.flush mem
  | notify {r : Runner} {mem mem' : FlatMemory} (spans : List PhysSpan) :
      Reachable r mem → (∀ s ∈ spans, s.length < 2 ^ 64) → Frame spans mem mem' →
      Reachable (spans.foldl (fun r s => (r.notifyWrite s.start s.length.toUInt64).2) r) mem'

/-- **Reachable runners are sound.** -/
theorem Reachable.sound {r : Runner} {mem : FlatMemory} (h : Reachable r mem) : r.Sound mem := by
  induction h with
  | new hnew hsize => exact Runner.sound_ofConfig? hnew hsize
  | run s _ ih => exact (RunState.loop_spec _ _ ih).1
  | flush _ ih => exact ⟨ih.size, ih.log, (fun _ hw => nomatch hw), .flush _⟩
  | notify spans _ hlength hframe ih =>
    exact (Runner.Notified.foldl spans _).sound ih hframe hlength

/-- **A run executes instructions one at a time.** If no exception ends a run of a reachable runner,
    processor and memory are those after as many completed instructions as have been counted, and
    executing another one changes nothing if the run ends with a stop left to the caller. -/
theorem run_ends {S : Type} [EventSink S] {s s' : RunState FlatMemory S} {e : RunExit}
    (hpassive : EventSink.Passive S) (h : Reachable s.runner s.mem) (hrip : s.cpu.InRange)
    (hrun : s.run = (e, s')) (hfault : e.isFault = false) :
    s.Follows s' ∧ ∀ stop ∈ e.pending?, ∀ log,
      Exec.step ⟨s'.cpu, s'.mem, log⟩ = (.ok (.stop stop), ⟨s'.cpu, s'.mem, log⟩) := by
  have hends := (RunState.loop_spec (s.runner.config.maxBlocks + 1) 0 h.sound).2 hpassive hrip
  change s.Ends s.run at hends
  rw [hrun] at hends
  exact hends hfault

/-- The same for a block of `INC EAX` and `HLT`. -/
theorem run_ends_inc_hlt :
    ∃ (r : Runner) (s s' : RunState FlatMemory Unit),
      Runner.ofConfig? { cacheCapacity := 1, hashBits := 1 } = .ok r ∧
      s = ⟨r, Cpu.flat32, (FlatMemory.zeros 64).load 0 [0x40, 0xF4], ()⟩ ∧
      s.run = (.halted, s') ∧ s'.retired = 2 ∧ s.Follows s' := by
  obtain ⟨s, hs⟩ : ∃ s : RunState FlatMemory Unit,
      s = ⟨{ config := { cacheCapacity := 1, hashBits := 1 }, cache := .empty 1 1 }, Cpu.flat32,
        (FlatMemory.zeros 64).load 0 [0x40, 0xF4], ()⟩ := ⟨_, rfl⟩
  have hexit : s.run.1 = .halted ∧ s.run.2.retired = 2 := by
    rw [hs]
    decide +kernel
  have hreachable : Reachable s.runner s.mem := by
    rw [hs]
    exact .new (show Runner.ofConfig? { cacheCapacity := 1, hashBits := 1 } = .ok _ from rfl)
      (by decide +kernel)
  have hrip : s.cpu.InRange := by
    rw [hs]
    show Cpu.flat32.rip ≤ Cpu.flat32.ripMask
    decide
  rcases hrun : s.run with ⟨e, s'⟩
  rw [hrun] at hexit
  obtain ⟨rfl, hretired⟩ := hexit
  refine ⟨_, s, s', rfl, hs, hrun, hretired, ?_⟩
  exact (run_ends (fun _ _ _ => rfl) hreachable hrip hrun rfl).1

end X86Replay

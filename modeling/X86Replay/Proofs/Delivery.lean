import X86Replay.Proofs.Interrupts
import X86Replay.Proofs.Termination

/-!
# Events are delivered once

A run delivers one event at most, as the very last thing it does, and its exit tells which.

* `RunExit.event?`, `RunState.close`: the event that goes with an exit, and its delivery.
* `replayCalls_answer`: a replay ends where the last of its calls does.
* `Runner.Settled`: no write has still to be dealt with, and all cached blocks are listings of
  encodings that follow each other.
* `RunState.DeliveredAt`: the processor that the receiver is given, by what the last turn has done.
* `RunState.turn_closes`: a turn delivers nothing unless it is the last one.
* `run_delivers`: what a run delivers, and where RIP stands then.
-/

namespace X86Replay

variable {M S : Type}

/-! ## Exits and events -/

/-- The event that goes with an exit. -/
def RunExit.event? : RunExit → Option Event
  | .exception e => some (.exception e)
  | .compileFault f => some (.exception f.exception)
  | .softwareInterrupt vector => some (.interrupt vector)
  | _ => none

theorem RunExit.event?_eq_exception {e : RunExit} {x : Exception} :
    e.event? = some (.exception x) ↔ e = .exception x ∨ ∃ pc, e = .compileFault ⟨pc, x⟩ := by
  cases e with
  | compileFault f =>
    obtain ⟨pc, y⟩ := f
    simp [event?]
  | _ => simp [event?]

theorem RunExit.event?_eq_interrupt {e : RunExit} {v : UInt8} :
    e.event? = some (.interrupt v) ↔ e = .softwareInterrupt v := by
  cases e <;> simp [event?]

/-- The list tells which events a receiver has been given. -/
def EventSink.Notes [EventSink S] (given : S → List Event) : Prop :=
  ∀ sink cpu e, given (EventSink.deliver sink cpu e).1 = given sink ++ [e]

namespace RunState

variable [EventSink S]

/-- The state after the event of an exit has been delivered, if it has one. -/
def close (s : RunState M S) (e : RunExit) : RunState M S :=
  match e.event? with
  | some event => s.deliver event
  | none => s

theorem runner_close (s : RunState M S) (e : RunExit) : (s.close e).runner = s.runner := by
  unfold close
  cases e.event? <;> rfl

/-- A receiver has been given the event of the exit and no other. -/
theorem given_close {given : S → List Event} (h : EventSink.Notes given) (s : RunState M S)
    (e : RunExit) : given (s.close e).sink = given s.sink ++ e.event?.toList := by
  unfold close
  cases e.event? with
  | some event => exact h s.sink s.cpu event
  | none => exact (List.append_nil _).symm

theorem stop_eq_close (s : RunState M S) (reason : Stop) :
    (s.stop reason).2 = s.close (s.stop reason).1 := by
  cases reason <;> rfl

/-- A stop has an event only if it is a software interrupt. -/
theorem event?_stop (s : RunState M S) {reason : Stop}
    (h : ∀ v, reason ≠ .softwareInterrupt v) : (s.stop reason).1.event? = none := by
  cases reason with
  | halt | io | assist => rfl
  | softwareInterrupt v => exact absurd rfl (h v)

end RunState

/-! ## Settled runners -/

/-- The calls of the block are those of encodings that follow each other. -/
def Block.Listed (b : Block) : Prop :=
  ∃ c es, CompileContext.Sequence c 0 es ∧ c.flags = b.flags ∧ b.calls = c.listing 0 es

namespace Runner

/-- No write has still to be dealt with, and all cached blocks are listings. -/
structure Settled (r : Runner) : Prop where
  log : r.log = #[]
  blocks : r.cache.Sound Block.Listed

variable {r : Runner} {config : Config}

theorem settled_ofConfig? (h : ofConfig? config = .ok r) : r.Settled := by
  unfold ofConfig? at h
  cases hvalid : config.validate with
  | error x =>
    rw [hvalid] at h
    cases h
  | ok =>
    rw [hvalid] at h
    cases h
    exact ⟨rfl, .empty _ _⟩

theorem Settled.notifyWrite (h : r.Settled) (start n : UInt64) :
    (r.notifyWrite start n).2.Settled :=
  ⟨h.log, h.blocks.dropHit start n⟩

/-- Once the log has been drained, the runner is settled. -/
theorem settled_drain (h : r.cache.Sound Block.Listed) : r.drain.Settled := by
  obtain ⟨config, cache, fetch, log, stats⟩ := r
  have hfoldl (spans : List PhysSpan) (r : Runner) (hr : r.Settled) :
      (spans.foldl (fun r s => (r.notifyWrite s.start s.length.toUInt64).2) r).Settled := by
    induction spans generalizing r with
    | nil => exact hr
    | cons s spans ih => exact ih _ (hr.notifyWrite s.start s.length.toUInt64)
  unfold drain
  dsimp only
  rw [← Array.foldl_toList]
  exact hfoldl _ _ ⟨rfl, h⟩

end Runner

namespace RunState

variable {s s' : RunState M S}

/-- The guest has not executed anything and nothing has been delivered from one state to another, in
    which no write has still to be dealt with. -/
structure Settles (s s' : RunState M S) : Prop where
  waits : s.Waits s'
  sink : s'.sink = s.sink
  settled : s'.runner.Settled

theorem Settles.trans {s'' : RunState M S} (h : s.Settles s') (h' : s'.Settles s'') :
    s.Settles s'' :=
  ⟨h.waits.trans h'.waits, h'.sink.trans h.sink, h'.settled⟩

/-- The block can be replayed: its calls are a listing for the width of the code. -/
structure Plays (s : RunState M S) (b : Block) : Prop where
  listed : b.Listed
  width : b.flags.codeWidth = s.cpu.codeWidth

theorem plays_of_isFor {b : Block} {physPc : UInt64} {identity : CodeIdentity} (hb : b.Listed)
    (h : b.isFor physPc s.flags identity) : s.Plays b where
  listed := hb
  width := by
    rw [ModeFlags.codeWidth_congr (ModeFlags.low_eq_of_key_eq (Block.isFor_iff.1 h).2.1)]
    exact ModeFlags.codeWidth_ofCpu _ _ _

/-- Executing settles the runner, and leaves the receiver alone. -/
theorem execute_settled {α : Type} {f : Machine M → α × Machine M}
    (h : s.runner.Settled) {a : α} {m : Machine M} (hrun : f ⟨s.cpu, s.mem, #[]⟩ = (a, m)) :
    ∃ runner, s.execute f = (a, ⟨runner, m.cpu, m.mem, s.sink⟩) ∧ runner.Settled := by
  obtain ⟨⟨config, cache, fetch, log, stats⟩, cpu, mem, sink⟩ := s
  obtain rfl : log = #[] := h.log
  unfold execute
  dsimp only at hrun ⊢
  rw [hrun]
  exact ⟨_, rfl, Runner.settled_drain (r := ⟨config, cache, fetch, m.log, stats⟩) h.blocks⟩

end RunState

variable [GuestMemory M]

/-! ## Replays -/

/-- Before a call of the block runs, RIP stands at its instruction. -/
theorem Block.Listed.ripAt {b : Block} (h : b.Listed) {m m₁ : Machine M}
    (hwidth : b.flags.codeWidth = m.cpu.codeWidth) {pre : List Call} {call : Call}
    (hcalls : pre ++ [call] <+: b.calls) (hpre : CallsProceed pre m m₁) :
    m₁.cpu.rip = m.cpu.ripAt call.offset.toNat := by
  obtain ⟨c, es, hsequence, hflags, hlisting⟩ := h
  obtain ⟨post, hpost⟩ := hcalls
  rw [hlisting, List.append_assoc, List.singleton_append] at hpost
  have hc : c.width = m.cpu.codeWidth := by
    rw [CompileContext.width, hflags, hwidth]
  exact hsequence.ripAt hc (.refl m.cpu) hpost.symm hpre

/-- The answer of the call that has ended a replay. There is none if all calls have been run, or one
    has stored into the block. -/
def ReplayEnd.answer? : Except ReplayFault ReplayEnd → Option (Except Exception Outcome)
  | .error f => some (.error f.exception)
  | .ok ⟨.left, _⟩ => some (.ok .leave)
  | .ok ⟨.stop reason, _⟩ => some (.ok (.stop reason))
  | .ok _ => none

/-- **A replay ends where the last of its calls does**, and that one has given its answer. -/
theorem replayCalls_answer (b : Block) (calls : List Call) (n : Nat) (m : Machine M)
    {x : Except Exception Outcome} (h : ReplayEnd.answer? (b.replayCalls calls n m).1 = some x) :
    ∃ pre call m₁, b.ranCalls calls m = pre ++ [call] ∧ CallsProceed pre m m₁ ∧
      call.run m₁ = (x, (b.replayCalls calls n m).2) := by
  induction calls generalizing n m with
  | nil => cases h
  | cons c rest ih =>
    rw [Block.replayCalls] at h ⊢
    rw [Block.ranCalls]
    rcases hrun : c.run m with ⟨e | _ | _ | reason, m'⟩
    · rw [hrun] at h
      cases h
      exact ⟨[], c, m, rfl, .nil m, hrun⟩
    · rw [hrun] at h
      dsimp only at h ⊢
      by_cases hhit : (!rest.isEmpty && b.hitBy m'.log m.log.size) = true
      · rw [if_pos hhit] at h
        cases h
      · rw [if_neg hhit] at h
        rw [if_neg hhit, if_neg hhit]
        obtain ⟨pre, call, m₁, hran, hpre, hcall⟩ := ih _ m' h
        exact ⟨c :: pre, call, m₁, by rw [hran, List.cons_append], .cons hrun hpre, hcall⟩
    · rw [hrun] at h
      cases h
      exact ⟨[], c, m, rfl, .nil m, hrun⟩
    · rw [hrun] at h
      cases h
      exact ⟨[], c, m, rfl, .nil m, hrun⟩

namespace RunState

/-! ## Blocks -/

section

variable {s : RunState M S} {config : Config}

theorem cachedBlock_settles (h : s.runner.Settled) (physPc : UInt64) :
    s.Settles (s.cachedBlock physPc).2 ∧ ∀ b, (s.cachedBlock physPc).1 = some b → s.Plays b := by
  have hsound := h.blocks.lookupBlock physPc s.flags (.ofCpu s.cpu)
  have hcases := s.cachedBlock_cases physPc
  generalize s.cachedBlock physPc = r at hcases ⊢
  cases hcases with
  | missing hlookup =>
    rw [hlookup] at hsound
    exact ⟨⟨⟨rfl, rfl, rfl⟩, rfl, h.log, hsound⟩, fun b hb => nomatch hb⟩
  | current hlookup =>
    rw [hlookup] at hsound
    refine ⟨⟨⟨rfl, rfl, rfl⟩, rfl, h.log, hsound⟩, fun b hb => ?_⟩
    obtain rfl := Option.some.inj hb
    obtain ⟨hblock, hfor⟩ := BlockCache.lookupBlock_some (congrArg Prod.fst hlookup)
    exact plays_of_isFor (h.blocks.blocks _ _ hblock) hfor
  | moved hlookup =>
    rw [hlookup] at hsound
    exact ⟨⟨⟨rfl, rfl, rfl⟩, rfl, h.log, hsound.remove _⟩, fun b hb => nomatch hb⟩

theorem pc_of_compileBlock_error {cpu : Cpu} {mem : M} {fetch fetch' : FetchStream}
    {flags : ModeFlags} {f : CompileFault}
    (h : compileBlock cpu mem fetch flags config = (.error f, fetch')) : f.pc = cpu.linearPc := by
  unfold compileBlock at h
  dsimp only at h
  split at h
  · cases h
    rfl
  · split at h
    · cases h
    · cases h
    · cases h
      rfl

/-- A compiled block is a listing, and is found in the cache. -/
theorem compiledBlock_settles (h : s.runner.Settled) (hready : s.runner.Ready config) :
    s.Settles s.compiledBlock.2 ∧
      match s.compiledBlock.1 with
      | .error f => f.pc = s.cpu.linearPc
      | .ok found => ∃ b, found = some b ∧ s.Plays b := by
  have hwidth : s.flags.codeWidth = s.cpu.codeWidth := ModeFlags.codeWidth_ofCpu _ _ _
  have hvalid : s.runner.config.validate = .ok () := by
    rw [hready.settings]
    exact hready.valid
  obtain ⟨-, hblock⟩ := compileBlock_succeeds s.mem hvalid hwidth hready.fetch
  have hcases := s.compiledBlock_cases
  generalize s.compiledBlock = r at hcases ⊢
  cases hcases with
  | fault hcompile =>
    exact ⟨⟨⟨rfl, rfl, rfl⟩, rfl, h.log, h.blocks⟩, pc_of_compileBlock_error hcompile⟩
  | @inserted b _ hcompile =>
    rw [hcompile] at hblock
    obtain ⟨physPc, e, es, -, hsequence, -, hb⟩ := hblock b rfl
    have hplays : s.Plays b := by
      refine ⟨⟨_, e :: es, hsequence, ?_, ?_⟩, ?_⟩
      · rw [hb]
        rfl
      · rw [hb]
        exact (CompileContext.toList_calls_foldl _ _ _).trans (List.nil_append _)
      · rw [hb]
        exact hwidth
    obtain ⟨order, hlinked⟩ := hready.linked
    exact ⟨⟨⟨rfl, rfl, rfl⟩, rfl, h.log, h.blocks.insert hplays.listed⟩, b,
      hlinked.get?_insert b, hplays⟩

end

/-! ## The end of a run -/

/-- The processor that the receiver is given at the end of a run, after a last turn that has begun
    with the given processor and memory. -/
inductive DeliveredAt (cpu : Cpu) (mem : M) : Turn → RunExit → Cpu → Prop
  /-- The block could not be compiled, and nothing has changed. -/
  | compileFault {f : CompileFault} : f.pc = cpu.linearPc →
      DeliveredAt cpu mem .leave (.compileFault f) cpu
  /-- The single step has faulted, and nothing has changed. -/
  | stepFault {e : Exception} {m : Machine M} : Exec.step ⟨cpu, mem, #[]⟩ = (.error e, m) →
      DeliveredAt cpu mem .step (.exception e) cpu
  /-- RIP has moved past the instruction, and nothing else has changed. -/
  | stepInterrupt {i : Instruction} {v : UInt8} :
      fetchInstruction cpu mem cpu.linearPc = .ok i → i.vector? = some v →
      DeliveredAt cpu mem .step (.softwareInterrupt v) (cpu.advanceRip i.step)
  /-- The last call has faulted. RIP stands at its instruction, where the calls before it have left
      the processor. -/
  | replayFault {b : Block} {pre : List Call} {call : Call} {m m' : Machine M} {e : Exception} :
      pre ++ [call] <+: b.calls → CallsProceed pre ⟨cpu, mem, #[]⟩ m →
      m.cpu.rip = cpu.ripAt call.offset.toNat → call.run m = (.error e, m') →
      DeliveredAt cpu mem (.replay b (pre ++ [call])) (.exception e) m.cpu
  /-- RIP has stood at the instruction of the last call, and has moved past it. -/
  | replayInterrupt {b : Block} {pre : List Call} {call : Call} {m : Machine M} {i : Instruction}
      {v : UInt8} :
      pre ++ [call] <+: b.calls → CallsProceed pre ⟨cpu, mem, #[]⟩ m →
      m.cpu.rip = cpu.ripAt call.offset.toNat → decode m.cpu.codeWidth call.raw = .ok i →
      i.vector? = some v →
      DeliveredAt cpu mem (.replay b (pre ++ [call])) (.softwareInterrupt v)
        (m.cpu.advanceRip i.step)
  /-- Nothing is delivered. -/
  | silent {t : Turn} {e : RunExit} {cpu' : Cpu} : e.event? = none → DeliveredAt cpu mem t e cpu'

variable [EventSink S] {s s' : RunState M S} {config : Config}

/-- The last turn ends in a state from which only the event of the exit is delivered. -/
def Closes (s : RunState M S) (t : Turn) (e : RunExit) (s' : RunState M S) : Prop :=
  ∃ q : RunState M S, q.sink = s.sink ∧ q.runner.Settled ∧ s' = q.close e ∧
    DeliveredAt s.cpu s.mem t e q.cpu

theorem Closes.settled {t : Turn} {e : RunExit} (h : s.Closes t e s') : s'.runner.Settled := by
  obtain ⟨q, -, hq, rfl, -⟩ := h
  rwa [runner_close]

/-- A turn may have begun before. -/
theorem Settles.closes {s'' : RunState M S} {t : Turn} {e : RunExit} (h : s.Settles s')
    (hcloses : s'.Closes t e s'') : s.Closes t e s'' := by
  unfold Closes at hcloses ⊢
  rwa [h.sink, h.waits.cpu, h.waits.mem] at hcloses

/-- A run that does nothing in its last turn has no event. -/
theorem closes_idle (h : s.runner.Settled) {e : RunExit} (he : e.event? = none) :
    s.Closes .leave e s := by
  refine ⟨s, rfl, h, ?_, .silent he⟩
  unfold close
  rw [he]

theorem closes_stop {q : RunState M S} {t : Turn} {reason : Stop} (hsink : q.sink = s.sink)
    (hq : q.runner.Settled)
    (h : ∀ v, reason = .softwareInterrupt v →
      DeliveredAt s.cpu s.mem t (.softwareInterrupt v) q.cpu) :
    s.Closes t (q.stop reason).1 (q.stop reason).2 := by
  refine ⟨q, hsink, hq, q.stop_eq_close reason, ?_⟩
  by_cases hinterrupt : ∃ v, reason = .softwareInterrupt v
  · obtain ⟨v, rfl⟩ := hinterrupt
    exact h v rfl
  · exact .silent (q.event?_stop fun v hv => hinterrupt ⟨v, hv⟩)

/-! ## Single steps -/

theorem deliveredAt_interrupt {cpu : Cpu} {mem : M} {v : UInt8} {m : Machine M}
    (h : Exec.step ⟨cpu, mem, #[]⟩ = (.ok (.stop (.softwareInterrupt v)), m)) :
    DeliveredAt cpu mem .step (.softwareInterrupt v) m.cpu := by
  unfold Exec.step at h
  obtain ⟨i, m₁, hfetch, hrest⟩ := Exec.bind_ok.1 h
  rw [Exec.check_apply, Prod.mk.injEq] at hfetch
  obtain ⟨hfetch, rfl⟩ := hfetch
  obtain ⟨_, m₁, hrequire, hexecuted⟩ := Exec.bind_ok.1 hrest
  rw [Exec.require_apply, Prod.mk.injEq] at hrequire
  obtain ⟨-, rfl⟩ := hrequire
  obtain ⟨hvector, hcpu⟩ := Exec.execute_interrupt i hexecuted
  rw [hcpu]
  exact .stepInterrupt hfetch hvector

theorem singleStep_closes (h : s.runner.Settled) :
    s.Closes .step s.singleStep.1 s.singleStep.2 := by
  rcases hstep : Exec.step ⟨s.cpu, s.mem, #[]⟩ with ⟨result, m⟩
  obtain ⟨runner, hexecute, hrunner⟩ := execute_settled h hstep
  unfold singleStep
  rw [hexecute]
  obtain e | _ | _ | reason := result
  · refine ⟨⟨runner, m.cpu, m.mem, s.sink⟩, rfl, hrunner, rfl, ?_⟩
    have hcpu : m.cpu = s.cpu := Exec.conduct_step.transaction.fault hstep
    dsimp only
    rw [hcpu]
    exact .stepFault hstep
  · exact ⟨retire ⟨runner, m.cpu, m.mem, s.sink⟩ 1, rfl, ⟨hrunner.log, hrunner.blocks⟩, rfl,
      .silent rfl⟩
  · exact ⟨retire ⟨runner, m.cpu, m.mem, s.sink⟩ 1, rfl, ⟨hrunner.log, hrunner.blocks⟩, rfl,
      .silent rfl⟩
  · refine closes_stop (s := s) rfl ⟨hrunner.log, hrunner.blocks⟩ ?_
    rintro v rfl
    exact deliveredAt_interrupt hstep

/-! ## The next block and its replay -/

/-- The call that has ended the replay of a listed block, with RIP at its instruction. -/
theorem last_call {b : Block} {cpu : Cpu} {mem : M} (hb : b.Listed)
    (hwidth : b.flags.codeWidth = cpu.codeWidth) {result : Except ReplayFault ReplayEnd}
    {m : Machine M} (hreplay : b.replay ⟨cpu, mem, #[]⟩ = (result, m))
    {x : Except Exception Outcome} (hx : ReplayEnd.answer? result = some x) :
    ∃ pre call m₁, b.ranCalls b.calls ⟨cpu, mem, #[]⟩ = pre ++ [call] ∧
      pre ++ [call] <+: b.calls ∧ CallsProceed pre ⟨cpu, mem, #[]⟩ m₁ ∧
      m₁.cpu.rip = cpu.ripAt call.offset.toNat ∧ call.run m₁ = (x, m) := by
  rw [Block.replay] at hreplay
  obtain ⟨pre, call, m₁, hran, hpre, hcall⟩ := replayCalls_answer b b.calls 0 ⟨cpu, mem, #[]⟩
    (x := x) (by rwa [hreplay])
  rw [hreplay] at hcall
  have hprefix : pre ++ [call] <+: b.calls := hran ▸ b.ranCalls_prefix b.calls ⟨cpu, mem, #[]⟩
  exact ⟨pre, call, m₁, hran, hprefix, hpre, hb.ripAt (m := ⟨cpu, mem, #[]⟩) hwidth hprefix hpre,
    hcall⟩

/-- A replay delivers nothing, or is the last turn. -/
theorem replayBlock_closes {b : Block} (h : s.runner.Settled) (hb : b.Listed)
    (hwidth : b.flags.codeWidth = s.cpu.codeWidth) :
    match s.replayBlock b with
    | (some e, s') => s.Closes (.replay b (b.ranCalls b.calls ⟨s.cpu, s.mem, #[]⟩)) e s'
    | (none, s') => s'.runner.Settled ∧ s'.sink = s.sink := by
  rcases hreplay : b.replay ⟨s.cpu, s.mem, #[]⟩ with ⟨result, m⟩
  have hcounted : (s.modifyStats fun t => { t with
      blocksExecuted := t.blocksExecuted + 1 }).runner.Settled := ⟨h.log, h.blocks⟩
  obtain ⟨runner, hexecute, hrunner⟩ := execute_settled hcounted hreplay
  unfold replayBlock
  dsimp only
  rw [hexecute]
  obtain f | ⟨_ | _ | _ | reason, n⟩ := result
  · obtain ⟨pre, call, m₁, hran, hprefix, hpre, hrip, hcall⟩ := last_call hb hwidth hreplay rfl
    refine ⟨retire ⟨runner, m.cpu, m.mem, s.sink⟩ f.instructions, rfl,
      ⟨hrunner.log, hrunner.blocks⟩, rfl, ?_⟩
    have hcpu : m.cpu = m₁.cpu := call.defers_run.transaction.fault hcall
    show DeliveredAt s.cpu s.mem _ (.exception f.exception) m.cpu
    rw [hran, hcpu]
    exact .replayFault hprefix hpre hrip hcall
  · exact ⟨⟨hrunner.log, hrunner.blocks⟩, rfl⟩
  · exact ⟨⟨hrunner.log, hrunner.blocks⟩, rfl⟩
  · exact ⟨⟨hrunner.log, hrunner.blocks⟩, rfl⟩
  · refine closes_stop (s := s) rfl ⟨hrunner.log, hrunner.blocks⟩ ?_
    rintro v rfl
    obtain ⟨pre, call, m₁, hran, hprefix, hpre, hrip, hcall⟩ := last_call hb hwidth hreplay rfl
    obtain ⟨i, -, hdecode, hvector, hcpu⟩ := call.run_interrupt hcall
    show DeliveredAt s.cpu s.mem _ (.softwareInterrupt v) m.cpu
    rw [hran, hcpu]
    exact .replayInterrupt hprefix hpre hrip hdecode hvector

theorem failCompile_closes (h : s.runner.Settled) {f : CompileFault} (hf : f.pc = s.cpu.linearPc) :
    s.Closes .leave (s.failCompile f).1 (s.failCompile f).2 :=
  ⟨s.modifyStats fun t => { t with compileFaults := t.compileFaults + 1 }, rfl,
    ⟨h.log, h.blocks⟩, rfl, .compileFault hf⟩

/-- The way to the next block delivers nothing, or is the last turn. -/
theorem nextBlock_closes (h : s.runner.Settled) (hready : s.runner.Ready config) :
    match s.nextBlock with
    | (.exit e, s') => s.Closes .leave e s'
    | (.block b, s') => s.Settles s' ∧ s.Plays b
    | (.again, _) => False := by
  have hresolved : s.Settles s.resolved := ⟨s.waits_resolved, rfl, h.log, h.blocks⟩
  have hready₁ : s.resolved.runner.Ready config :=
    ⟨hready.settings, hready.valid, hready.linked, hready.calls,
      (FetchStream.kept_wellFormed s.cpu s.mem).resolve s.runner.fetch s.cpu.linearPc hready.fetch⟩
  have hcached (physPc : UInt64) := cachedBlock_settles hresolved.settled physPc
  have hsearched (physPc : UInt64) := hresolved.trans (hcached physPc).1
  have hcompiled (physPc : UInt64) :=
    compiledBlock_settles (hsearched physPc).settled (ready_cachedBlock hready₁ physPc).2.1
  -- The states on the way only wait, so a fault is delivered as if it came from `s` itself.
  have hcases := s.nextBlock_cases
  generalize s.nextBlock = r at hcases ⊢
  cases hcases with
  | unresolved => exact hresolved.closes (failCompile_closes hresolved.settled rfl)
  | @cached physPc b _ hfound =>
    have hplays := (hcached physPc).2 b hfound
    exact ⟨hsearched physPc, hplays.listed, hplays.width⟩
  | @fault physPc f _ _ hf =>
    obtain ⟨hsettles, hpc⟩ := hcompiled physPc
    rw [hf] at hpc
    refine ((hsearched physPc).trans hsettles).closes (failCompile_closes hsettles.settled ?_)
    exact hpc.trans (by rw [hsettles.waits.cpu])
  | @lost physPc _ _ hlost =>
    obtain ⟨-, hfound⟩ := hcompiled physPc
    rw [hlost] at hfound
    obtain ⟨b, hb, -⟩ := hfound
    cases hb
  | @compiled physPc b _ _ hb =>
    obtain ⟨hsettles, hfound⟩ := hcompiled physPc
    rw [hb] at hfound
    obtain ⟨b', hb', hplays⟩ := hfound
    obtain rfl := Option.some.inj hb'
    exact ⟨(hsearched physPc).trans hsettles, hplays.listed,
      hplays.width.trans (by rw [(hsearched physPc).waits.cpu])⟩

/-! ## Turns -/

/-- **A turn delivers nothing, or is the last one.** -/
theorem turn_closes (h : s.runner.Settled) (hready : s.runner.Ready config) {blocks : Nat} {t : Turn}
    {e : Option RunExit} (hturn : s.turn? blocks = some (t, e, s')) :
    match e with
    | some e => s.Closes t e s'
    | none => s'.runner.Settled ∧ s'.sink = s.sink := by
  unfold turn? at hturn
  split_ifs at hturn
  · cases hturn
    exact closes_idle h rfl
  · cases hturn
    exact closes_idle h rfl
  · cases hturn
    exact closes_idle h rfl
  · rw [(ready_singleStep hready).1] at hturn
    cases hturn
    exact singleStep_closes h
  · obtain ⟨hchecked, hready₁, -⟩ := ready_nextBlock hready
    have hnext := nextBlock_closes h hready
    rw [hchecked, Option.bind_some] at hturn
    generalize s.nextBlock = next at hturn hnext hready₁
    obtain ⟨e' | b | _, s₁⟩ := next
    · cases hturn
      exact hnext
    · obtain ⟨hs₁, hb⟩ := hnext
      have hreplay := replayBlock_closes hs₁.settled hb.listed (hb.width.trans (by
        rw [hs₁.waits.cpu]))
      dsimp only at hturn
      rw [(ready_replayBlock hready₁ b).1, hs₁.settled.log] at hturn
      generalize s₁.replayBlock b = replayed at hreplay hturn
      obtain ⟨e' | e', s₂⟩ := replayed
      · cases hturn
        exact ⟨hreplay.1, hreplay.2.trans hs₁.sink⟩
      · cases hturn
        exact hs₁.closes hreplay
    · exact hnext.elim

/-! ## Runs -/

/-- Turns, none of which was the last one, have led from one state to another. The numbers are those
    of the blocks replayed. -/
inductive Comes : Nat → RunState M S → Nat → RunState M S → Prop
  | refl (blocks : Nat) (s : RunState M S) : Comes blocks s blocks s
  | next {blocks blocks' : Nat} {s s₁ p : RunState M S} {t : Turn} :
      s.turn? blocks = some (t, none, s₁) → Comes (blocks + t.blocks) s₁ blocks' p →
      Comes blocks s blocks' p

/-- **Only the last turn of a run delivers an event.** -/
theorem Runs.closes {blocks : Nat} {ts : List Turn} {result : RunExit × RunState M S}
    (hruns : Runs blocks s ts result) (h : s.runner.Settled) (hready : s.runner.Ready config) :
    ∃ blocks' p t, Comes blocks s blocks' p ∧
      p.turn? blocks' = some (t, some result.1, result.2) ∧ p.sink = s.sink ∧
      p.Closes t result.1 result.2 := by
  induction hruns with
  | @last blocks s s' t e hturn =>
    exact ⟨blocks, s, t, .refl blocks s, hturn, rfl, turn_closes h hready hturn⟩
  | @more blocks s s' t ts result hturn _ ih =>
    obtain ⟨hsettled, hsink⟩ := turn_closes h hready hturn
    obtain ⟨t', e', s'', hturn', hturned, -⟩ := ready_turn hready blocks
    rw [hturn] at hturn'
    cases hturn'
    obtain ⟨blocks', p, tlast, hcomes, hlast, hp, hcloses⟩ := ih hsettled hturned.ready
    exact ⟨blocks', p, tlast, .next hturn hcomes, hlast, hp.trans hsink, hcloses⟩

end RunState

namespace Runner

/-- **Reachable runners are settled.** -/
theorem Reachable.settled {r : Runner} (h : r.Reachable) : r.Settled := by
  induction h with
  | new hnew => exact settled_ofConfig? hnew
  | run s hs ih =>
    obtain ⟨-, ts, hruns, -⟩ := RunState.ready_loop hs.ready (Nat.zero_le _)
      (show s.runner.config.maxBlocks < 0 + (s.runner.config.maxBlocks + 1) by omega)
    obtain ⟨_, _, _, -, -, -, hcloses⟩ := hruns.closes ih hs.ready
    exact hcloses.settled
  | flush _ ih => exact ⟨ih.log, .flush _⟩
  | notifyWrite start n _ ih => exact ih.notifyWrite start n

end Runner

/-- **Events are delivered once, and match the exit.** A run goes through turns that deliver nothing
    and a last one, after which it delivers the event that goes with its exit, if there is one: an
    exception for an exception or a block that could not be compiled, an interrupt for a software
    interrupt. Then the log is empty, and RIP is that of the instruction that has faulted or of the
    block, or past the instruction that interrupts. -/
theorem run_delivers [EventSink S] (s : RunState M S) (h : s.runner.Reachable) :
    ∃ blocks p t q, RunState.Comes 0 s blocks p ∧
      p.turn? blocks = some (t, some s.run.1, s.run.2) ∧
      q.sink = s.sink ∧ q.runner.log = #[] ∧ s.run.2 = RunState.close q s.run.1 ∧
      s.run.2.runner.log = #[] ∧ RunState.DeliveredAt p.cpu p.mem t s.run.1 q.cpu ∧
      ∀ given : S → List Event, EventSink.Notes given →
        (∀ x, given s.run.2.sink = given s.sink ++ [.exception x] ↔
          s.run.1 = .exception x ∨ ∃ pc, s.run.1 = .compileFault ⟨pc, x⟩) ∧
        (∀ v, given s.run.2.sink = given s.sink ++ [.interrupt v] ↔
          s.run.1 = .softwareInterrupt v) ∧
        (given s.run.2.sink = given s.sink ↔ s.run.1.event? = none) := by
  obtain ⟨-, ts, hruns, -⟩ := RunState.ready_loop h.ready (Nat.zero_le _)
    (show s.runner.config.maxBlocks < 0 + (s.runner.config.maxBlocks + 1) by omega)
  obtain ⟨blocks, p, t, hcomes, hlast, hp, q, hq, hsettled, hclose, hat⟩ :=
    hruns.closes h.settled h.ready
  change s.run.2 = RunState.close q s.run.1 at hclose
  refine ⟨blocks, p, t, q, hcomes, hlast, hq.trans hp, hsettled.log, hclose, ?_, hat,
    fun given hgiven => ?_⟩
  · rw [hclose, RunState.runner_close]
    exact hsettled.log
  · have hsink : given s.run.2.sink = given s.sink ++ s.run.1.event?.toList := by
      rw [hclose, RunState.given_close hgiven, hq, hp]
    rw [hsink]
    refine ⟨fun x => ?_, fun v => ?_, ?_⟩
    · rw [List.append_right_inj, Option.toList_eq_singleton_iff, RunExit.event?_eq_exception]
    · rw [List.append_right_inj, Option.toList_eq_singleton_iff, RunExit.event?_eq_interrupt]
    · rw [List.append_right_eq_self, Option.toList_eq_nil_iff]

/-- A list of events is a receiver that leaves the processor alone. -/
instance : EventSink (List Event) where
  deliver events cpu e := (events ++ [e], cpu)

/-- An `INT` after an `INC`, of which only the interrupt is delivered. -/
theorem run_delivers_int :
    ∃ (r : Runner) (s : RunState FlatMemory (List Event)),
      Runner.ofConfig? { maxBlocks := 3, cacheCapacity := 1, hashBits := 1 } = .ok r ∧
      s = ⟨r, Cpu.flat32, (FlatMemory.zeros 64).load 0 [0x40, 0xCD, 0x21], []⟩ ∧
      s.run.1 = .softwareInterrupt 0x21 ∧ s.run.2.cpu.rip = 3 ∧
      s.run.2.sink = [.interrupt 0x21] ∧ s.run.2.runner.log = #[] := by
  obtain ⟨s, hs⟩ : ∃ s : RunState FlatMemory (List Event),
      s = ⟨{ config := { maxBlocks := 3, cacheCapacity := 1, hashBits := 1 }, cache := .empty 1 1 },
        Cpu.flat32, (FlatMemory.zeros 64).load 0 [0x40, 0xCD, 0x21], []⟩ := ⟨_, rfl⟩
  have hexit : s.run.1 = .softwareInterrupt 0x21 ∧ s.run.2.cpu.rip = 3 := by
    rw [hs]
    decide +kernel
  have hreachable : s.runner.Reachable := by
    rw [hs]
    exact .new (show Runner.ofConfig? { maxBlocks := 3, cacheCapacity := 1, hashBits := 1 } = .ok _
      from rfl)
  obtain ⟨blocks, p, t, q, -, -, -, -, -, hlog, -, hgiven⟩ := run_delivers s hreachable
  refine ⟨_, s, rfl, hs, hexit.1, hexit.2, ?_, hlog⟩
  have hsink := ((hgiven id fun _ _ _ => rfl).2.1 0x21).2 hexit.1
  rw [hs] at hsink ⊢
  exact hsink

end X86Replay

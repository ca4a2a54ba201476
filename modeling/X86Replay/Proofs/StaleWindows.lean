import X86Replay.Proofs.Recompiling
import X86Replay.Proofs.Starts

/-!
# Windows on pages that are gone

A fetch window keeps serving its page after the page has been unmapped, until it is lost to another
one. Code at the end of the page that goes on on the next one loses it.

* `CutAtPageEnd`: what is left of the page of CS:RIP does not decide.
* `Shows.readNear_ok`: the window shows these bytes, be the page gone or not.
* `Shows.compileBlock_missing`: if the next page is not mapped, no block is made, and the window is
  lost.
* `Shows.exists_compileBlock`: if it is mapped, a block is made.
* `run_missing`, `run_unmapped`, `run_ne_compileFault`: what a run does in these cases. `loss_shows`:
  so the loss of a window shows in the next run.
-/

namespace X86Replay

open CompileContext

variable {mem : FlatMemory} {cpu : Cpu} {s : FetchStream} {pages : UInt64 → Prop} {next : UInt64}
  {flags : ModeFlags} {x : Exception}

/-- The bytes from CS:RIP to the end of its page do not decide what the instruction is. -/
def CutAtPageEnd (cpu : Cpu) (mem : FlatMemory) : Prop :=
  ∀ near, near.length = nearRoom cpu.linearPc → HoldsBytes mem cpu.linearPc.toNat near →
    decode cpu.codeWidth near = .error .unexpectedEnd

/-- So it is with the last byte of a page if that is a prefix. -/
theorem cutAtPageEnd_of_byte {byte : UInt8} (hplace : cpu.linearPc.toNat % 4096 = 4095)
    (hbyte : mem.bytes[cpu.linearPc.toNat]? = some byte)
    (hdecode : decode cpu.codeWidth [byte] = .error .unexpectedEnd) : CutAtPageEnd cpu mem := by
  intro near hlength hholds
  have hroom : nearRoom cpu.linearPc = 1 := by
    rw [nearRoom, hplace]
    rfl
  rw [hroom] at hlength
  obtain ⟨b, rfl⟩ := List.length_eq_one_iff.1 hlength
  have hb := (hholds 0 b rfl).getElem?
  rw [Nat.add_zero] at hb
  cases hb.symm.trans hbyte
  exact hdecode

/-! ## Compiling -/

namespace FetchStream.Shows

/-- The window shows the bytes of its page, be that mapped or not. -/
theorem readNear_ok (h : s.Shows pages mem) (hon : s.IsOn cpu cpu.linearPc)
    (hinside : (pageOf cpu.linearPc).toNat + 4096 ≤ mem.bytes.size) (width : CodeWidth) :
    ∃ near t, readNear s mem width cpu.linearPc = (.ok ⟨near, decode width near, none⟩, t) ∧
      t.IsOn cpu cpu.linearPc ∧ near.length = nearRoom cpu.linearPc ∧
      HoldsBytes mem cpu.linearPc.toNat near := by
  have hkept := (readNear_twin_flat width (hon.twin mem)).2.isOn
  obtain ⟨w, hw, hwindow⟩ := hon
  have hpage := mapForFetch_map_self
    (show (pageOf cpu.linearPc).toNat < mem.bytes.size by omega) cpu.cpl
  have hmod := mapForFetch_mod hpage
  have hplace : (pageOf cpu.linearPc ||| pageOffset cpu.linearPc) = cpu.linearPc := by
    rw [or_pageOffset hmod, pageOf_add_pageOffset]
  have hpageNat := toNat_pageOf cpu.linearPc
  obtain ⟨near, hread⟩ := (readBytes_flat_iff (mem.map cpu.linearPc)
    (pageOf cpu.linearPc ||| pageOffset cpu.linearPc) (nearRoom cpu.linearPc)).2 (by
      rw [hplace]
      show _ ≤ mem.bytes.size
      unfold nearRoom
      omega)
  obtain ⟨⟨-, hover⟩, -⟩ | ⟨-, t, hnear, -⟩ := readNear_flat
    ⟨w, hw, (h w hw).current_map hwindow, hwindow⟩ hpage hread width
  · have htarget := FetchWindow.target_le_page (nearEnd cpu)
    change mem.bytes.size < _ at hover
    omega
  · have hholds := HoldsBytes.of_read hread
    rw [hplace] at hholds
    have hbytes : (mem.map cpu.linearPc).bytes = mem.bytes := rfl
    rw [readNear_remap hbytes] at hnear
    rw [hnear] at hkept
    exact ⟨near, t, hnear, hkept, length_readBytes hread, hholds⟩

/-- **Code that goes on on a page that is not mapped is not compiled, and the window is lost.** -/
theorem compileBlock_missing (h : s.Shows pages mem) (hon : s.IsOn cpu cpu.linearPc)
    (hinside : (pageOf cpu.linearPc).toNat + 4096 ≤ mem.bytes.size)
    (hcut : CutAtPageEnd cpu mem)
    (hnext : mapForFetch mem (nextPage cpu.linearPc) cpu.cpl = .error x)
    (hwidth : flags.codeWidth = cpu.codeWidth) (config : Config) :
    ∃ t, compileBlock cpu mem s flags config = (.error ⟨cpu.linearPc, x⟩, t) ∧
      t.window = none := by
  obtain ⟨w, hw, hwindow⟩ := hon
  obtain ⟨near, t, hnear, ⟨v, hv, hlost⟩, hlength, hholds⟩ :=
    readNear_ok (s := { s with hits := s.hits + 1 }) h ⟨w, hw, hwindow⟩ hinside cpu.codeWidth
  have hmiss : t.window.filter (·.covers cpu (nextPage cpu.linearPc)) = none := by
    rw [hv, Option.filter_some, hlost.covers_nextPage]
    rfl
  have hisCut : Encoding.isCut ⟨near, decode cpu.codeWidth near, none⟩ :=
    (CompileContext.isCut_iff _ _).2 (hcut near hlength hholds)
  have hstart : start ⟨cpu, flags, config⟩ = cpu.linearPc := start_eq hwidth
  have hpc (d : Draft) (hd : d.size = 0) : pc ⟨cpu, flags, config⟩ d = cpu.linearPc := by
    rw [pc_eq, hd, pcAt_zero, hstart]
  unfold compileBlock firstStep
  dsimp only
  rw [resolve_of_covers hw hwindow.covers]
  dsimp only
  rw [hpc _ rfl, show width ⟨cpu, flags, config⟩ = cpu.codeWidth from hwidth, hnear]
  dsimp only
  rw [if_pos hisCut]
  unfold readFar
  rw [resolve_of_missing hmiss, hnext]
  dsimp only
  rw [extend_fault]
  exact ⟨_, rfl, rfl⟩

/-- **Code that goes on on a mapped page is compiled**, even if its first page is gone. -/
theorem exists_compileBlock (h : s.Shows pages mem) (hon : s.IsOn cpu cpu.linearPc)
    (hinside : (pageOf cpu.linearPc).toNat < mem.bytes.size)
    (hsize : mem.bytes.size + 4096 ≤ 2 ^ 64)
    (hnext : mapForFetch mem (nextPage cpu.linearPc) cpu.cpl = .ok next)
    (hchunk : (nextPage cpu.linearPc).toNat + fetchChunk ≤ mem.bytes.size)
    (hwidth : flags.codeWidth = cpu.codeWidth) (config : Config) :
    ∃ b t, compileBlock cpu mem s flags config = (.ok b, t) := by
  obtain ⟨hcurrent, hsame⟩ := h.compileBlock_map hon hwidth config
  rw [← mapForFetch_map mem (pageOf_nextPage_ne cpu.linearPc)] at hnext
  obtain ⟨bytes, hfetchable⟩ := exists_fetchable (mapForFetch_map_self hinside _) hnext hsize hchunk
  obtain ⟨b, t, -, -, -, hcompile, -⟩ := hfetchable.exists_makes config hwidth hcurrent
  exact ⟨b, t, hsame ▸ hcompile⟩

end FetchStream.Shows

/-! ## Runs -/

namespace RunState

variable {S : Type} {s t : RunState FlatMemory S} {fetch : FetchStream} {b : Block}
  {f : CompileFault}

theorem compiledBlock_error (h : compileBlock s.cpu s.mem s.runner.fetch s.flags s.runner.config =
    (.error f, fetch)) : s.compiledBlock = (.error f, { s with runner.fetch := fetch }) := by
  unfold compiledBlock
  rw [h]

/-- Replaying a block leaves the settings alone. -/
theorem config_replayBlock [EventSink S] (h : s.runner.Knows pages s.mem)
    (hb : Logs (b.replay (M := FlatMemory))) :
    (s.replayBlock b).2.runner.config = s.runner.config := by
  rcases hreplay : b.replay ⟨s.cpu, s.mem, #[]⟩ with ⟨r, m⟩
  obtain ⟨runner, hexecute, -, hconfig, -⟩ := execute_knows
    (s := s.modifyStats fun t => { t with blocksExecuted := t.blocksExecuted + 1 }) hb
    (h.withStats _) hreplay
  unfold replayBlock
  dsimp only
  rw [hexecute]
  obtain f | ⟨_ | _ | _ | reason, n⟩ := r
  · exact hconfig
  · exact hconfig
  · exact hconfig
  · exact hconfig
  · cases reason <;> exact hconfig

variable [EventSink S]

theorem stop_ne_compileFault (s : RunState FlatMemory S) (reason : Stop) :
    (s.stop reason).1 ≠ .compileFault f := by
  cases reason <;> exact fun h => nomatch h

/-- No run ends with a compile fault before it looks for a block. -/
theorem exitBefore_ne_compileFault {blocks : Nat} {result : RunExit × RunState FlatMemory S}
    (h : s.exitBefore blocks = some result) : result.1 ≠ .compileFault f := by
  have hstep : s.singleStep.1 ≠ .compileFault f := by
    unfold singleStep
    generalize s.execute (Exec.step (M := FlatMemory)) = r
    obtain ⟨x | _ | _ | reason, t⟩ := r
    · exact fun h => nomatch h
    · exact fun h => nomatch h
    · exact fun h => nomatch h
    · exact stop_ne_compileFault _ reason
  unfold exitBefore at h
  split_ifs at h <;> cases h
  · exact fun h => nomatch h
  · exact fun h => nomatch h
  · exact fun h => nomatch h
  · exact hstep

theorem replayBlock_ne_compileFault {e : RunExit} (h : s.replayBlock b = (some e, t)) :
    e ≠ .compileFault f := by
  unfold replayBlock at h
  dsimp only at h
  generalize (s.modifyStats fun t => { t with blocksExecuted := t.blocksExecuted + 1 }).execute
    (b.replay (M := FlatMemory)) = r at h
  obtain ⟨f' | ⟨_ | _ | _ | reason, n⟩, u⟩ := r
  · cases h
    exact fun h => nomatch h
  · cases h
  · cases h
  · cases h
  · cases h
    exact stop_ne_compileFault _ reason

/-- A run that cannot resolve CS:RIP fails. -/
theorem run_unmapped (hexit : s.exitBefore 0 = none)
    (hresolve : s.runner.fetch.resolve s.cpu s.mem s.cpu.linearPc = (.error x, fetch)) :
    s.run.1 = .compileFault ⟨s.cpu.linearPc, x⟩ := by
  rw [run, loop, hexit]
  dsimp only
  rw [nextBlock_unresolved hresolve]
  rfl

/-- **A run fails at code that goes on on a page that is not mapped**, and the window is lost. -/
theorem run_missing (hexit : s.exitBefore 0 = none)
    (hresolve : s.runner.fetch.resolve s.cpu s.mem s.cpu.linearPc = (.ok s.cpu.linearPc, fetch))
    (h : ({ s.runner with fetch } : Runner).Knows pages s.mem)
    (hon : fetch.IsOn s.cpu s.cpu.linearPc) (hnone : s.entryFor? s.cpu.linearPc = none)
    (hinside : (pageOf s.cpu.linearPc).toNat + 4096 ≤ s.mem.bytes.size)
    (hcut : CutAtPageEnd s.cpu s.mem)
    (hnext : mapForFetch s.mem (nextPage s.cpu.linearPc) s.cpu.cpl = .error x) :
    ∃ s', s.run = (.compileFault ⟨s.cpu.linearPc, x⟩, s') ∧ s'.executed = s.executed ∧
      s'.runner.config = s.runner.config ∧ s'.runner.fetch.window = none := by
  obtain ⟨cache, hcached, -⟩ :=
    cachedBlock_knows (s := { s with runner.fetch := fetch }) h s.cpu.linearPc
  change _ = ((s.entryFor? s.cpu.linearPc).map Prod.snd, _) at hcached
  rw [hnone] at hcached
  obtain ⟨lost, hcompile, hwindow⟩ := h.window.compileBlock_missing hon hinside hcut hnext
    (ModeFlags.codeWidth_ofCpu s.cpu s.runner.config.target s.runner.config.disregardLock)
    s.runner.config
  have hcompiled := compiledBlock_error
    (s := { s with runner.fetch := fetch, runner.cache := cache }) hcompile
  rw [run, loop, hexit]
  unfold nextBlock
  dsimp only
  rw [hresolve]
  dsimp only
  rw [hcached]
  dsimp only [Option.map_none]
  rw [hcompiled]
  exact ⟨_, rfl, rfl, rfl, hwindow⟩

/-- A run of one block at most does not fail if there is one. -/
theorem run_ne_compileFault (hmax : s.runner.config.maxBlocks = 1)
    (hexit : s.exitBefore 0 = none) (hnext : s.nextBlock = (.block b, t))
    (h : Seeks pages s t) (hlogs : Logs (b.replay (M := FlatMemory))) :
    s.run.1 ≠ .compileFault f := by
  have hknows : t.runner.Knows pages t.mem := h.mem.symm ▸ h.knows
  have hconfig := config_replayBlock hknows hlogs
  rw [run, hmax, loop, hexit]
  dsimp only
  rw [hnext]
  dsimp only
  rcases hreplay : t.replayBlock b with ⟨_ | e, u⟩
  · rw [hreplay, h.config] at hconfig
    obtain ⟨result, hlast⟩ : ∃ result, u.exitBefore (0 + 1) = some result := by
      unfold exitBefore
      rw [show u.runner.config = s.runner.config from hconfig, if_pos hmax.le]
      split_ifs <;> exact ⟨_, rfl⟩
    dsimp only
    rw [loop, hlast]
    exact exitBefore_ne_compileFault hlast
  · exact replayBlock_ne_compileFault hreplay

omit [EventSink S] in
theorem entryFor?_eq_none {physPc : UInt64} (h : ∀ e ∈ s.runner.cache.toList,
    e.2.isFor physPc s.flags (.ofCpu s.cpu) = false) : s.entryFor? physPc = none := by
  have hfind : s.runner.cache.toList.find? (·.2.isFor physPc s.flags (.ofCpu s.cpu)) = none :=
    List.find?_eq_none.2 fun e he => by
      rw [h e he]
      exact Bool.false_ne_true
  unfold entryFor?
  rw [hfind, Option.filter_none]

omit [EventSink S] in
/-- A window on the page of CS:RIP serves it. -/
theorem exists_resolve (h : s.runner.Knows pages s.mem)
    (hon : s.runner.fetch.IsOn s.cpu s.cpu.linearPc) :
    ∃ fetch, s.runner.fetch.resolve s.cpu s.mem s.cpu.linearPc = (.ok s.cpu.linearPc, fetch) ∧
      ({ s.runner with fetch } : Runner).Knows pages s.mem ∧ fetch.IsOn s.cpu s.cpu.linearPc := by
  obtain ⟨w, hw, hwindow⟩ := hon
  have hresolve : s.runner.fetch.resolve s.cpu s.mem s.cpu.linearPc = (_, _) :=
    FetchStream.resolve_of_covers hw hwindow.covers
  obtain ⟨hpc, -, hon⟩ := h.window.resolve_ok hresolve
  rw [hpc] at hresolve
  exact ⟨_, hresolve, h.withFetch h.window, hon⟩

/-- Whether a run ends before its first block depends on processor and settings. -/
theorem exitBefore_eq_none {T : Type} [EventSink T] {s' : RunState FlatMemory T} {blocks : Nat}
    (h : s.exitBefore blocks = none) (hcpu : s'.cpu = s.cpu)
    (hconfig : s'.runner.config = s.runner.config) : s'.exitBefore blocks = none := by
  unfold exitBefore at h ⊢
  rw [hcpu, hconfig]
  split_ifs at h ⊢
  rfl

/-- **What a failed run loses shows if the page of CS:RIP is gone.** If a window has served it, a run
    that fails at the next page loses this window. Were it not for that run, a block would be made
    once the next page is mapped; as it is, CS:RIP cannot be resolved. -/
theorem loss_shows {T : Type} [EventSink T] {mem : FlatMemory} {y : Exception}
    (h : s.runner.Knows (fun _ => True) s.mem) (hexit : s.exitBefore 0 = none)
    (hmax : s.runner.config.maxBlocks = 1) (hon : s.runner.fetch.IsOn s.cpu s.cpu.linearPc)
    (hother : ∀ e ∈ s.runner.cache.toList,
      e.2.isFor s.cpu.linearPc s.flags (.ofCpu s.cpu) = false)
    (hcut : CutAtPageEnd s.cpu s.mem)
    (hnext : mapForFetch s.mem (nextPage s.cpu.linearPc) s.cpu.cpl = .error x)
    (hbytes : mem.bytes = s.mem.bytes)
    (hgone : mapForFetch mem s.cpu.linearPc s.cpu.cpl = .error y)
    (hmapped : mapForFetch mem (nextPage s.cpu.linearPc) s.cpu.cpl = .ok next)
    (hchunk : (nextPage s.cpu.linearPc).toNat + fetchChunk ≤ mem.bytes.size) (sink : T) :
    ∃ s', s.run = (.compileFault ⟨s.cpu.linearPc, x⟩, s') ∧ s'.executed = s.executed ∧
      (run ⟨s'.runner, s.cpu, mem, sink⟩).1 = .compileFault ⟨s.cpu.linearPc, y⟩ ∧
      ∀ f, (run ⟨s.runner, s.cpu, mem, sink⟩).1 ≠ .compileFault f := by
  have hleft := h.remap hbytes
  obtain ⟨fetch, hresolve, hknows, hon₁⟩ := exists_resolve h hon
  obtain ⟨fetch', hresolve', hknows', hon₁'⟩ :=
    exists_resolve (s := ⟨s.runner, s.cpu, mem, sink⟩) hleft hon
  have hinside := (h.window.resolve_ok hresolve).2.1
  have hpageNat := toNat_pageOf s.cpu.linearPc
  have hnextNat := toNat_nextPage s.cpu.linearPc
  have hsize := h.size
  obtain ⟨s', hrun, hexecuted, hconfig, hwindow⟩ :=
    run_missing hexit hresolve hknows hon₁ (entryFor?_eq_none hother)
      (by rw [hbytes] at hchunk; omega) hcut hnext
  refine ⟨s', hrun, hexecuted, ?_, fun f => ?_⟩
  · have hmiss : s'.runner.fetch.window.filter (·.covers s.cpu s.cpu.linearPc) = none := by
      rw [hwindow, Option.filter_none]
    exact run_unmapped (s := ⟨s'.runner, s.cpu, mem, sink⟩)
      (exitBefore_eq_none hexit rfl hconfig)
      (by dsimp only; rw [FetchStream.resolve_of_missing hmiss, hgone])
  · obtain ⟨b, t, hcompile⟩ := hknows'.window.exists_compileBlock hon₁' (hbytes ▸ hinside)
      hleft.size hmapped hchunk (ModeFlags.codeWidth_ofCpu s.cpu s.runner.config.target
        s.runner.config.disregardLock) s.runner.config
    obtain ⟨_, _, he, -⟩ | ⟨-, ⟨_, _, hf, -⟩ | ⟨b', handle, u, -, hblock, hseeks, hlist⟩⟩ :=
      nextBlock_resolved (s := ⟨s.runner, s.cpu, mem, sink⟩) hresolve' hknows' hon₁'
    · cases (entryFor?_eq_none (s := ⟨s.runner, s.cpu, mem, sink⟩) hother).symm.trans he
    · cases (congrArg Prod.fst hcompile).symm.trans hf
    · exact run_ne_compileFault hmax (exitBefore_eq_none hexit rfl rfl) hblock hseeks
        (hseeks.logs_head hlist)

end RunState

end X86Replay

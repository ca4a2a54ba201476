import X86Replay.Proofs.StaleWindows

/-!
# Runs after a failed one

A run that fails to compile its first block has looked for it in the cache and has read code. That
does not show in the next run, if the page of CS:RIP is mapped then.

* `RunState.run_compileFault`: what such a run has done. `RunState.not_current_of_isFor`: if it has
  removed a block, the second page of that was not where it had been.
* `RunState.turnsAlike_of_eq`, `RunState.turnsAlike_of_dropped`: if the page of CS:RIP is mapped, the
  first turn of the next run is as if the block were still there.
* `compileFault_leaves_nothing`: the failed run leaves nothing behind.
* `compileFault_leaves_no_window`: if the page of CS:RIP is gone too, it does.
-/

namespace X86Replay

/-- Once CS:RIP has been resolved on a mapped page, the window is on a mapped page. -/
theorem Runner.Knows.resolve_mapped {r : Runner} {pages : UInt64 → Prop} {mem : FlatMemory}
    {cpu : Cpu} {page : UInt64} (h : r.Knows pages mem)
    (hpage : mapForFetch mem cpu.linearPc cpu.cpl = .ok page) :
    ∃ t, r.fetch.resolve cpu mem cpu.linearPc = (.ok cpu.linearPc, t) ∧
      t.IsOn cpu cpu.linearPc ∧ ({ r with fetch := t } : Runner).Knows (MapsCode mem) mem := by
  obtain ⟨t, hresolve, hon, ht⟩ := h.window.resolve_mapped hpage
  exact ⟨t, hresolve, hon, h.size, fun _ _ _ hmapped => (mapsCode_iff.1 hmapped).2, h.log, h.capacity,
    h.linked, h.blocks, ht⟩

namespace RunState

variable {S : Type} {s s' : RunState FlatMemory S} {pages : UInt64 → Prop} {f : CompileFault}
  {r' : Runner} {page : UInt64} {x : Handle × Block}

/-! ## Runs that fail -/

/-- A block that is not current has a second page, which is mapped elsewhere now or not at all. -/
theorem exists_secondPage {b : Block} (h : s.secondPageIsCurrent b = false) :
    ∃ page, b.secondPage? = some page ∧
      mapForFetch s.mem (nextPage s.cpu.linearPc) s.cpu.cpl ≠ .ok page := by
  unfold secondPageIsCurrent at h
  cases hsecond : b.secondPage? with
  | none =>
    rw [hsecond] at h
    cases h
  | some page =>
    refine ⟨page, rfl, fun hmapped => ?_⟩
    rw [mapForFetch, pageOf_eq_self (CompileContext.nextPage_mod s.cpu.linearPc)] at hmapped
    rw [hsecond] at h
    dsimp only at h
    cases htranslate : translate s.mem (nextPage s.cpu.linearPc) .execute s.cpu.cpl with
    | error e =>
      rw [htranslate] at hmapped
      cases hmapped
    | ok a =>
      rw [htranslate] at h hmapped
      dsimp only at h
      rw [Except.ok.inj hmapped, beq_self_eq_true] at h
      cases h

/-- Only one cached block is found for a physical address. -/
theorem find?_eq_some (h : s.runner.Knows pages s.mem) (hx : x ∈ s.runner.cache.toList)
    {physPc : UInt64} (hfor : x.2.isFor physPc s.flags (.ofCpu s.cpu)) :
    s.runner.cache.toList.find? (·.2.isFor physPc s.flags (.ofCpu s.cpu)) = some x := by
  obtain ⟨order, hlinked⟩ := h.linked
  rw [hlinked.toList_eq] at hx ⊢
  obtain ⟨hblock, hhandle⟩ := hlinked.mem_listed.1 hx
  rw [hlinked.find?_isFor hblock hfor, hhandle]

theorem entryFor?_some {physPc : UInt64} (h : s.entryFor? physPc = some x) :
    x ∈ s.runner.cache.toList ∧ x.2.isFor physPc s.flags (.ofCpu s.cpu) ∧
      s.secondPageIsCurrent x.2 := by
  obtain ⟨hfind, hcurrent⟩ := Option.filter_eq_some_iff.1 h
  exact ⟨List.mem_of_find?_eq_some hfind, by simpa using List.find?_some hfind, hcurrent⟩

/-- A cached block that is found for CS:RIP but not used is not current. -/
theorem not_current_of_isFor (h : s.runner.Knows pages s.mem) (hx : x ∈ s.runner.cache.toList)
    {physPc : UInt64} (hfor : x.2.isFor physPc s.flags (.ofCpu s.cpu))
    (hnone : s.entryFor? physPc = none) : s.secondPageIsCurrent x.2 = false := by
  unfold entryFor? at hnone
  rw [find?_eq_some h hx hfor, Option.filter_some] at hnone
  split_ifs at hnone with hcurrent
  exact Bool.eq_false_iff.2 hcurrent

/-- A runner that holds the blocks for other code has none for this code, and all others. -/
theorem entries_of_dropped (hconfig : r'.config = s.runner.config) {physPc : UInt64}
    (hlist : r'.cache.toList = s.otherEntries physPc) :
    entryFor? { s with runner := r' } physPc = none ∧
      otherEntries { s with runner := r' } physPc = s.otherEntries physPc := by
  have hflags : flags { s with runner := r' } = s.flags :=
    Agrees.flags_eq (s := s) ⟨rfl, rfl, rfl⟩ hconfig
  refine ⟨entryFor?_eq_none fun e he => ?_, ?_⟩
  · have hother : e ∈ s.otherEntries physPc := hlist ▸ he
    rw [hflags, ← Bool.not_eq_true']
    exact (List.mem_filter.1 hother).2
  · unfold otherEntries
    rw [hflags, hlist, otherEntries, List.filter_filter]
    simp only [Bool.and_self]

variable [EventSink S]

/-- **A run that fails to compile its first block** has looked for it, and removed a block at most
    that is not current. -/
theorem run_compileFault (h : s.runner.Knows pages s.mem) (hrun : s.run = (.compileFault f, s'))
    (hexecuted : s'.executed = s.executed) :
    ∃ s₁, s' = (s₁.failCompile f).2 ∧ Seeks pages s s₁ ∧
      (s₁.runner.cache.toList = s.runner.cache.toList ∨ s.entryFor? s.cpu.linearPc = none ∧
        s₁.runner.cache.toList = s.otherEntries s.cpu.linearPc) := by
  rw [run, loop] at hrun
  rcases hexit : s.exitBefore 0 with _ | result
  · rw [hexit] at hrun
    dsimp only at hrun
    obtain ⟨f', s₁, hnext, hseeks, hlist⟩ | ⟨b, s₁, hnext, -⟩ := nextBlock_knows h
    · rw [hnext] at hrun
      cases hrun
      exact ⟨s₁, rfl, hseeks, hlist⟩
    · -- A block that has been replayed has been counted.
      have hcount := executed_nextBlock s
      have hreplay := executed_replayBlock s₁ b
      rw [hnext] at hrun hcount
      dsimp only at hrun hcount
      generalize s₁.replayBlock b = result at hrun hreplay
      obtain ⟨_ | e, s₂⟩ := result
      · have hloop := executed_loop s.runner.config.maxBlocks (0 + 1) s₂
        dsimp only at hrun hreplay
        rw [hrun] at hloop
        dsimp only at hloop
        omega
      · cases hrun
        dsimp only at hreplay
        omega
  · rw [hexit] at hrun
    exact absurd (congrArg Prod.fst hrun) (exitBefore_ne_compileFault hexit)

/-! ## The next run -/

/-- With the same cached blocks the next turn is the same, if the page of CS:RIP is mapped. -/
theorem turnsAlike_of_eq (h : s.runner.Knows pages s.mem) (h' : r'.Knows pages s.mem)
    (hconfig : r'.config = s.runner.config)
    (hpage : mapForFetch s.mem s.cpu.linearPc s.cpu.cpl = .ok page)
    (hlist : r'.cache.toList = s.runner.cache.toList) :
    TurnsAlike s { s with runner := r' } := by
  obtain ⟨t, hresolve, hon, ht⟩ := h.resolve_mapped hpage
  obtain ⟨t', hresolve', hon', ht'⟩ := h'.resolve_mapped hpage
  have hagrees : Agrees s { s with runner := r' } := ⟨rfl, rfl, rfl⟩
  have hmatch : ListsMatch s.runner.cache.toList r'.cache.toList := hlist ▸ .refl _
  exact turnsAlike hconfig hpage hresolve hresolve' ht ht' hon hon'
    (hagrees.entryFor? hconfig hmatch _) (hagrees.otherEntries hconfig hmatch _)

/-- With the block for this code removed the next turn is the same too, if that block has a second
    page: it is compiled again. -/
theorem turnsAlike_of_dropped (h : s.runner.Knows pages s.mem) (h' : r'.Knows pages s.mem)
    (hconfig : r'.config = s.runner.config)
    (hpage : mapForFetch s.mem s.cpu.linearPc s.cpu.cpl = .ok page)
    (hlist : r'.cache.toList = s.otherEntries s.cpu.linearPc)
    (hsecond : ∀ e, s.entryFor? s.cpu.linearPc = some e → e.2.secondPage?.isSome) :
    TurnsAlike s { s with runner := r' } := by
  obtain ⟨t, hresolve, hon, ht⟩ := h.resolve_mapped hpage
  obtain ⟨t', hresolve', hon', ht'⟩ := h'.resolve_mapped hpage
  obtain ⟨hnone, hothers⟩ := entries_of_dropped hconfig hlist
  cases hentry : s.entryFor? s.cpu.linearPc with
  | none =>
    refine turnsAlike hconfig hpage hresolve hresolve' ht ht' hon hon' ?_ (hothers ▸ .refl _)
    rw [hentry, hnone]
    exact .none
  | some e =>
    obtain ⟨hmem, hfor, hcurrent⟩ := entryFor?_some hentry
    obtain ⟨next, hsome⟩ := Option.isSome_iff_exists.1 (hsecond e hentry)
    obtain ⟨b', hcompile, hmatch⟩ := (h.stored hmem).recompile (hsecond e hentry) hfor hpage
      (mapForFetch_of_secondPageIsCurrent hcurrent next hsome) h.size ht'.window
    have hflags : flags { s with runner := r' } = s.flags :=
      Agrees.flags_eq (s := s) ⟨rfl, rfl, rfl⟩ hconfig
    change (compileBlock s.cpu s.mem t' s.flags s.runner.config).1 = .ok b' at hcompile
    rw [← hflags, ← hconfig] at hcompile
    obtain ⟨e₁, u, h₁, hnext, hu, hfront⟩ | ⟨h₁, -⟩ := nextBlock_resolved hresolve ht hon
    rotate_left
    · rw [hentry] at h₁
      cases h₁
    rw [hentry] at h₁
    cases h₁
    obtain ⟨_, _, h₂, -⟩ | ⟨-, ⟨_, _, hf, -⟩ | ⟨b, handle, u', hb, hnext', hu', hfront'⟩⟩ :=
      nextBlock_resolved (s := { s with runner := r' }) hresolve' ht' hon'
    · rw [hnone] at h₂
      cases h₂
    · cases hcompile.symm.trans hf
    cases hcompile.symm.trans hb
    -- There is room for the compiled block where the other one was.
    have hroom := hu.knows.length_le
    rw [hfront, List.length_cons, hu.knows.capacity, hu.config] at hroom
    have hcapacity := h'.capacity
    rw [hconfig] at hcapacity
    have hfor' : b'.isFor s.cpu.linearPc s.flags (.ofCpu s.cpu) := hmatch.isFor_eq.trans hfor
    have hkept : (s.otherEntries s.cpu.linearPc).filter
        (fun x => !x.2.isFor b'.physPc b'.flags b'.identity) = s.otherEntries s.cpu.linearPc := by
      refine List.filter_eq_self.2 fun x hx => ?_
      have hother := (List.mem_filter.1 hx).2
      rw [Bool.not_eq_true', Bool.eq_false_iff] at hother ⊢
      exact mt (Block.forSameCode_of_isFor hfor').2 hother
    rw [hothers, hkept, List.take_of_length_le (by dsimp only; omega)] at hfront'
    exact .of_blocks hconfig hnext hnext' hu hu' hfront hfront' hmatch (ListsMatch.refl _)

/-- Runs are alike if their first turns are. -/
theorem TurnsAlike.run (h : TurnsAlike s { s with runner := r' })
    (hconfig : r'.config = s.runner.config) (hlog : r'.log = s.runner.log) :
    EndsLike s.run (RunState.run { s with runner := r' }) := by
  unfold RunState.run
  dsimp only
  rw [hconfig]
  exact h.loop ⟨rfl, rfl, rfl⟩ hconfig hlog fun blocks _ _ h => h.loop _ blocks

/-- **The next run is as if there had been no failed one**, if the page of CS:RIP is mapped. -/
theorem run_after_compileFault {T : Type} [EventSink T] {mem : FlatMemory}
    (h : s.runner.Knows (fun _ => True) s.mem) (hrun : s.run = (.compileFault f, s'))
    (hexecuted : s'.executed = s.executed) (hbytes : mem.bytes = s.mem.bytes)
    (hpage : mapForFetch mem s.cpu.linearPc s.cpu.cpl = .ok page) (sink : T) :
    EndsLike (run ⟨s.runner, s.cpu, mem, sink⟩) (run ⟨s'.runner, s.cpu, mem, sink⟩) := by
  obtain ⟨s₁, rfl, hseeks, hlist⟩ := run_compileFault h hrun hexecuted
  have hleft := h.remap hbytes
  have hright : (s₁.failCompile f).2.runner.Knows (fun _ => True) mem :=
    (hseeks.knows.withStats _).remap hbytes
  have hconfig : (s₁.failCompile f).2.runner.config = s.runner.config := hseeks.config
  have hlog : (s₁.failCompile f).2.runner.log = s.runner.log := hright.log.trans hleft.log.symm
  refine TurnsAlike.run (s := ⟨s.runner, s.cpu, mem, sink⟩) ?_ hconfig hlog
  obtain hlist | ⟨hnone, hlist⟩ := hlist
  · exact turnsAlike_of_eq hleft hright hconfig hpage hlist
  · refine turnsAlike_of_dropped hleft hright hconfig hpage hlist fun e he => ?_
    obtain ⟨hmem, hfor, -⟩ := entryFor?_some he
    obtain ⟨next, hsome, -⟩ := exists_secondPage (not_current_of_isFor h hmem hfor hnone)
    rw [hsome]
    rfl

end RunState

/-! ## Results -/

/-- **A failed run leaves nothing behind**, for every runner after anything, with all writes
    reported. If it fails to compile its first block, the fault is delivered and nothing else happens
    to the processor; memory is as before; no block is added to the cache, and none is removed but
    one for this very code with a second page that is not mapped to where it was. If the page of
    CS:RIP is mapped afterwards, whichever other pages are, the next run is as if there had been no
    failed one. -/
theorem compileFault_leaves_nothing {S : Type} [EventSink S] {s s' : RunState FlatMemory S}
    {f : CompileFault} (h : s.runner.Reported s.mem) (hrun : s.run = (.compileFault f, s'))
    (hexecuted : s'.executed = s.executed) :
    (s'.sink, s'.cpu) = EventSink.deliver s.sink s.cpu (.exception f.exception) ∧
      (EventSink.Passive S → s'.cpu = s.cpu) ∧ s'.mem = s.mem ∧
      (∀ x ∈ s'.runner.cache.toList, x ∈ s.runner.cache.toList) ∧
      (∀ x ∈ s.runner.cache.toList, x ∈ s'.runner.cache.toList ∨
        x.2.isFor s.cpu.linearPc s.flags (.ofCpu s.cpu) ∧
          ∃ page, x.2.secondPage? = some page ∧
            mapForFetch s.mem (nextPage s.cpu.linearPc) s.cpu.cpl ≠ .ok page) ∧
      ∀ (mem : FlatMemory) (page : UInt64), mem.bytes = s.mem.bytes →
        mapForFetch mem s.cpu.linearPc s.cpu.cpl = .ok page →
        ∀ (T : Type) [EventSink T] (sink : T),
          RunState.EndsLike (RunState.run ⟨s.runner, s.cpu, mem, sink⟩)
            (RunState.run ⟨s'.runner, s.cpu, mem, sink⟩) := by
  have hknows := h.knows
  obtain ⟨s₁, hs', hseeks, hlist⟩ := RunState.run_compileFault hknows hrun hexecuted
  have hdeliver : (s'.sink, s'.cpu) = EventSink.deliver s.sink s.cpu (.exception f.exception) := by
    rw [← hseeks.cpu, ← hseeks.sink, hs']
    rfl
  have hcache : s'.runner.cache.toList = s₁.runner.cache.toList := by
    rw [hs']
    rfl
  refine ⟨hdeliver, fun hpassive => ?_, ?_, fun x hx => ?_, fun x hx => ?_, ?_⟩
  · rw [← hpassive s.sink s.cpu (.exception f.exception), ← hdeliver]
  · rw [← hseeks.mem, hs']
    rfl
  · rw [hcache] at hx
    obtain hlist | ⟨-, hlist⟩ := hlist
    · exact hlist ▸ hx
    · rw [hlist] at hx
      exact (List.mem_filter.1 hx).1
  · rw [hcache]
    obtain hlist | ⟨hnone, hlist⟩ := hlist
    · exact .inl (hlist ▸ hx)
    · by_cases hfor : x.2.isFor s.cpu.linearPc s.flags (.ofCpu s.cpu)
      · exact .inr ⟨hfor, s.exists_secondPage (s.not_current_of_isFor hknows hx hfor hnone)⟩
      · rw [hlist]
        exact .inl (List.mem_filter.2 ⟨hx, by rw [Bool.eq_false_iff.2 hfor]; rfl⟩)
  · exact fun mem page hbytes hpage T _ sink =>
      RunState.run_after_compileFault hknows hrun hexecuted hbytes hpage sink

/-- A prefix at the end of the first page, and `HLT` at its start and that of the next page. -/
def haltAcross : FlatMemory :=
  ((FlatMemory.zeros 4160).load 0 [0xF4]).load 0xFFF [0x66, 0xF4]

/-- The same for the `HLT` across the page boundary, of which the second page is not mapped at
    first. -/
theorem compileFault_leaves_nothing_hlt :
    ∃ (r : Runner) (s s' : RunState FlatMemory Unit) (f : CompileFault),
      Runner.ofConfig? { cacheCapacity := 1, hashBits := 1 } = .ok r ∧
      s = ⟨r, { Cpu.flat32 with rip := 0xFFF }, haltAcross.unmap 0x1000, ()⟩ ∧
      s.runner.Reported s.mem ∧ s.run = (.compileFault f, s') ∧ s'.executed = s.executed ∧
      f.exception = .pageFault 0x1000 0x10 ∧ s'.cpu = s.cpu ∧ s'.mem = s.mem ∧
      mapForFetch haltAcross s.cpu.linearPc s.cpu.cpl = .ok 0 ∧
      RunState.EndsLike (RunState.run ⟨s.runner, s.cpu, haltAcross, ()⟩)
        (RunState.run ⟨s'.runner, s.cpu, haltAcross, ()⟩) := by
  obtain ⟨s, hs⟩ : ∃ s : RunState FlatMemory Unit,
      s = ⟨{ config := { cacheCapacity := 1, hashBits := 1 }, cache := .empty 1 1 },
        { Cpu.flat32 with rip := 0xFFF }, haltAcross.unmap 0x1000, ()⟩ := ⟨_, rfl⟩
  have hreported : s.runner.Reported s.mem := by
    rw [hs]
    exact .new (show Runner.ofConfig? { cacheCapacity := 1, hashBits := 1 } = .ok _ from rfl)
      (by decide +kernel)
  have hfacts : s.exitBefore 0 = none ∧ s.runner.cache.toList = [] ∧
      (pageOf s.cpu.linearPc).toNat + 4096 ≤ s.mem.bytes.size ∧
      mapForFetch s.mem s.cpu.linearPc s.cpu.cpl = .ok 0 ∧
      mapForFetch haltAcross s.cpu.linearPc s.cpu.cpl = .ok 0 ∧
      mapForFetch s.mem (nextPage s.cpu.linearPc) s.cpu.cpl = .error (.pageFault 0x1000 0x10) ∧
      s.cpu.linearPc.toNat % 4096 = 4095 ∧ s.mem.bytes[s.cpu.linearPc.toNat]? = some 0x66 ∧
      decode s.cpu.codeWidth [0x66] = .error .unexpectedEnd := by
    rw [hs]
    decide +kernel
  obtain ⟨hexit, hempty, hinside, hpage, hpage', hnext, hplace, hbyte, hdecode⟩ := hfacts
  have hcut := cutAtPageEnd_of_byte hplace hbyte hdecode
  obtain ⟨t, hresolve, hon, ht⟩ := hreported.knows.resolve_mapped hpage
  have hnone : s.entryFor? s.cpu.linearPc = none := RunState.entryFor?_eq_none fun e he => by
    rw [hempty] at he
    cases he
  obtain ⟨s', hrun, hexecuted, -⟩ :=
    RunState.run_missing hexit hresolve ht hon hnone hinside hcut hnext
  obtain ⟨-, hcpu, hmem, -, -, hretry⟩ := compileFault_leaves_nothing hreported hrun hexecuted
  exact ⟨_, s, s', _, rfl, hs, hreported, hrun, hexecuted, rfl, hcpu fun _ _ _ => rfl, hmem, hpage',
    hretry haltAcross 0 (by rw [hs]; simp only [FlatMemory.unmap]) hpage' Unit ()⟩

/-- The page of CS:RIP has to be mapped. If it is gone as well, and a window has served it, the next
    run fails because of the one before. -/
theorem compileFault_leaves_no_window :
    ∃ (r : Runner) (s₀ s s' : RunState FlatMemory Unit),
      Runner.ofConfig? { cacheCapacity := 1, hashBits := 1, maxBlocks := 1 } = .ok r ∧
      s₀ = ⟨r, Cpu.flat32, haltAcross, ()⟩ ∧
      s = ⟨s₀.run.2.runner, { Cpu.flat32 with rip := 0xFFF },
        (s₀.run.2.mem.unmap 0).unmap 0x1000, ()⟩ ∧
      s.runner.Reported s.mem ∧ s.run = (.compileFault ⟨0xFFF, .pageFault 0x1000 0x10⟩, s') ∧
      s'.executed = s.executed ∧
      (RunState.run ⟨s'.runner, s.cpu, s.mem.map 0x1000, ()⟩).1 =
        .compileFault ⟨0xFFF, .pageFault 0 0x10⟩ ∧
      ∀ f, (RunState.run ⟨s.runner, s.cpu, s.mem.map 0x1000, ()⟩).1 ≠ .compileFault f := by
  obtain ⟨s₀, hs₀⟩ : ∃ s : RunState FlatMemory Unit,
      s = ⟨{ config := { cacheCapacity := 1, hashBits := 1, maxBlocks := 1 }
             cache := .empty 1 1 }, Cpu.flat32, haltAcross, ()⟩ := ⟨_, rfl⟩
  obtain ⟨s, hs⟩ : ∃ s : RunState FlatMemory Unit,
      s = ⟨s₀.run.2.runner, { Cpu.flat32 with rip := 0xFFF },
        (s₀.run.2.mem.unmap 0).unmap 0x1000, ()⟩ := ⟨_, rfl⟩
  have hreported : s.runner.Reported s.mem := by
    have hnew : s₀.runner.Reported s₀.mem := by
      rw [hs₀]
      exact .new (show Runner.ofConfig? { cacheCapacity := 1, hashBits := 1, maxBlocks := 1 } =
        .ok _ from rfl) (by decide +kernel)
    rw [hs]
    exact .outside [] (.run s₀ hnew) (fun _ hspan => absurd hspan List.not_mem_nil)
      ⟨rfl, fun _ _ => rfl⟩
  have hfacts : s.exitBefore 0 = none ∧ s.runner.config.maxBlocks = 1 ∧ s.cpu.linearPc = 0xFFF ∧
      s.runner.fetch.window.any (·.covers s.cpu s.cpu.linearPc) ∧
      (s.runner.cache.toList.all fun e =>
        !e.2.isFor s.cpu.linearPc s.flags (.ofCpu s.cpu)) ∧
      mapForFetch s.mem (nextPage s.cpu.linearPc) s.cpu.cpl = .error (.pageFault 0x1000 0x10) ∧
      mapForFetch (s.mem.map 0x1000) s.cpu.linearPc s.cpu.cpl = .error (.pageFault 0 0x10) ∧
      mapForFetch (s.mem.map 0x1000) (nextPage s.cpu.linearPc) s.cpu.cpl = .ok 0x1000 ∧
      (nextPage s.cpu.linearPc).toNat + fetchChunk ≤ s.mem.bytes.size ∧
      s.cpu.linearPc.toNat % 4096 = 4095 ∧ s.mem.bytes[s.cpu.linearPc.toNat]? = some 0x66 ∧
      decode s.cpu.codeWidth [0x66] = .error .unexpectedEnd := by
    rw [hs, hs₀]
    decide +kernel
  obtain ⟨hexit, hmax, hpc, hcovers, hother, hnext, hgone, hmapped, hchunk, hplace, hbyte, hdecode⟩ :=
    hfacts
  have hcut := cutAtPageEnd_of_byte hplace hbyte hdecode
  obtain ⟨w, hw, hcovers⟩ := (Option.any_eq_true _ _).1 hcovers
  have hwindow := FetchWindow.IsOn.of_covers hcovers (hreported.knows.window w hw).aligned
  obtain ⟨s', hrun, hexecuted, hfails, hruns⟩ := RunState.loss_shows hreported.knows hexit hmax
    ⟨w, hw, hwindow⟩ (fun e he => by simpa using List.all_eq_true.1 hother e he) hcut hnext
    (show (s.mem.map 0x1000).bytes = s.mem.bytes from rfl) hgone hmapped hchunk ()
  rw [hpc] at hrun hfails
  exact ⟨_, s₀, s, s', rfl, hs₀, hs, hreported, hrun, hexecuted, hfails, hruns⟩

end X86Replay

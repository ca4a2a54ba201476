import X86Replay.Proofs.CodeBytes
import X86Replay.Proofs.Epochs
import X86Replay.Proofs.Runner
import X86Replay.Proofs.Starts

/-!
# What runs is what is mapped

Blocks are cached, the fetch window is kept, and the guest and the world around it store to memory
and map pages elsewhere. Whenever a block is started, the bytes that it was compiled from are
nevertheless those that CS:RIP leads to.

* `Faithful`: what is asked of translation at the times when blocks are looked for.
* `Coherent`: every cached block has been compiled in one of the turns, from bytes that memory still
  holds, and the fetch window shows memory, though perhaps not where its page leads to now.
* `Coherent.change`: this survives changes that the runner is notified of, and any change of the
  translation.
* `nextBlock_coherent`, `replayBlock_coherent`, `run_coherent`: it survives turns and runs.
* `Session`, `starts_what_is_mapped`: in any sequence of runs, flushes and changes from outside, a
  block is started only where its bytes are, as long as translation is faithful.
* `starts_what_is_not_mapped`: what goes wrong on the last page of physical memory, when the epochs
  come round, and when a change is reported too late.
-/

namespace X86Replay

variable {M S : Type} [GuestMemory M]

open RunState

/-! ## Translation -/

/-- What is asked of translation at the times when blocks are looked for: it moves whole pages, none
    of the code to the last page of physical memory, and epochs tell where to. -/
structure Faithful (moments : List (Moment M)) : Prop where
  pages : ∀ x ∈ moments, PagePreserving x.mem
  spares : ∀ x ∈ moments, SparesLastPage x.mem
  epochs : EpochsTell moments

theorem Faithful.mono {moments moments' : List (Moment M)} (h : Faithful moments')
    (hsub : moments ⊆ moments') : Faithful moments where
  pages x hx := h.pages x (hsub hx)
  spares x hx := h.spares x (hsub hx)
  epochs := h.epochs.mono hsub

theorem Faithful.pair {x y : Moment M} (hx : PagePreserving x.mem ∧ SparesLastPage x.mem)
    (hy : PagePreserving y.mem ∧ SparesLastPage y.mem)
    (h : x.cpu.epoch = y.cpu.epoch → mapForFetch x.mem = mapForFetch y.mem) : Faithful [x, y] where
  pages := List.forall_mem_cons.2 ⟨hx.1, List.forall_mem_singleton.2 hy.1⟩
  spares := List.forall_mem_cons.2 ⟨hx.2, List.forall_mem_singleton.2 hy.2⟩
  epochs := .pair h

/-! ## Windows and blocks -/

/-- What a fetch window knows after some turns: it was made in one of them, it is not on the last
    page of physical memory, and its bytes are those of memory. -/
structure FetchWindow.Kept (H : List (RunState M S)) (mem : M) (w : FetchWindow) : Prop where
  aligned : pageOf w.linear = w.linear
  made : w.MadeAt (H.map moment)
  spares : w.physical.toNat + 4096 < 2 ^ 64
  size : w.loaded.size ≤ 4096
  holds : HoldsBytes mem w.physical.toNat w.loaded.toList

/-- A block that was compiled in one of the turns, and whose bytes are still in memory. -/
structure Backed (H : List (RunState M S)) (mem : M) (b : Block) : Prop where
  compiled : ∃ o ∈ H, ∃ code, o.Compiles b ∧ b.BuiltFrom o.context o.mem code ∧
    ShowsCode o.cpu o.mem code ∧
    ∀ i byte, code[i]? = some byte → byteAt mem (b.codeAddress i).toUInt64 = some byte
  ranges : ∀ r ∈ b.ranges, r.start.toNat + r.length.toNat < 2 ^ 64

/-- A block that was compiled in one of the turns, from bytes that were at CS:RIP then and are at
    CS:RIP now. -/
def Mapped (H : List (RunState M S)) (cpu : Cpu) (mem : M) (b : Block) : Prop :=
  ∃ o ∈ H, ∃ code, o.Compiles b ∧ b.HasCode o.context code ∧ code.length = b.size.toNat ∧
    ShowsCode o.cpu o.mem code ∧ ShowsCode cpu mem code

section

variable {H H' : List (RunState M S)} {cpu : Cpu} {mem mem' : M} {b : Block} {w : FetchWindow}
  {spans : List PhysSpan}

theorem FetchWindow.Kept.mono (h : w.Kept H mem) (hsub : H ⊆ H') : w.Kept H' mem where
  aligned := h.aligned
  made := by
    obtain ⟨x, hx, hmade⟩ := h.made
    exact ⟨x, List.map_subset moment hsub hx, hmade⟩
  spares := h.spares
  size := h.size
  holds := h.holds

/-- **A window that resolves a program counter is current**, if epochs tell. -/
theorem FetchWindow.Kept.current (h : w.Kept H mem) (hepochs : EpochsTell (H.map moment))
    (hnow : ⟨cpu, mem⟩ ∈ H.map moment) {pc : UInt64} (hcovers : w.covers cpu pc) :
    w.Current mem where
  aligned := h.aligned
  mapped := by
    simp only [FetchWindow.covers, Bool.and_eq_true, beq_iff_eq] at hcovers
    exact h.made.mapped hepochs hnow hcovers.1.1.1
  size := h.size
  holds := h.holds

theorem Backed.mono (h : Backed H mem b) (hsub : H ⊆ H') : Backed H' mem b where
  compiled := by
    obtain ⟨o, ho, hcompiled⟩ := h.compiled
    exact ⟨o, hsub ho, hcompiled⟩
  ranges := h.ranges

/-- Where its pages are mapped, a block is at CS:RIP. -/
theorem Backed.mapped (h : Backed H mem b) (hpages : PagePreserving mem) (hb : b.IsAt cpu mem) :
    Mapped H cpu mem b := by
  obtain ⟨o, ho, code, hcompiles, hbuilt, hshows, hbytes⟩ := h.compiled
  exact ⟨o, ho, code, hcompiles, hbuilt.hasCode, hbuilt.length, hshows,
    hbuilt.laidOut.showsCode hpages hb hbytes⟩

variable [ByteMemory M]

/-- A window that no change meets still shows memory. -/
theorem FetchWindow.Kept.changed (h : w.Kept H mem) (hmem : ChangedIn spans mem mem')
    (hlength : ∀ s ∈ spans, s.length < 2 ^ 64)
    (hmeets : ∀ s ∈ spans, w.meets s.start s.length.toUInt64 = false) : w.Kept H mem' where
  aligned := h.aligned
  made := h.made
  spares := h.spares
  size := h.size
  holds i byte hi := by
    have hlow := h.spares
    have hinside : i < 4096 := by
      have hi := (List.getElem?_eq_some_iff.1 hi).1
      rw [Array.length_toList] at hi
      exact hi.trans_le h.size
    have htop : w.physical.toNat + i < 2 ^ 64 := by omega
    have hbyte := (readsByte_iff htop).1 (h.holds i byte hi)
    rw [readsByte_iff htop, hmem _ fun s hs hcovers => ?_, hbyte]
    have hnat : s.length.toUInt64.toNat = s.length := UInt64.toNat_ofNat_of_lt' (hlength s hs)
    rw [PhysSpan.Covers, CompileContext.toNat_toUInt64 htop] at hcovers
    refine Bool.eq_false_iff.1 (hmeets s hs) ((FetchWindow.meets_iff hlow).2 ?_)
    exact ⟨w.physical.toNat + i, by omega, by omega, by omega, by omega⟩

omit [ByteMemory M] in
/-- A block that no change meets is still in memory. -/
theorem Backed.changed (h : Backed H mem b) (hmem : ChangedIn spans mem mem')
    (hlength : ∀ s ∈ spans, s.length < 2 ^ 64)
    (hmeets : ∀ s ∈ spans, b.meets s.start s.length.toUInt64 = false) : Backed H mem' b where
  compiled := by
    obtain ⟨o, ho, code, hcompiles, hbuilt, hshows, hbytes⟩ := h.compiled
    refine ⟨o, ho, code, hcompiles, hbuilt, hshows, fun i byte hi => ?_⟩
    have hlt := (List.getElem?_eq_some_iff.1 hi).1
    obtain ⟨r, hr, ha⟩ := (hbuilt.laidOut.covers_iff _).2 ⟨i, hlt, rfl⟩
    have hrange := h.ranges r hr
    have htop : b.codeAddress i < 2 ^ 64 := by
      unfold CodeRange.Covers at ha
      omega
    rw [hmem _ fun s hs hcovers => ?_, hbytes i byte hi]
    have hnat : s.length.toUInt64.toNat = s.length := UInt64.toNat_ofNat_of_lt' (hlength s hs)
    rw [PhysSpan.Covers, CompileContext.toNat_toUInt64 htop] at hcovers
    refine List.any_eq_false.1 (hmeets s hs) r hr ((CodeRange.meets_iff hrange).2 ?_)
    exact ⟨b.codeAddress i, ha, by omega, by omega⟩
  ranges := h.ranges

end

/-! ## Coherence -/

/-- What a runner knows after some turns: all cached blocks have been compiled in these turns and
    are still in memory, no logged write has still to be dealt with, and the fetch window shows
    memory. -/
structure Coherent (H : List (RunState M S)) (r : Runner) (mem : M) : Prop where
  log : r.log = #[]
  cache : r.cache.Sound (Backed H mem)
  window : ∀ w, r.fetch.window = some w → w.Kept H mem

namespace Coherent

variable {H H' : List (RunState M S)} {r r' : Runner} {cpu : Cpu} {mem mem' : M}
  {spans : List PhysSpan}

theorem mono (h : Coherent H r mem) (hsub : H ⊆ H') : Coherent H' r mem where
  log := h.log
  cache := h.cache.mono fun _ hb => hb.mono hsub
  window w hw := (h.window w hw).mono hsub

/-- **Coherence survives changes that the runner is notified of.** -/
theorem change [ByteMemory M] (h : Coherent H r mem) (hr : Runner.Notified spans r r')
    (hmem : ChangedIn spans mem mem') (hlength : ∀ s ∈ spans, s.length < 2 ^ 64) :
    Coherent H r' mem' where
  log := hr.log.trans h.log
  cache := (hr.cache h.cache fun _ hb => hb.ranges).mono fun _ hb =>
    hb.1.changed hmem hlength hb.2
  window w hw := by
    obtain ⟨hw, hmeets⟩ := hr.window w hw
    exact (h.window w hw).changed hmem hlength hmeets

/-- A runner with the same cache and window that has logged nothing either. -/
theorem congr (h : Coherent H r mem) (hlog : r'.log = #[]) (hcache : r'.cache = r.cache)
    (hfetch : r'.fetch = r.fetch) : Coherent H r' mem where
  log := hlog
  cache := hcache ▸ h.cache
  window := hfetch ▸ h.window

/-- A current window that has been made now. -/
theorem withFetch (h : Coherent H r mem) {fetch : FetchStream} (hfaithful : Faithful (H.map moment))
    (hnow : ⟨cpu, mem⟩ ∈ H.map moment) (hpresent : fetch.Present cpu) (hcurrent : fetch.Current mem) :
    Coherent H { r with fetch } mem where
  log := h.log
  cache := h.cache
  window w hw := by
    have hw' := hcurrent w hw
    exact ⟨hw'.aligned, ⟨_, hnow, (hpresent w hw).symm, hw'.mapped⟩,
      hfaithful.spares _ hnow _ _ _ hw'.mapped,
      hw'.size, hw'.holds⟩

theorem withCache (h : Coherent H r mem) {cache : BlockCache}
    (hcache : cache.Sound (Backed H mem)) : Coherent H { r with cache } mem where
  log := h.log
  cache := hcache
  window := h.window

end Coherent

/-- At the start of each of the turns the runner is coherent. -/
def CoherentAlong (H ts : List (RunState M S)) : Prop :=
  ∀ k t, ts[k]? = some t → Coherent (H ++ ts.take k) t.runner t.mem

section

variable {H : List (RunState M S)}

theorem coherentAlong_nil (H : List (RunState M S)) : CoherentAlong H [] := by
  intro k t ht
  rw [List.getElem?_nil] at ht
  cases ht

theorem CoherentAlong.cons {s : RunState M S} {ts : List (RunState M S)}
    (h : Coherent H s.runner s.mem) (hts : CoherentAlong (H ++ [s]) ts) :
    CoherentAlong H (s :: ts) := by
  intro k t ht
  cases k with
  | zero =>
    cases ht
    rwa [List.take_zero, List.append_nil]
  | succ k =>
    rw [List.take_succ_cons, List.append_cons]
    exact hts k t ht

end

namespace RunState

variable {H : List (RunState M S)} {s o : RunState M S} {b : Block}

/-! ## Finding a block -/

/-- Resolving CS:RIP finds its place on the page that it is mapped to, and leaves a current
    window. -/
theorem resolved_coherent (h : Coherent H s.runner s.mem) (hfaithful : Faithful (H.map moment))
    (hs : s.moment ∈ H.map moment) :
    Coherent H s.resolved.runner s.mem ∧ s.resolved.runner.fetch.Current s.mem ∧
      ∀ physPc, (s.runner.fetch.resolve s.cpu s.mem s.cpu.linearPc).1 = .ok physPc →
        ∃ page, mapForFetch s.mem s.cpu.linearPc s.cpu.cpl = .ok page ∧
          physPc.toNat = page.toNat + s.cpu.linearPc.toNat % 4096 := by
  have hpresent := FetchStream.present_resolve s.runner.fetch s.cpu s.mem s.cpu.linearPc
  unfold resolved
  rcases hresolve : s.runner.fetch.resolve s.cpu s.mem s.cpu.linearPc with ⟨x | a, fetch⟩
  · rw [hresolve] at hpresent
    have hcurrent : fetch.Current s.mem :=
      FetchStream.forall_window_of_none (FetchStream.resolve_error hresolve).2
    exact ⟨h.withFetch hfaithful hs hpresent hcurrent, hcurrent, fun _ hok => nomatch hok⟩
  · rw [hresolve] at hpresent
    have hcovers (w : FetchWindow) (hw : s.runner.fetch.window = some w)
        (hcovers : w.covers s.cpu s.cpu.linearPc) : w.Current s.mem :=
      (h.window w hw).current hfaithful.epochs hs hcovers
    obtain ⟨page, hpage, ha, honPage⟩ := FetchStream.resolve_ok_of_covers hcovers hresolve
    refine ⟨h.withFetch hfaithful hs hpresent honPage.current, honPage.current, fun physPc hok => ?_⟩
    obtain rfl := Except.ok.inj hok
    exact ⟨page, hpage, ha⟩

/-- A cached block that is used is in memory, at the address that it was looked up for. -/
theorem cachedBlock_coherent (h : Coherent H s.runner s.mem) (physPc : UInt64) :
    Coherent H (s.cachedBlock physPc).2.runner s.mem ∧
      (s.cachedBlock physPc).2.runner.fetch = s.runner.fetch ∧
      ∀ b ∈ (s.cachedBlock physPc).1, Backed H s.mem b ∧ b.physPc = physPc ∧
        ∀ page, b.secondPage? = some page →
          mapForFetch s.mem (nextPage s.cpu.linearPc) s.cpu.cpl = .ok page := by
  have hsound := h.cache.lookupBlock physPc s.flags (.ofCpu s.cpu)
  have hcases := s.cachedBlock_cases physPc
  generalize s.cachedBlock physPc = r at hcases ⊢
  cases hcases with
  | missing hlookup =>
    rw [hlookup] at hsound
    refine ⟨h.withCache hsound, rfl, fun b hb => ?_⟩
    cases hb
  | current hlookup hsecond =>
    rw [hlookup] at hsound
    refine ⟨h.withCache hsound, rfl, fun b hb => ?_⟩
    obtain rfl := Option.some.inj hb
    obtain ⟨hblock, hfor⟩ := BlockCache.lookupBlock_some (congrArg Prod.fst hlookup)
    simp only [Block.isFor, Bool.and_eq_true, beq_iff_eq] at hfor
    exact ⟨h.cache.blocks _ _ hblock, hfor.1.1, mapForFetch_of_secondPageIsCurrent hsecond⟩
  | moved hlookup =>
    rw [hlookup] at hsound
    refine ⟨h.withCache (hsound.remove _), rfl, fun b hb => ?_⟩
    cases hb

variable [ByteMemory M]

/-- **A block that is compiled in a turn** is in memory, and its pages are at CS:RIP. The window it
    leaves is current. -/
theorem compiledBlock_coherent (h : Coherent H s.runner s.mem) (hfaithful : Faithful (H.map moment))
    (hfetch : s.runner.fetch.Current s.mem) (ho : o ∈ H) (hwaits : Waits o s)
    (hcompiles : ∀ b, (compileBlock s.cpu s.mem s.runner.fetch s.flags s.runner.config).1 = .ok b →
      o.Compiles b) :
    Coherent H s.compiledBlock.2.runner s.mem ∧
      ∀ b, s.compiledBlock.1 = .ok (some b) → Backed H s.mem b ∧ b.IsAt s.cpu s.mem := by
  have hwidth : s.flags.codeWidth = s.cpu.codeWidth := ModeFlags.codeWidth_ofCpu _ _ _
  have hnow : ⟨s.cpu, s.mem⟩ ∈ H.map moment := by
    rw [hwaits.cpu, hwaits.mem]
    exact List.mem_map_of_mem ho
  have hkept := h.withFetch hfaithful hnow (FetchStream.present_compileBlock s.runner.fetch s.cpu s.mem
    s.flags s.runner.config) (current_compileBlock hwidth hfetch)
  have hcases := s.compiledBlock_cases
  generalize s.compiledBlock = r at hcases ⊢
  cases hcases with
  | fault hcompile =>
    rw [hcompile] at hkept
    exact ⟨hkept, fun b hb => nomatch hb⟩
  | @inserted b _ hcompile =>
    rw [hcompile] at hkept hcompiles
    obtain ⟨code, hbuilt⟩ := exists_builtFrom hwidth hfetch hcompile
    have hranges := hbuilt.laidOut.ranges_lt hbuilt.isAt (hfaithful.spares _ hnow)
    have hbytes (i : Nat) (byte : UInt8) (hi : code[i]? = some byte) :
        byteAt s.mem (b.codeAddress i).toUInt64 = some byte := by
      obtain ⟨r, hr, ha⟩ :=
        (hbuilt.laidOut.covers_iff _).2 ⟨i, (List.getElem?_eq_some_iff.1 hi).1, rfl⟩
      have hrange := hranges r hr
      unfold CodeRange.Covers at ha
      exact (readsByte_iff (by omega)).1 (hbuilt.bytes i byte hi)
    have hshows := hbuilt.laidOut.showsCode (hfaithful.pages _ hnow) hbuilt.isAt hbytes
    have hcontext : s.context = o.context := by
      rw [context, flags, hwaits.cpu, hwaits.config, context, flags]
    have hbacked : Backed H s.mem b := by
      refine ⟨⟨o, ho, code, hcompiles b rfl, ?_, ?_, hbytes⟩, hranges⟩
      · rw [← hcontext, ← hwaits.mem]
        exact hbuilt
      · rw [← hwaits.cpu, ← hwaits.mem]
        exact hshows
    have hinsert := hkept.withCache (hkept.cache.insert hbacked)
    refine ⟨hinsert.congr hinsert.log rfl rfl, fun b' hb' => ?_⟩
    rw [BlockCache.get?_insert (Except.ok.inj hb')]
    exact ⟨hbacked, hbuilt.isAt⟩

/-- A block that is compiled because none was found for CS:RIP. -/
theorem missed_coherent (h : Coherent H s.runner s.mem) (hfaithful : Faithful (H.map moment))
    (hs : s ∈ H) {physPc : UInt64}
    (hresolve : (s.runner.fetch.resolve s.cpu s.mem s.cpu.linearPc).1 = .ok physPc)
    {missed : RunState M S} (hcached : s.resolved.cachedBlock physPc = (none, missed)) :
    Coherent H missed.compiledBlock.2.runner missed.compiledBlock.2.mem ∧
      ∀ b, missed.compiledBlock.1 = .ok (some b) →
        Mapped H missed.compiledBlock.2.cpu missed.compiledBlock.2.mem b := by
  obtain ⟨hresolved, hcurrent, -⟩ := resolved_coherent h hfaithful (List.mem_map_of_mem hs)
  obtain ⟨hkept, hfetch, -⟩ := cachedBlock_coherent (s := s.resolved) hresolved physPc
  have hmissed := s.waits_resolved.trans (waits_cachedBlock s.resolved physPc)
  rw [hcached] at hkept hfetch hmissed
  have hwaits := waits_compiledBlock missed
  obtain ⟨hcompiled, hbacked⟩ := compiledBlock_coherent (s := missed)
    (by rw [hmissed.mem]; exact hkept) hfaithful (by rw [hfetch, hmissed.mem]; exact hcurrent)
    hs hmissed fun b hb => compiles_of_resolved hresolve hcached hb
  rw [hwaits.cpu, hwaits.mem]
  refine ⟨hcompiled, fun b hb => ?_⟩
  obtain ⟨hbacked, hat⟩ := hbacked b hb
  refine hbacked.mapped ?_ hat
  rw [hmissed.mem]
  exact hfaithful.pages _ (List.mem_map_of_mem hs)

/-- **A block is started only where its bytes are**, and finding it leaves the runner coherent. -/
theorem nextBlock_coherent [EventSink S] (h : Coherent H s.runner s.mem)
    (hfaithful : Faithful ((H ++ [s]).map moment)) :
    Coherent (H ++ [s]) s.nextBlock.2.runner s.nextBlock.2.mem ∧
      ∀ b, s.nextBlock.1 = .block b →
        Mapped (H ++ [s]) s.nextBlock.2.cpu s.nextBlock.2.mem b := by
  have hlater := h.mono (List.subset_append_left H [s])
  have hs : s ∈ H ++ [s] := List.mem_append_right H (List.mem_singleton_self s)
  obtain ⟨hresolved, -, hwhere⟩ := resolved_coherent hlater hfaithful (List.mem_map_of_mem hs)
  have hcases := s.nextBlock_cases
  generalize s.nextBlock = r at hcases ⊢
  cases hcases with
  | unresolved => exact ⟨hresolved.congr hresolved.log rfl rfl, fun _ hb => nomatch hb⟩
  | @cached physPc b hresolve hfound =>
    obtain ⟨page, hpage, hphysPc⟩ := hwhere physPc hresolve
    obtain ⟨hcached, -, hbacked⟩ := cachedBlock_coherent (s := s.resolved) hresolved physPc
    obtain ⟨hb, rfl, hsecond⟩ := hbacked b hfound
    have hwaits := waits_cachedBlock s.resolved b.physPc
    dsimp only
    rw [hwaits.cpu, hwaits.mem]
    refine ⟨hcached, fun b' hb' => ?_⟩
    cases hb'
    exact hb.mapped (hfaithful.pages _ (List.mem_map_of_mem hs)) ⟨⟨page, hpage, hphysPc⟩, hsecond⟩
  | fault hresolve hnone =>
    obtain ⟨hcompiled, -⟩ := missed_coherent hlater hfaithful hs hresolve (Prod.ext hnone rfl)
    exact ⟨hcompiled.congr hcompiled.log rfl rfl, fun _ hb => nomatch hb⟩
  | lost hresolve hnone =>
    exact ⟨(missed_coherent hlater hfaithful hs hresolve (Prod.ext hnone rfl)).1,
      fun _ hb => nomatch hb⟩
  | compiled hresolve hnone hb =>
    obtain ⟨hcompiled, hmapped⟩ := missed_coherent hlater hfaithful hs hresolve (Prod.ext hnone rfl)
    refine ⟨hcompiled, fun b' hb' => ?_⟩
    cases hb'
    exact hmapped _ hb

/-! ## Executing -/

/-- **Executing leaves the runner coherent**: it is notified of all writes. -/
theorem execute_coherent {α : Type} {f : Machine M → α × Machine M} {a : α} {s' : RunState M S}
    (hf : Logs f) (h : Coherent H s.runner s.mem) (hrun : s.execute f = (a, s')) :
    Coherent H s'.runner s'.mem := by
  obtain ⟨⟨config, cache, fetch, log, stats⟩, cpu, mem, sink⟩ := s
  obtain rfl : log = #[] := h.log
  obtain ⟨new, hwrites, hlog⟩ := hf ⟨cpu, mem, #[]⟩
  unfold execute at hrun
  dsimp only at hrun
  generalize f ⟨cpu, mem, #[]⟩ = result at hwrites hlog hrun
  obtain ⟨a', cpu', mem', log'⟩ := result
  cases hrun
  dsimp only at hwrites hlog ⊢
  subst hlog
  exact h.change (Runner.Notified.drain config cache fetch new stats) hwrites.changedIn
    hwrites.length_lt

variable [EventSink S]

omit [ByteMemory M] in
theorem stop_coherent (h : Coherent H s.runner s.mem) (reason : Stop) :
    Coherent H (s.stop reason).2.runner (s.stop reason).2.mem := by
  cases reason <;> exact h

theorem singleStep_coherent (h : Coherent H s.runner s.mem) :
    Coherent H s.singleStep.2.runner s.singleStep.2.mem := by
  unfold singleStep
  rcases hrun : s.execute (Exec.step (M := M)) with ⟨r, s'⟩
  have hstep := execute_coherent logs_step h hrun
  obtain e | _ | _ | reason := r
  · exact hstep
  · exact hstep.congr hstep.log rfl rfl
  · exact hstep.congr hstep.log rfl rfl
  · exact stop_coherent (s := s'.retire _) (hstep.congr hstep.log rfl rfl) reason

/-- **Replaying a block leaves the runner coherent.** -/
theorem replayBlock_coherent {cpu : Cpu} (h : Coherent H s.runner s.mem)
    (hb : Mapped H cpu s.mem b) :
    Coherent H (s.replayBlock b).2.runner (s.replayBlock b).2.mem := by
  obtain ⟨o, -, code, -, hcode, -⟩ := hb
  unfold replayBlock
  dsimp only
  generalize hcounted : s.modifyStats (fun t => { t with blocksExecuted := t.blocksExecuted + 1 }) =
    counted
  have hcoherent : Coherent H counted.runner counted.mem := by
    rw [← hcounted]
    exact h.congr h.log rfl rfl
  rcases hrun : counted.execute b.replay with ⟨r, s'⟩
  have hreplay := execute_coherent hcode.logs_replay hcoherent hrun
  have hretired (k : Nat) : Coherent H (s'.retire k).runner (s'.retire k).mem :=
    hreplay.congr hreplay.log rfl rfl
  obtain f | ⟨_ | _ | _ | reason, k⟩ := r
  · exact hretired f.instructions
  · exact hretired k
  · exact hretired k
  · exact hretired k
  · exact stop_coherent (hretired k) reason

/-! ## Runs -/

theorem exitBefore_coherent {blocks : Nat} {result : RunExit × RunState M S}
    (h : Coherent H s.runner s.mem) (hexit : s.exitBefore blocks = some result) :
    Coherent H result.2.runner result.2.mem := by
  obtain hsame | rfl := exitBefore_some hexit
  · rw [hsame]
    exact h
  · exact singleStep_coherent h

/-- **The loop leaves the runner coherent**, and it is coherent at the start of each turn. -/
theorem loop_coherent (fuel blocks : Nat) (h : Coherent H s.runner s.mem)
    (hfaithful : Faithful ((H ++ s.turnsFrom fuel blocks).map moment)) :
    Coherent (H ++ s.turnsFrom fuel blocks) (s.loop fuel blocks).2.runner
        (s.loop fuel blocks).2.mem ∧
      CoherentAlong H (s.turnsFrom fuel blocks) := by
  induction fuel generalizing H blocks s with
  | zero =>
    rw [turnsFrom, List.append_nil]
    exact ⟨h, coherentAlong_nil H⟩
  | succ fuel ih =>
    rw [turnsFrom] at hfaithful ⊢
    rw [loop]
    rcases hexit : s.exitBefore blocks with _ | result
    · rw [hexit] at hfaithful
      dsimp only at hfaithful ⊢
      rw [List.append_cons] at hfaithful ⊢
      obtain ⟨hnext, hmapped⟩ := nextBlock_coherent h
        (hfaithful.mono (List.map_subset moment (List.subset_append_left _ _)))
      rcases hresult : s.nextBlock with ⟨e | b | _, s₁⟩
      · rw [hresult] at hnext
        rw [List.append_nil]
        exact ⟨hnext, .cons h (coherentAlong_nil _)⟩
      · rw [hresult] at hfaithful hnext hmapped
        dsimp only at hfaithful hnext ⊢
        have hreplayed := replayBlock_coherent hnext (hmapped b rfl)
        rcases hreplay : s₁.replayBlock b with ⟨_ | e, s₂⟩
        · rw [hreplay] at hfaithful hreplayed
          dsimp only at hfaithful hreplayed ⊢
          obtain ⟨hloop, halong⟩ := ih (blocks + 1) hreplayed hfaithful
          exact ⟨hloop, .cons h halong⟩
        · rw [hreplay] at hreplayed
          dsimp only
          rw [List.append_nil]
          exact ⟨hreplayed, .cons h (coherentAlong_nil _)⟩
      · rw [hresult] at hfaithful hnext
        dsimp only at hfaithful hnext ⊢
        obtain ⟨hloop, halong⟩ := ih blocks hnext hfaithful
        exact ⟨hloop, .cons h halong⟩
    · dsimp only
      rw [List.append_nil]
      exact ⟨exitBefore_coherent h hexit, coherentAlong_nil H⟩

theorem run_coherent (h : Coherent H s.runner s.mem)
    (hfaithful : Faithful ((H ++ s.turns).map moment)) :
    Coherent (H ++ s.turns) s.run.2.runner s.run.2.mem ∧ CoherentAlong H s.turns :=
  loop_coherent (s.runner.config.maxBlocks + 1) 0 h hfaithful

end RunState

/-! ## Blocks that are not mapped -/

/-- The first block that a run starts is not what is mapped. -/
def StartsUnmapped [EventSink S] (H : List (RunState M S)) (s : RunState M S) : Prop :=
  ∃ b t, s.turns[0]? = some s ∧ s.nextBlock = (.block b, t) ∧
    ¬Mapped (H ++ s.turns.take 1) t.cpu t.mem b

section

variable {H : List (RunState M S)} {cpu : Cpu} {mem : M} {b : Block}

/-- A block is not what is mapped if, whenever it was compiled, another byte was at CS:RIP, or its
    calls are those of another byte. -/
theorem not_mapped (hsize : 0 < b.size.toNat)
    (h : ∀ o ∈ H, o.Compiles b → byteAtPc o.cpu o.mem = byteAtPc cpu mem →
      ∀ code, b.HasCode o.context code → code.head? ≠ byteAtPc cpu mem) : ¬Mapped H cpu mem b := by
  rintro ⟨o, ho, code, hcompiles, hcode, hlength, hthen, hnow⟩
  have hpos : 0 < code.length := by omega
  have hbyte := (hthen.head? hpos).symm.trans (hnow.head? hpos)
  exact h o ho hcompiles hbyte code hcode (hnow.head? hpos)

/-- A block whose only call halts has not been made from code that begins with `NOP`. -/
theorem head?_ne_of_hlt {c : CompileContext} {call : Call} {code : List UInt8}
    (hcode : b.HasCode c code) (hcalls : b.calls = [call]) (hcall : call.handler = .hlt)
    (hchecks : c.flags.needsLimitChecks = false) (hwidth : c.width = .bits32) :
    code.head? ≠ some 0x90 := by
  obtain ⟨e, hdecoded, rfl, rfl⟩ := hcode.exists_encoding hcalls hchecks
  intro hhead
  obtain ⟨bytes, decoded, crossing⟩ := e
  obtain ⟨t, rfl⟩ : ∃ t, bytes = [0x90] ++ t := by
    obtain _ | ⟨byte, t⟩ := bytes
    · rw [List.take_nil] at hhead
      cases hhead
    · refine ⟨t, ?_⟩
      rw [List.head?_take] at hhead
      split_ifs at hhead
      rw [Option.some.inj hhead]
      rfl
  rw [hwidth] at hdecoded
  dsimp only at hdecoded
  rw [decode_append_of_decides (by decide +kernel)] at hdecoded
  have hnop : (Encoding.toCall ⟨[0x90] ++ t, decode .bits32 [0x90], crossing⟩ 0).handler = .nop :=
    rfl
  rw [hdecoded, hnop] at hcall
  cases hcall

/-- The only turn of a run starts a block of `HLT` alone where there is `NOP` now. -/
structure HaltsOnNop [EventSink S] (s : RunState M S) : Prop where
  exit : (s.exitBefore 0).isNone
  turns : s.turns.length = 1
  started : s.started.any fun b => b.size == 1 && b.calls.map Call.handler == [.hlt]
  byte : byteAtPc s.cpu s.mem = some 0x90
  checks : s.flags.needsLimitChecks = false
  width : s.flags.codeWidth = .bits32

instance [EventSink S] (s : RunState M S) : Decidable (HaltsOnNop s) :=
  decidable_of_iff ((s.exitBefore 0).isNone ∧ s.turns.length = 1 ∧
      (s.started.any fun b => b.size == 1 && b.calls.map Call.handler == [.hlt]) ∧
      byteAtPc s.cpu s.mem = some 0x90 ∧ s.flags.needsLimitChecks = false ∧
      s.flags.codeWidth = .bits32)
    ⟨fun ⟨h₁, h₂, h₃, h₄, h₅, h₆⟩ => ⟨h₁, h₂, h₃, h₄, h₅, h₆⟩,
      fun ⟨h₁, h₂, h₃, h₄, h₅, h₆⟩ => ⟨h₁, h₂, h₃, h₄, h₅, h₆⟩⟩

theorem HaltsOnNop.turns_eq [EventSink S] {s : RunState M S} (h : HaltsOnNop s) :
    s.turns = [s] :=
  turns_eq_singleton (Option.isNone_iff_eq_none.1 h.exit) h.turns

/-- Such a run starts what is not mapped, if there was no `NOP` in the turn before. -/
theorem HaltsOnNop.startsUnmapped [EventSink S] {s s' : RunState M S} (h : HaltsOnNop s')
    (hs : s.turns = [s]) (hbyte : byteAtPc s.cpu s.mem ≠ some 0x90) :
    StartsUnmapped s.turns s' := by
  have hexit := Option.isNone_iff_eq_none.1 h.exit
  obtain ⟨b, hb, hblock⟩ := (Option.any_eq_true _ _).1 h.started
  simp only [Bool.and_eq_true, beq_iff_eq] at hblock
  obtain ⟨call, hcalls, hcall⟩ := List.map_eq_singleton_iff.1 hblock.2
  obtain ⟨t, ht⟩ := nextBlock_of_started hb
  obtain ⟨hcpu, hmem⟩ : t.cpu = s'.cpu ∧ t.mem = s'.mem := by
    obtain ⟨s₁, hwaits, rfl | ⟨f, hf⟩⟩ := s'.waits_nextBlock
    · rw [ht] at hwaits
      exact ⟨hwaits.cpu, hwaits.mem⟩
    · rw [ht] at hf
      cases hf
  refine ⟨b, t, head?_turns hexit, ht, ?_⟩
  rw [hcpu, hmem, hs, h.turns_eq]
  refine not_mapped (by rw [hblock.1]; decide) fun o ho _ hthen code hcode => ?_
  rw [h.byte] at hthen ⊢
  obtain rfl | ho := List.mem_cons.1 ho
  · exact absurd hthen hbyte
  · obtain rfl := List.mem_singleton.1 ho
    exact head?_ne_of_hlt hcode hcalls hcall h.checks h.width

end

/-! ## Sessions -/

section

variable [EventSink S] {H : List (RunState M S)} {r : Runner} {mem : M}

/-- What has happened to a runner: the turns of its runs so far, and the runner and the memory now.
    Each run may start from any processor state. Between runs the runner may be flushed, and memory
    and its translation may change in any way, as long as changed bytes are reported before the next
    run. -/
inductive Session : List (RunState M S) → Runner → M → Prop
  | new {config : Config} {r : Runner} (mem : M) :
      Runner.ofConfig? config = .ok r → Session [] r mem
  | run {H : List (RunState M S)} (s : RunState M S) :
      Session H s.runner s.mem → Session (H ++ s.turns) s.run.2.runner s.run.2.mem
  | flush {H : List (RunState M S)} {r : Runner} {mem : M} :
      Session H r mem → Session H r.flush mem
  | outside {H : List (RunState M S)} {r : Runner} {mem mem' : M} (spans : List PhysSpan) :
      Session H r mem → (∀ s ∈ spans, s.length < 2 ^ 64) → ChangedIn spans mem mem' →
      Session H (spans.foldl (fun r s => (r.notifyWrite s.start s.length.toUInt64).2) r) mem'

/-- **The runner of a session is coherent**, as long as translation is faithful. -/
theorem Session.coherent [ByteMemory M] (h : Session H r mem)
    (hfaithful : Faithful (H.map moment)) : Coherent H r mem := by
  induction h with
  | @new config r mem hnew =>
    unfold Runner.ofConfig? at hnew
    cases hvalid : config.validate with
    | error x =>
      rw [hvalid] at hnew
      cases hnew
    | ok =>
      rw [hvalid] at hnew
      cases hnew
      exact ⟨rfl, .empty _ _, FetchStream.forall_window_of_none rfl⟩
  | run s _ ih =>
    have hpast := hfaithful.mono (List.map_subset moment (List.subset_append_left _ _))
    exact (run_coherent (ih hpast) hfaithful).1
  | flush _ ih =>
    exact ⟨(ih hfaithful).log, .flush _, FetchStream.forall_window_of_none rfl⟩
  | outside spans _ hlength hchanged ih =>
    exact (ih hfaithful).change (.foldl spans _) hchanged hlength

end

/-- A state that starts at `HLT`, which is on the given page of sparse memory. On another page there
    is `NOP`. -/
def haltOn (page : UInt64) : RunState SparseMemory Unit where
  runner := { config := { cacheCapacity := 1, hashBits := 1 }, cache := .empty 1 1 }
  cpu := { Cpu.flat32 with rip := 0x1000 }
  mem := { bytes := [(page, 0xF4), (0x2000, 0x90)]
           table := [(0x1000, page), (0xFFFFFFFFFFFFF000, page)] }
  sink := ()

/-- The run that starts at `HLT` has one turn. -/
theorem turns_haltOn {page : UInt64} (h : page = 0 ∨ page = 0xFFFFFFFFFFFFF000) :
    (haltOn page).turns = [haltOn page] ∧
      byteAtPc (haltOn page).cpu (haltOn page).mem ≠ some 0x90 := by
  have hturns : ((haltOn page).exitBefore 0).isNone ∧ (haltOn page).turns.length = 1 ∧
      byteAtPc (haltOn page).cpu (haltOn page).mem ≠ some 0x90 := by
    obtain rfl | rfl := h <;> decide +kernel
  exact ⟨turns_eq_singleton (Option.isNone_iff_eq_none.1 hturns.1) hturns.2.1, hturns.2.2⟩

theorem session_haltOn (page : UInt64) :
    Session (haltOn page).turns (haltOn page).run.2.runner (haltOn page).run.2.mem :=
  .run (haltOn page)
    (.new _ (show Runner.ofConfig? { cacheCapacity := 1, hashBits := 1 } = .ok _ from rfl))

/-- Sparse memory leads code pages where its table does. -/
theorem SparseMemory.mapForFetch_congr {mem mem' : SparseMemory} (h : mem'.table = mem.table) :
    mapForFetch mem' = mapForFetch mem := by
  funext pc cpl
  show Except.ok (pageOf ((mem'.table.lookup (pageOf (pageOf pc))).getD (pageOf (pageOf pc)) |||
    pageOffset (pageOf pc))) = _
  rw [h]
  rfl

/-- A table that leads one page to the given page, and the last page away. -/
theorem SparseMemory.pagePreserving_sparesLastPage {mem : SparseMemory} (page : UInt64)
    (h : mem.table = [(0x1000, page), (0xFFFFFFFFFFFFF000, 0)]) (hmod : page.toNat % 4096 = 0)
    (hlow : page.toNat + 4096 < 2 ^ 64) : PagePreserving mem ∧ SparesLastPage mem := by
  have hpages : ∀ e ∈ mem.table, e.2.toNat % 4096 = 0 := by
    rw [h]
    exact List.forall_mem_cons.2 ⟨hmod, List.forall_mem_singleton.2 rfl⟩
  refine ⟨SparseMemory.pagePreserving hpages, SparseMemory.sparesLastPage hpages ?_ ?_⟩
  · rw [h]
    exact List.forall_mem_cons.2 ⟨hlow, List.forall_mem_singleton.2 (by decide)⟩
  · rw [h]
    exact Option.some_ne_none (0 : UInt64)

/-- A store to the last page of physical memory that is reported leaves the fetch window as it was,
    and the next run compiles a block from what was there before. -/
theorem startsUnmapped_last_page :
    ∃ s s' : RunState SparseMemory Unit, s = haltOn 0xFFFFFFFFFFFFF000 ∧
      s' = { s with
        runner := (s.run.2.runner.notifyWrite 0xFFFFFFFFFFFFF000 1).2
        mem := (GuestMemory.write s.run.2.mem 0xFFFFFFFFFFFFF000 [0x90]).2 } ∧
      Session s.turns s'.runner s'.mem ∧
      (∀ x ∈ (s.turns ++ s'.turns).map moment, PagePreserving x.mem) ∧
      EpochsTell ((s.turns ++ s'.turns).map moment) ∧ StartsUnmapped s.turns s' := by
  obtain ⟨s, hs⟩ : ∃ s, s = haltOn 0xFFFFFFFFFFFFF000 := ⟨_, rfl⟩
  obtain ⟨s', hs'⟩ : ∃ s' : RunState SparseMemory Unit, s' = { s with
      runner := (s.run.2.runner.notifyWrite 0xFFFFFFFFFFFFF000 1).2
      mem := (GuestMemory.write s.run.2.mem 0xFFFFFFFFFFFFF000 [0x90]).2 } := ⟨_, rfl⟩
  obtain ⟨hturns, hbyte⟩ := turns_haltOn (.inr rfl)
  rw [← hs] at hturns hbyte
  have hhalts : HaltsOnNop s' := by
    rw [hs']
    obtain hnotify | hnotify := s.run.2.runner.notifyWrite_cases 0xFFFFFFFFFFFFF000 1
    · rw [hnotify, hs]
      decide +kernel
    · rw [hnotify, hs]
      decide +kernel
  have htable : s'.mem.table = s.mem.table := by
    rw [hs', hs]
    decide +kernel
  have hpages : ∀ e ∈ s.mem.table, e.2.toNat % 4096 = 0 := by
    rw [hs]
    exact List.forall_mem_cons.2 ⟨rfl, List.forall_mem_singleton.2 rfl⟩
  have hsession : Session s.turns s'.runner s'.mem := by
    have hrun : Session s.turns s.run.2.runner s.run.2.mem := by
      rw [hs]
      exact session_haltOn _
    rw [hs']
    exact .outside [⟨0xFFFFFFFFFFFFF000, 1⟩] hrun (List.forall_mem_singleton.2 (by decide))
      (changedIn_write s.run.2.mem 0xFFFFFFFFFFFFF000 [0x90])
  refine ⟨s, s', hs, hs', hsession, ?_, ?_, hhalts.startsUnmapped hturns hbyte⟩
  · rw [hturns, hhalts.turns_eq]
    refine List.forall_mem_cons.2 ⟨?_, List.forall_mem_singleton.2 ?_⟩
    · exact SparseMemory.pagePreserving hpages
    · exact SparseMemory.pagePreserving (by rw [moment, htable]; exact hpages)
  · rw [hturns, hhalts.turns_eq]
    exact .pair fun _ => (SparseMemory.mapForFetch_congr htable).symm

/-- When the counter of epochs has come round, a window made before counts as one of the present. -/
theorem startsUnmapped_epoch_round :
    ∃ s s' : RunState SparseMemory Unit, s = haltOn 0 ∧
      s' = { s with
        runner := s.run.2.runner
        mem := { s.run.2.mem with table := [(0x1000, 0x2000), (0xFFFFFFFFFFFFF000, 0)] } } ∧
      Session s.turns s'.runner s'.mem ∧
      (∀ x ∈ (s.turns ++ s'.turns).map moment, PagePreserving x.mem ∧ SparesLastPage x.mem) ∧
      Bumped (2 ^ 64) ((s.turns ++ s'.turns).map moment).reverse ∧ StartsUnmapped s.turns s' := by
  obtain ⟨s, hs⟩ : ∃ s, s = haltOn 0 := ⟨_, rfl⟩
  obtain ⟨s', hs'⟩ : ∃ s' : RunState SparseMemory Unit, s' = { s with
      runner := s.run.2.runner
      mem := { s.run.2.mem with
        table := [(0x1000, 0x2000), (0xFFFFFFFFFFFFF000, 0)] } } := ⟨_, rfl⟩
  obtain ⟨hturns, hbyte⟩ := turns_haltOn (.inl rfl)
  rw [← hs] at hturns hbyte
  have hhalts : HaltsOnNop s' := by
    rw [hs', hs]
    decide +kernel
  have hsession : Session s.turns s'.runner s'.mem := by
    have hrun : Session s.turns s.run.2.runner s.run.2.mem := by
      rw [hs]
      exact session_haltOn _
    rw [hs']
    exact .outside [] hrun (fun _ hspan => absurd hspan List.not_mem_nil) fun _ _ => rfl
  refine ⟨s, s', hs, hs', hsession, ?_, ?_, hhalts.startsUnmapped hturns hbyte⟩
  · rw [hturns, hhalts.turns_eq]
    refine List.forall_mem_cons.2 ⟨?_, List.forall_mem_singleton.2 ?_⟩
    · exact SparseMemory.pagePreserving_sparesLastPage 0 (by rw [hs]; rfl) rfl (by decide)
    · exact SparseMemory.pagePreserving_sparesLastPage 0x2000 (by rw [hs']; rfl) rfl
        (by decide)
  · rw [hturns, hhalts.turns_eq]
    refine Bumped.next s'.moment (2 ^ 64) ?_ (fun _ => by decide) (.first s.moment)
    rw [hs']
    exact (UInt64.add_zero _).symm

/-- A store that is reported only after the next run comes too late for it. -/
theorem startsUnmapped_late_report :
    ∃ s s' : RunState SparseMemory Unit, s = haltOn 0 ∧
      s' = { s with
        runner := s.run.2.runner
        mem := (GuestMemory.write s.run.2.mem 0 [0x90]).2 } ∧
      Session s.turns s'.runner s.run.2.mem ∧ ChangedIn [⟨0, 1⟩] s.run.2.mem s'.mem ∧
      Faithful ((s.turns ++ s'.turns).map moment) ∧ StartsUnmapped s.turns s' := by
  obtain ⟨s, hs⟩ : ∃ s, s = haltOn 0 := ⟨_, rfl⟩
  obtain ⟨s', hs'⟩ : ∃ s' : RunState SparseMemory Unit, s' = { s with
      runner := s.run.2.runner
      mem := (GuestMemory.write s.run.2.mem 0 [0x90]).2 } := ⟨_, rfl⟩
  obtain ⟨hturns, hbyte⟩ := turns_haltOn (.inl rfl)
  rw [← hs] at hturns hbyte
  have hhalts : HaltsOnNop s' := by
    rw [hs', hs]
    decide +kernel
  have htable : s'.mem.table = s.mem.table ∧
      s.mem.table = [(0x1000, 0), (0xFFFFFFFFFFFFF000, 0)] := by
    rw [hs', hs]
    decide +kernel
  have hsession : Session s.turns s'.runner s.run.2.mem := by
    have hrunner : s'.runner = s.run.2.runner := by rw [hs']
    rw [hrunner, hs]
    exact session_haltOn _
  have hchanged : ChangedIn [⟨0, 1⟩] s.run.2.mem s'.mem := by
    rw [hs']
    exact changedIn_write s.run.2.mem 0 [0x90]
  refine ⟨s, s', hs, hs', hsession, hchanged, ?_, hhalts.startsUnmapped hturns hbyte⟩
  rw [hturns, hhalts.turns_eq]
  exact .pair (SparseMemory.pagePreserving_sparesLastPage 0 htable.2 rfl (by decide))
    (SparseMemory.pagePreserving_sparesLastPage 0 (htable.1.trans htable.2) rfl (by decide))
    fun _ => (SparseMemory.mapForFetch_congr htable.1).symm

end X86Replay

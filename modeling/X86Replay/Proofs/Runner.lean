import X86Replay.Proofs.CachedBlocks
import X86Replay.Proofs.Caching
import X86Replay.Run

/-!
# What a runner knows of memory

* `Runner.Sound`: all cached blocks are up to date, and the fetch window shows memory.
* `Notified.sound`: a runner stays sound if it is notified of every span that memory changes in.
* `RunState.execute_spec`: executing on the processor and memory of a sound runner leaves it sound.
-/

namespace X86Replay

/-! ## Fetch windows -/

section

variable {M : Type} [GuestMemory M] [PhysicalMemory M] {mem mem' : M}

/-- A byte of memory can be read. -/
theorem readsByte_of_getElem? {a : Nat} {b : UInt8} (ha : a < 2 ^ 64)
    (h : (cells mem)[a]? = some b) : ReadsByte mem a b := by
  have hnat : a.toUInt64.toNat = a := UInt64.toNat_ofNat_of_lt' ha
  obtain ⟨hlt, -⟩ := Array.getElem?_eq_some_iff.1 h
  obtain ⟨bytes, -, hlength, hholds⟩ := exists_readBytes mem a.toUInt64 (n := 1) (by omega)
  have hbyte := hholds 0 _ (List.getElem?_eq_getElem (by omega))
  rw [hnat, Nat.add_zero] at hbyte
  have heq := hbyte.getElem?
  rw [h] at heq
  rwa [Option.some.inj heq]

/-- A window that no change meets still shows memory. -/
theorem FetchWindow.Current.frame {w : FetchWindow} {spans : List PhysSpan} (hw : w.Current mem)
    (h : Frame spans mem mem') (hsize : (cells mem).size + 4096 ≤ 2 ^ 64)
    (hlength : ∀ s ∈ spans, s.length < 2 ^ 64)
    (hmeets : ∀ s ∈ spans, w.meets s.start s.length.toUInt64 = false) : w.Current mem' where
  aligned := hw.aligned
  mapped := by
    have hmapped := hw.mapped
    rwa [mapForFetch, ← h.translate] at hmapped
  size := hw.size
  holds i b hi := by
    have hbyte := (hw.holds i b hi)
    have hlt := hbyte.lt_size
    have hmod := mapForFetch_mod hw.mapped
    have hi' : i < 4096 := by
      have hi' := (List.getElem?_eq_some_iff.1 hi).1
      rw [Array.length_toList] at hi'
      exact hi'.trans_le hw.size
    refine readsByte_of_getElem? (by omega) ?_
    rw [h.bytes _ fun s hs => ?_]
    · exact hbyte.getElem?
    · have hnat : s.length.toUInt64.toNat = s.length := UInt64.toNat_ofNat_of_lt' (hlength s hs)
      by_contra hcontra
      refine Bool.eq_false_iff.1 (hmeets s hs) ?_
      exact (FetchWindow.meets_iff (by omega)).2
        ⟨w.physical.toNat + i, by omega, by omega, by omega, by omega⟩

end

/-! ## Runners -/

namespace Runner

variable {r r' : Runner} {mem mem' : FlatMemory} {spans : List PhysSpan}

/-- All cached blocks are up to date, the fetch window shows memory, and no logged write has still
    to be dealt with. Memory has at most 4 GiB. -/
structure Sound (r : Runner) (mem : FlatMemory) : Prop where
  size : mem.bytes.size ≤ 2 ^ 32
  log : r.log = #[]
  fetch : r.fetch.Current mem
  cache : r.cache.Sound fun b => b.UpToDate r.config mem

/-- Counters make no difference. -/
theorem Sound.withStats (h : r.Sound mem) (stats : RunStats) :
    ({ r with stats } : Runner).Sound mem :=
  ⟨h.size, h.log, h.fetch, h.cache⟩

/-- A write drops the window that it meets, and the blocks that it meets unless no page of theirs is
    listed as holding code. -/
theorem notifyWrite_cases (r : Runner) (start n : UInt64) :
    (r.notifyWrite start n).2 = { r with fetch := r.fetch.dropWritten start n } ∨
      (r.notifyWrite start n).2 = { r with
        fetch := r.fetch.dropWritten start n
        cache := { r.cache.removeSlots (r.cache.slotsMeeting start n) with
          stats.invalidations :=
            (r.cache.removeSlots (r.cache.slotsMeeting start n)).stats.invalidations +
              (r.cache.slotsMeeting start n).length } } := by
  unfold notifyWrite BlockCache.invalidate
  dsimp only
  split_ifs
  · exact .inr rfl
  · exact .inl rfl

/-- The runner after it has been notified of writes: what they meet is gone. -/
structure Notified (spans : List PhysSpan) (r r' : Runner) : Prop where
  config : r'.config = r.config
  log : r'.log = r.log
  stats : r'.stats = r.stats
  window : ∀ w, r'.fetch.window = some w →
    r.fetch.window = some w ∧ ∀ s ∈ spans, w.meets s.start s.length.toUInt64 = false
  cache : ∀ {P : Block → Prop}, r.cache.Sound P →
    (∀ b, P b → ∀ range ∈ b.ranges, range.start.toNat + range.length.toNat < 2 ^ 64) →
    r'.cache.Sound fun b => P b ∧ ∀ s ∈ spans, b.meets s.start s.length.toUInt64 = false

namespace Notified

theorem refl (r : Runner) : Notified [] r r where
  config := rfl
  log := rfl
  stats := rfl
  window _ hw := ⟨hw, fun _ hs => absurd hs List.not_mem_nil⟩
  cache h _ := h.mono fun _ hb => ⟨hb, fun _ hs => absurd hs List.not_mem_nil⟩

theorem notifyWrite (r : Runner) (s : PhysSpan) :
    Notified [s] r (r.notifyWrite s.start s.length.toUInt64).2 where
  config := rfl
  log := rfl
  stats := rfl
  window w hw := by
    change (r.fetch.dropWritten s.start s.length.toUInt64).window = some w at hw
    unfold FetchStream.dropWritten at hw
    split_ifs at hw with hmeets
    · cases hw
    · refine ⟨hw, fun s' hs' => ?_⟩
      rw [List.mem_singleton.1 hs']
      rw [hw, Option.any_some, Bool.not_eq_true] at hmeets
      exact hmeets
  cache h hranges := (h.invalidate hranges s.start s.length.toUInt64).mono fun b hb =>
    ⟨hb.1, fun s' hs' => List.mem_singleton.1 hs' ▸ hb.2⟩

theorem trans {spans' : List PhysSpan} {r'' : Runner} (h : Notified spans r r')
    (h' : Notified spans' r' r'') : Notified (spans ++ spans') r r'' where
  config := h'.config.trans h.config
  log := h'.log.trans h.log
  stats := h'.stats.trans h.stats
  window w hw := by
    obtain ⟨hw', hmeets'⟩ := h'.window w hw
    obtain ⟨hw, hmeets⟩ := h.window w hw'
    exact ⟨hw, fun s hs => (List.mem_append.1 hs).elim (hmeets s) (hmeets' s)⟩
  cache hsound hranges := by
    have hcache := h'.cache (h.cache hsound hranges) fun b hb => hranges b hb.1
    refine hcache.mono fun b hb => ⟨hb.1.1, fun s hs => ?_⟩
    exact (List.mem_append.1 hs).elim (hb.1.2 s) (hb.2 s)

theorem foldl (spans : List PhysSpan) (r : Runner) :
    Notified spans r
      (spans.foldl (fun r s => (r.notifyWrite s.start s.length.toUInt64).2) r) := by
  induction spans generalizing r with
  | nil => exact .refl r
  | cons s spans ih => exact (notifyWrite r s).trans (ih _)

/-- Draining the log notifies the runner of what has been logged. -/
theorem drain (config : Config) (cache : BlockCache) (fetch : FetchStream) (new : List PhysSpan)
    (stats : RunStats) :
    Notified new ⟨config, cache, fetch, #[], stats⟩
      (Runner.drain ⟨config, cache, fetch, (#[] : Array PhysSpan) ++ new, stats⟩) := by
  have hfoldl := foldl new ⟨config, cache, fetch, #[], stats⟩
  unfold Runner.drain
  dsimp only
  rwa [← Array.foldl_toList, Array.toList_appendList, List.nil_append]

/-- **A runner stays sound if it is notified of every span that memory changes in.** -/
theorem sound (h : Notified spans r r') (hr : r.Sound mem) (hmem : Frame spans mem mem')
    (hlength : ∀ s ∈ spans, s.length < 2 ^ 64) : r'.Sound mem' where
  size := by
    have hsize : mem'.bytes.size = mem.bytes.size := hmem.size
    rw [hsize]
    exact hr.size
  log := h.log.trans hr.log
  fetch w hw := by
    obtain ⟨hw, hmeets⟩ := h.window w hw
    have hsize : mem.bytes.size ≤ 2 ^ 32 := hr.size
    exact (hr.fetch w hw).frame hmem (show mem.bytes.size + 4096 ≤ 2 ^ 64 by omega) hlength hmeets
  cache := by
    have hranges (b : Block) (hb : b.UpToDate r.config mem) := hb.ranges hr.size
    refine (h.cache hr.cache hranges).mono fun b hb => ?_
    rw [h.config]
    exact hb.1.trans (hmem.sameCode hlength (hranges b hb.1) hb.2)

end Notified

end Runner

/-! ## States of a run -/

namespace RunState

variable {S α : Type} {s : RunState FlatMemory S}

/-- **Executing on the processor and memory leaves a sound runner sound**, and does what the
    computation does. -/
theorem execute_spec {f : Machine FlatMemory → α × Machine FlatMemory} (hf : Logs f)
    (h : s.runner.Sound s.mem) {a : α} {m : Machine FlatMemory}
    (hrun : f ⟨s.cpu, s.mem, #[]⟩ = (a, m)) :
    ∃ runner, s.execute f = (a, ⟨runner, m.cpu, m.mem, s.sink⟩) ∧ runner.Sound m.mem ∧
      runner.config = s.runner.config ∧ runner.stats = s.runner.stats := by
  obtain ⟨⟨config, cache, fetch, log, stats⟩, cpu, mem, sink⟩ := s
  obtain rfl : log = #[] := h.log
  obtain ⟨new, hwrites, hlog⟩ := hf ⟨cpu, mem, #[]⟩
  obtain ⟨cpu', mem', log'⟩ := m
  rw [hrun] at hwrites hlog
  dsimp only at hlog
  subst hlog
  have hnotified := Runner.Notified.drain config cache fetch new stats
  refine ⟨_, ?_, hnotified.sound h hwrites.frame.1 hwrites.length_lt, hnotified.config,
    hnotified.stats⟩
  unfold execute
  dsimp only at hrun ⊢
  rw [hrun]

end RunState

end X86Replay

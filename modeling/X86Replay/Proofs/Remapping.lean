import X86Replay.Proofs.FlatCompiling
import X86Replay.Proofs.Handles
import X86Replay.Proofs.Starts

/-!
# Runners while pages come and go

Pages of flat memory may be unmapped and mapped again without any notice to a runner. It may then
resolve code addresses in a window on a page that is gone, and compile blocks there. What it keeps
is still true of the bytes of memory.

* `FetchWindow.Shows`: the fetch window shows the bytes of a page, which is one of given pages.
* `FetchStream.Shows.compileBlock_map`: on a page that is gone, blocks are compiled as if it were
  mapped again.
* `Block.Stored`: a cached block has been compiled from the bytes that memory has.
* `Runner.Knows`: cache and window of a runner are such. `Knows.notified`: they stay such if all
  writes are reported.
* `RunState.nextBlock_resolved`, `RunState.nextBlock_knows`: what happens to the list of cached blocks
  on the way to the next block.
* `Runner.Reported`, `Reported.knows`: runners after anything, with all writes reported.
-/

namespace X86Replay

open CompileContext

/-! ## Windows -/

namespace FetchWindow

variable {w v : FetchWindow} {mem mem' : FlatMemory} {pages : UInt64 → Prop} {n : Nat}
  {spans : List PhysSpan}

/-- Reading on in chunks keeps a window filled. -/
theorem Filled.of_loadTo (h : w.Filled mem) (hload : w.loadTo mem n = .ok v) : v.Filled mem := by
  by_cases hle : n ≤ w.loaded.size
  · rw [loadTo_of_le mem hle] at hload
    cases hload
    exact h
  have hsize := h.size
  -- What is asked for is no more than a page, or reads the window to the page end.
  obtain ⟨k, hk, hkle, htarget⟩ : ∃ k, 0 < k ∧ k ≤ 4096 ∧ target k = target n := by
    by_cases hn : n ≤ 4096
    · exact ⟨n, by omega, hn, rfl⟩
    · have hpage : pageSize.toNat = 4096 := rfl
      refine ⟨4096, by omega, le_rfl, ?_⟩
      unfold target fetchChunk
      omega
  by_cases hfull : w.loaded.size < k
  · have hsame : w.loadTo mem k = .ok v := by
      rw [loadTo_of_lt mem hfull, htarget, ← loadTo_of_lt mem (Nat.lt_of_not_le hle), hload]
    have hloadTo := h.loadTo (readsInPortions mem) hk hkle
    split at hloadTo
    · obtain ⟨x, hx⟩ := hloadTo
      rw [hsame] at hx
      cases hx
    · obtain ⟨v', hv', hfilled, -⟩ := hloadTo
      rw [hsame] at hv'
      cases hv'
      exact hfilled
  · obtain ⟨hle', -⟩ | ⟨-, bytes, hread, rfl⟩ := loadTo_cases hload
    · exact absurd hle' hle
    · have hlength := length_readBytes hread
      have hlast := target_le h.chunks (Nat.le_of_not_lt hfull)
      have hnil : bytes = [] := List.eq_nil_of_length_eq_zero (by omega)
      rw [hnil, Array.append_empty]
      exact h

/-- Which pages are mapped makes no difference to what has been read. -/
theorem Filled.remap (h : w.Filled mem) (hbytes : mem'.bytes = mem.bytes) : w.Filled mem' where
  aligned := h.aligned
  chunks := h.chunks
  size := h.size
  read := by
    obtain ⟨bytes, unmapped, writeProtected⟩ := mem
    obtain ⟨bytes', unmapped', writeProtected'⟩ := mem'
    obtain rfl : bytes' = bytes := hbytes
    exact h.read

/-- The window has been read, in whole chunks, from the page at its own address, which is one of the
    given pages. It need not be mapped any more. -/
structure Shows (w : FetchWindow) (pages : UInt64 → Prop) (mem : FlatMemory) : Prop where
  aligned : pageOf w.linear = w.linear
  physical : w.physical = w.linear
  page : pages w.linear
  inside : w.linear.toNat < mem.bytes.size
  filled : w.Filled mem

namespace Shows

theorem loadTo (h : w.Shows pages mem) (hload : w.loadTo mem n = .ok v) : v.Shows pages mem := by
  have hfilled := h.filled.of_loadTo hload
  have hpage := samePage_of_loadTo hload
  rw [hpage] at hfilled ⊢
  exact ⟨h.aligned, h.physical, h.page, h.inside, hfilled⟩

/-- A window on a page that is mapped. -/
theorem new {pc page : UInt64} {cpl : UInt8} (h : mapForFetch mem pc cpl = .ok page)
    (hpages : pages page) (epoch : UInt64) :
    Shows ⟨pageOf pc, page, #[], epoch, cpl⟩ pages mem := by
  have haligned := mapForFetch_mod h
  obtain ⟨rfl, -, hinside⟩ := mapForFetch_flat_iff.1 h
  exact ⟨pageOf_pageOf pc, rfl, hpages, hinside, haligned, rfl, Nat.zero_le _, .inl rfl⟩

/-- A window that no change meets still shows memory. -/
theorem patched (h : w.Shows pages mem) (hmem : Patched spans mem mem')
    (hsize : mem.bytes.size + 4096 ≤ 2 ^ 64) (hlength : ∀ s ∈ spans, s.length < 2 ^ 64)
    (hmeets : ∀ s ∈ spans, w.meets s.start s.length.toUInt64 = false) : w.Shows pages mem' where
  aligned := h.aligned
  physical := h.physical
  page := h.page
  inside := by
    have hsame : mem'.bytes.size = mem.bytes.size := hmem.size
    rw [hsame]
    exact h.inside
  filled := by
    refine ⟨h.filled.aligned, h.filled.chunks, h.filled.size, h.filled.read.imp_right fun hread => ?_⟩
    obtain ⟨hinside, hbytes⟩ := (PhysicalMemory.readBytes_ok mem _ _ _).1 hread
    refine (PhysicalMemory.readBytes_ok mem' _ _ _).2 ⟨hinside.trans_eq hmem.size.symm, ?_⟩
    have hpage := h.filled.size
    have hstart : w.physical.toNat < mem.bytes.size := h.physical ▸ h.inside
    rw [hbytes]
    refine List.ext_getElem? fun i => ?_
    rw [Array.getElem?_toList, Array.getElem?_toList, Array.getElem?_extract,
      Array.getElem?_extract, hmem.size]
    by_cases hi : i < w.loaded.size
    · rw [hmem.bytes (w.physical.toNat + i) fun s hs => ?_]
      have hnat : s.length.toUInt64.toNat = s.length :=
        UInt64.toNat_ofNat_of_lt' (hlength s hs)
      by_contra hcontra
      refine Bool.eq_false_iff.1 (hmeets s hs) ?_
      exact (meets_iff (by omega)).2
        ⟨w.physical.toNat + i, by omega, by omega, by omega, by omega⟩
    · rw [if_neg (by omega), if_neg (by omega)]

theorem remap (h : w.Shows pages mem) (hbytes : mem'.bytes = mem.bytes) : w.Shows pages mem' :=
  ⟨h.aligned, h.physical, h.page, hbytes ▸ h.inside, h.filled.remap hbytes⟩

/-- On a page that is mapped the window is current. -/
theorem current (h : w.Shows pages mem) (hmapped : w.linear ∉ mem.unmapped) : w.Current mem where
  aligned := h.aligned
  mapped := by
    rw [mapForFetch_flat_iff, h.aligned, h.physical]
    exact ⟨rfl, hmapped, h.inside⟩
  size := h.filled.size
  holds := by
    obtain hempty | hread := h.filled.read
    · rw [hempty]
      exact HoldsBytes.nil mem _
    · exact HoldsBytes.of_read hread

/-- The window is current if its page is mapped again. -/
theorem current_map (h : w.Shows pages mem) {cpu : Cpu} {pc : UInt64} (hon : w.IsOn cpu pc) :
    w.Current (mem.map pc) := by
  have hagain : w.Shows pages (mem.map pc) := h.remap rfl
  refine hagain.current fun hmem => ?_
  rw [hon.linear] at hmem
  exact bne_iff_ne.1 (List.mem_filter.1 hmem).2 rfl

end Shows

end FetchWindow

/-! ## Streams -/

namespace FetchStream

variable {s t : FetchStream} {mem : FlatMemory} {cpu : Cpu} {pc a : UInt64}
  {pages : UInt64 → Prop}

/-- The window of the stream, if there is one, shows one of the given pages. -/
def Shows (s : FetchStream) (pages : UInt64 → Prop) (mem : FlatMemory) : Prop :=
  ∀ w, s.window = some w → w.Shows pages mem

/-- **Resolving and copying keep to what memory shows**, if all mapped pages are given. -/
theorem kept_shows (cpu : Cpu)
    (hpages : ∀ pc cpl page, mapForFetch mem pc cpl = .ok page → pages page) :
    Kept cpu mem (·.Shows pages mem) (·.Shows pages mem) where
  weaken _ hs := hs
  resolve s pc hs := by
    cases hfilter : s.window.filter (·.covers cpu pc) with
    | none =>
      rw [resolve_of_missing hfilter]
      cases hmapped : mapForFetch mem pc cpu.cpl with
      | error x => exact forall_window_of_none rfl
      | ok page => exact forall_window_of_some rfl (.new hmapped (hpages _ _ _ hmapped) _)
    | some w =>
      obtain ⟨hw, hcovers⟩ := Option.filter_eq_some_iff.1 hfilter
      rw [resolve_of_covers hw hcovers]
      exact forall_window_of_some hw (hs w hw)
  copyBytes s pc limit hs :=
    forall_window_copyBytes hs (fun _ _ _ hw hload => hw.loadTo hload) pc limit

/-- A code address that has been resolved is its own physical address, inside of memory, and has a
    window on its page. -/
theorem Shows.resolve_ok (h : s.Shows pages mem) (hresolve : s.resolve cpu mem pc = (.ok a, t)) :
    a = pc ∧ (pageOf pc).toNat < mem.bytes.size ∧ t.IsOn cpu pc := by
  have hoffset : pageOf pc + (pc - pageOf pc) = pc := by
    rw [UInt64.add_comm, UInt64.sub_add_cancel]
  cases hfilter : s.window.filter (·.covers cpu pc) with
  | none =>
    rw [resolve_of_missing hfilter] at hresolve
    cases hmapped : mapForFetch mem pc cpu.cpl with
    | error x =>
      rw [hmapped] at hresolve
      cases hresolve
    | ok page =>
      rw [hmapped] at hresolve
      cases hresolve
      obtain ⟨rfl, -, hinside⟩ := mapForFetch_flat_iff.1 hmapped
      exact ⟨hoffset, hinside, _, rfl, ⟨rfl, rfl, rfl⟩⟩
  | some w =>
    obtain ⟨hw, hcovers⟩ := Option.filter_eq_some_iff.1 hfilter
    have hshows := h w hw
    have hon := FetchWindow.IsOn.of_covers hcovers hshows.aligned
    have hinside := hshows.inside
    rw [resolve_of_covers hw hcovers] at hresolve
    cases hresolve
    rw [hon.linear] at hinside
    refine ⟨?_, hinside, w, hw, hon⟩
    rw [FetchWindow.physicalOf, hshows.physical, hon.linear]
    exact hoffset

end FetchStream

/-! ## Blocks -/

/-- Mapping a page leaves the others as they are. -/
theorem mapForFetch_map (mem : FlatMemory) {a pc : UInt64} (h : pageOf pc ≠ pageOf a)
    (cpl : UInt8) : mapForFetch (mem.map a) pc cpl = mapForFetch mem pc cpl := by
  have hcontains : (mem.map a).unmapped.contains (pageOf pc) = mem.unmapped.contains (pageOf pc) := by
    rw [Bool.eq_iff_iff, List.contains_iff_mem, List.contains_iff_mem, FlatMemory.map,
      List.mem_filter, bne_iff_ne, and_iff_left h]
  rw [mapForFetch, mapForFetch, FlatMemory.translate_execute, FlatMemory.translate_execute,
    pageOf_pageOf, hcontains]
  rfl

/-- A page inside of memory that is mapped again. -/
theorem mapForFetch_map_self {mem : FlatMemory} {pc : UInt64}
    (h : (pageOf pc).toNat < mem.bytes.size) (cpl : UInt8) :
    mapForFetch (mem.map pc) pc cpl = .ok (pageOf pc) :=
  mapForFetch_flat_iff.2 ⟨rfl, fun hmem => bne_iff_ne.1 (List.mem_filter.1 hmem).2 rfl, h⟩

/-- **On a page that is gone, blocks are compiled as if it were mapped again**, once CS:RIP has been
    resolved. -/
theorem FetchStream.Shows.compileBlock_map {s : FetchStream} {pages : UInt64 → Prop}
    {mem : FlatMemory} {cpu : Cpu} {flags : ModeFlags} (h : s.Shows pages mem)
    (hon : s.IsOn cpu cpu.linearPc) (hwidth : flags.codeWidth = cpu.codeWidth) (config : Config) :
    s.Current (mem.map cpu.linearPc) ∧ compileBlock cpu (mem.map cpu.linearPc) s flags config =
      compileBlock cpu mem s flags config := by
  obtain ⟨w, hw, hwindow⟩ := hon
  exact ⟨FetchStream.forall_window_of_some hw ((h w hw).current_map hwindow),
    compileBlock_remap config rfl hwidth (FetchStream.resolve_of_covers hw hwindow.covers)
      (FetchStream.resolve_of_covers hw hwindow.covers) ⟨w, hw, hwindow⟩
      (mapForFetch_map mem (pageOf_nextPage_ne _) _)⟩

namespace Block

variable {b : Block} {config : Config} {mem mem' : FlatMemory} {spans : List PhysSpan}

/-- The block has been compiled, for some processor state, from a memory of the same size that has
    the same code. Pages may have been mapped in another way there. -/
def Stored (b : Block) (config : Config) (mem : FlatMemory) : Prop :=
  ∃ (cpu : Cpu) (mem₀ : FlatMemory) (s t : FetchStream), s.Current mem₀ ∧ s.Filled mem₀ ∧
    compileBlock cpu mem₀ s (.ofCpu cpu config.target config.disregardLock) config = (.ok b, t) ∧
    mem.bytes.size = mem₀.bytes.size ∧
    ∀ r ∈ b.ranges, ∀ a, r.Covers a → mem.bytes[a]? = mem₀.bytes[a]?

namespace Stored

/-- **A block that is compiled is stored**, even on a page that is not mapped any more. -/
theorem of_compile {cpu : Cpu} {s t : FetchStream} {pages : UInt64 → Prop}
    (hs : s.Shows pages mem) (hon : s.IsOn cpu cpu.linearPc)
    (h : compileBlock cpu mem s (.ofCpu cpu config.target config.disregardLock) config =
      (.ok b, t)) : b.Stored config mem := by
  obtain ⟨hcurrent, hsame⟩ := hs.compileBlock_map hon (ModeFlags.codeWidth_ofCpu cpu _ _) config
  refine ⟨cpu, mem.map cpu.linearPc, s, t, hcurrent, fun w hw => ?_, hsame.trans h, rfl,
    fun _ _ _ _ => rfl⟩
  exact ⟨(hs w hw).aligned, (hs w hw).filled.remap rfl⟩

/-- Blocks are stored in bytes, however the pages are mapped. -/
theorem remap (h : b.Stored config mem) (hbytes : mem'.bytes = mem.bytes) :
    b.Stored config mem' := by
  unfold Stored
  rw [hbytes]
  exact h

theorem addressable (h : b.Stored config mem) (hsize : mem.bytes.size < 2 ^ 64) :
    b.Addressable := by
  obtain ⟨cpu, mem₀, s, t, hs, -, hcompile, hsame, -⟩ := h
  obtain ⟨page, e, es, hb⟩ := makes_of_ok (ModeFlags.codeWidth_ofCpu _ _ _) hs hcompile
  exact hb.ranges_lt (show mem₀.bytes.size < 2 ^ 64 by omega)

/-- Replaying the block logs its writes. -/
theorem logs_replay (h : b.Stored config mem) : Logs (b.replay (M := FlatMemory)) := by
  obtain ⟨cpu, mem₀, s, t, hs, -, hcompile, -⟩ := h
  obtain ⟨code, hb⟩ := exists_builtFrom (ModeFlags.codeWidth_ofCpu _ _ _) hs hcompile
  exact hb.hasCode.logs_replay

/-- A block that no change meets is still in memory. -/
theorem patched (h : b.Stored config mem) (hmem : Patched spans mem mem')
    (hsize : mem.bytes.size < 2 ^ 64) (hlength : ∀ s ∈ spans, s.length < 2 ^ 64)
    (hmeets : ∀ s ∈ spans, b.meets s.start s.length.toUInt64 = false) :
    b.Stored config mem' := by
  have hranges := h.addressable hsize
  obtain ⟨cpu, mem₀, s, t, hs, hfilled, hcompile, hsame, hbytes⟩ := h
  refine ⟨cpu, mem₀, s, t, hs, hfilled, hcompile, hmem.size.trans hsame, fun r hr a ha => ?_⟩
  exact (hmem.getElem?_eq hlength hranges hmeets ⟨r, hr, ha⟩).trans (hbytes r hr a ha)

end Stored

end Block

/-! ## Lists of cached blocks -/

theorem RecencyList.lookup_eq (l : RecencyList) (physPc : UInt64) (flags : ModeFlags)
    (identity : CodeIdentity) :
    (l.lookup physPc flags identity).1 =
        (l.entries.find? (·.2.isFor physPc flags identity)).map Prod.fst ∧
      (l.lookup physPc flags identity).2.entries =
        (l.entries.find? (·.2.isFor physPc flags identity)).toList ++
          l.entries.filter (!·.2.isFor physPc flags identity) := by
  unfold lookup
  cases hfind : l.entries.find? (·.2.isFor physPc flags identity) with
  | none =>
    refine ⟨rfl, (List.filter_eq_self.2 fun e he => ?_).symm⟩
    rw [Bool.not_eq_true', Bool.eq_false_iff]
    exact List.find?_eq_none.1 hfind e he
  | some e => exact ⟨rfl, rfl⟩

namespace BlockCache

variable {c : BlockCache} {order : List Nat}

/-- **Looking up a block finds the one in the list, and moves it to the front.** -/
theorem Linked.lookupBlock (h : c.Linked order) (physPc : UInt64) (flags : ModeFlags)
    (identity : CodeIdentity) :
    ∃ order', (c.lookupBlock physPc flags identity).2.Linked order' ∧
      (c.lookupBlock physPc flags identity).2.capacity = c.capacity ∧
      (c.lookupBlock physPc flags identity).1 =
        c.toList.find? (·.2.isFor physPc flags identity) ∧
      (c.lookupBlock physPc flags identity).2.toList =
        (c.toList.find? (·.2.isFor physPc flags identity)).toList ++
          c.toList.filter (!·.2.isFor physPc flags identity) := by
  obtain ⟨order', h', hcapacity, heq⟩ := h.lookup physPc flags identity
  obtain ⟨hfound, hentries⟩ := (c.recencyList order).lookup_eq physPc flags identity
  rw [← heq] at hfound hentries
  change _ = ((c.listed order).find? _).map Prod.fst at hfound
  change _ = ((c.listed order).find? _).toList ++ (c.listed order).filter _ at hentries
  rw [← h.toList_eq] at hfound hentries
  have hget := h'.get?_eq
  have hlist : (c.lookupBlock physPc flags identity).2.toList = _ := h'.toList_eq.trans hentries
  refine ⟨order', h', hcapacity, ?_, hlist⟩
  unfold BlockCache.lookupBlock
  dsimp only at hfound ⊢
  rw [hfound]
  cases hfind : c.toList.find? (·.2.isFor physPc flags identity) with
  | none => rfl
  | some e =>
    rw [hfind] at hentries
    rw [Option.map_some, Option.bind_some, hget, RecencyList.get?, hentries, Option.toList_some,
      List.singleton_append, List.find?_cons, beq_self_eq_true]
    rfl

/-- **Removing the block at the front of the list.** -/
theorem Linked.remove_head (h : c.Linked order) {e : Handle × Block} {l : List (Handle × Block)}
    (hlist : c.toList = e :: l) :
    ∃ order', (c.remove e.1).2.Linked order' ∧ (c.remove e.1).2.capacity = c.capacity ∧
      (c.remove e.1).2.toList = l := by
  obtain ⟨order', h', hcapacity, heq⟩ := h.remove e.1
  have hentries := congrArg (RecencyList.entries ∘ Prod.snd) heq
  have hhandles := h.valid.handles
  change (c.remove e.1).2.listed order' = (c.listed order).filter (·.1 != e.1) at hentries
  change ((c.listed order).map Prod.fst).Nodup at hhandles
  rw [← h'.toList_eq, ← h.toList_eq, hlist, List.filter_cons_of_neg (by simp)] at hentries
  rw [← h.toList_eq, hlist, List.map_cons, List.nodup_cons] at hhandles
  refine ⟨order', h', hcapacity, hentries.trans (List.filter_eq_self.2 fun x hx => ?_)⟩
  rw [bne_iff_ne]
  rintro heq
  exact hhandles.1 (heq ▸ List.mem_map_of_mem hx)

/-- **Inserting a block puts it in front of the others**, as far as there is room for them. -/
theorem Linked.insert_front (h : c.Linked order) (b : Block) :
    ∃ order', (c.insert b).2.Linked order' ∧ (c.insert b).2.capacity = c.capacity ∧
      (c.insert b).2.toList = ((c.insert b).1, b) ::
        (c.toList.filter (!·.2.isFor b.physPc b.flags b.identity)).take (c.capacity - 1) := by
  obtain ⟨order', h', hcapacity, heq⟩ := h.insert b
  refine ⟨order', h', hcapacity, ?_⟩
  rw [h'.toList_eq, h.toList_eq]
  exact congrArg RecencyList.entries heq

/-- **A consistent cache drops the blocks that a write meets.** -/
theorem Consistent.drop_met (h : c.Consistent order) (start n : UInt64) :
    ∃ order', (c.invalidate start n).2.Consistent order' ∧
      (c.invalidate start n).2.capacity = c.capacity ∧
      (c.invalidate start n).2.toList =
        c.toList.filter (!·.2.intersects start.toNat n.toNat) := by
  obtain ⟨order', h', hcapacity, heq⟩ := h.invalidate start n
  refine ⟨order', ⟨h', h.sound.dropHit start n⟩, hcapacity, ?_⟩
  rw [h'.toList_eq, h.toList_eq]
  exact congrArg (RecencyList.entries ∘ Prod.snd) heq

end BlockCache

/-- The blocks of a runner that is notified of writes. -/
theorem Runner.toList_notified {r : Runner} {order : List Nat} (h : r.cache.Consistent order)
    (spans : List PhysSpan) :
    ∃ order', (spans.foldl (fun r s => (r.notifyWrite s.start s.length.toUInt64).2) r
        ).cache.Consistent order' ∧
      (spans.foldl (fun r s => (r.notifyWrite s.start s.length.toUInt64).2) r).cache.capacity =
        r.cache.capacity ∧
      (spans.foldl (fun r s => (r.notifyWrite s.start s.length.toUInt64).2) r).cache.toList =
        r.cache.toList.filter fun e =>
          spans.all fun s => !e.2.intersects s.start.toNat s.length.toUInt64.toNat := by
  induction spans generalizing r order with
  | nil => exact ⟨order, h, rfl, (List.filter_eq_self.2 fun _ _ => rfl).symm⟩
  | cons s spans ih =>
    obtain ⟨order₁, h₁, hcapacity₁, hlist₁⟩ := h.drop_met s.start s.length.toUInt64
    have hcache : (r.notifyWrite s.start s.length.toUInt64).2.cache =
      (r.cache.invalidate s.start s.length.toUInt64).2 := rfl
    rw [← hcache] at h₁ hcapacity₁ hlist₁
    obtain ⟨order', h', hcapacity, hlist⟩ := ih h₁
    refine ⟨order', h', hcapacity.trans hcapacity₁, hlist.trans ?_⟩
    rw [hlist₁, List.filter_filter]
    refine List.filter_congr fun e _ => ?_
    rw [List.all_cons, Bool.and_comm]

/-! ## Runners -/

namespace Runner

variable {pages pages' : UInt64 → Prop} {r r' : Runner} {mem mem' : FlatMemory}

/-- All cached blocks are stored in memory, and the fetch window shows the bytes of one of the given
    pages, which all mapped pages are among. -/
structure Knows (pages : UInt64 → Prop) (r : Runner) (mem : FlatMemory) : Prop where
  size : mem.bytes.size + 4096 ≤ 2 ^ 64
  mapped : ∀ pc cpl page, mapForFetch mem pc cpl = .ok page → pages page
  log : r.log = #[]
  capacity : r.cache.capacity = max r.config.cacheCapacity 1
  linked : ∃ order, r.cache.Linked order
  blocks : r.cache.Sound fun b => b.Stored r.config mem
  window : r.fetch.Shows pages mem

namespace Knows

theorem stored (h : r.Knows pages mem) {e : Handle × Block} (he : e ∈ r.cache.toList) :
    e.2.Stored r.config mem := by
  obtain ⟨order, hlinked⟩ := h.linked
  rw [hlinked.toList_eq] at he
  exact h.blocks.blocks _ _ (hlinked.mem_listed.1 he).1

theorem consistent (h : r.Knows pages mem) : ∃ order, r.cache.Consistent order := by
  obtain ⟨order, hlinked⟩ := h.linked
  have hsize := h.size
  exact ⟨order, hlinked, h.blocks.mono fun b hb => hb.addressable (by omega)⟩

theorem length_le (h : r.Knows pages mem) : r.cache.toList.length ≤ r.cache.capacity := by
  obtain ⟨order, hlinked⟩ := h.linked
  rw [hlinked.toList_eq]
  exact hlinked.valid.bounded

theorem withFetch (h : r.Knows pages mem) {fetch : FetchStream} (hfetch : fetch.Shows pages mem) :
    ({ r with fetch } : Runner).Knows pages mem :=
  ⟨h.size, h.mapped, h.log, h.capacity, h.linked, h.blocks, hfetch⟩

theorem withStats (h : r.Knows pages mem) (stats : RunStats) :
    ({ r with stats } : Runner).Knows pages mem :=
  ⟨h.size, h.mapped, h.log, h.capacity, h.linked, h.blocks, h.window⟩

theorem withCache (h : r.Knows pages mem) {cache : BlockCache} {order : List Nat}
    (hlinked : cache.Linked order) (hcapacity : cache.capacity = r.cache.capacity)
    (hblocks : cache.Sound fun b => b.Stored r.config mem) :
    ({ r with cache } : Runner).Knows pages mem :=
  ⟨h.size, h.mapped, h.log, hcapacity.trans h.capacity, ⟨order, hlinked⟩, hblocks, h.window⟩

/-- **What a runner knows of bytes it knows however the pages are mapped.** -/
theorem remap (h : r.Knows (fun _ => True) mem) (hbytes : mem'.bytes = mem.bytes) :
    r.Knows (fun _ => True) mem' :=
  ⟨hbytes ▸ h.size, fun _ _ _ _ => trivial, h.log, h.capacity, h.linked,
    h.blocks.mono fun _ hb => hb.remap hbytes, fun w hw => (h.window w hw).remap hbytes⟩

/-- **What a runner knows stays true** if it is notified of every span that memory changes in, and
    its list of blocks is that without those that have been written to. Pages may come and go. -/
theorem notified (h : r.Knows pages mem) {spans : List PhysSpan} (hmem : Patched spans mem mem')
    (hlength : ∀ s ∈ spans, s.length < 2 ^ 64)
    (hmapped : ∀ pc cpl page, mapForFetch mem' pc cpl = .ok page → pages page) :
    (spans.foldl (fun r s => (r.notifyWrite s.start s.length.toUInt64).2) r).Knows pages mem' := by
  have hsize := h.size
  have hsame : mem'.bytes.size = mem.bytes.size := hmem.size
  have hnotified := Notified.foldl spans r
  obtain ⟨order, hconsistent⟩ := h.consistent
  obtain ⟨order', hcache, hcapacity, -⟩ := toList_notified hconsistent spans
  generalize List.foldl _ r spans = r' at hnotified hcache hcapacity
  refine ⟨by omega, hmapped, hnotified.log.trans h.log, ?_, ⟨order', hcache.toLinked⟩, ?_, ?_⟩
  · rw [hcapacity, h.capacity, hnotified.config]
  · refine (hnotified.cache h.blocks fun b hb => hb.addressable (by omega)).mono fun b hb => ?_
    rw [hnotified.config]
    exact hb.1.patched hmem (by omega) hlength hb.2
  · intro w hw
    obtain ⟨hw, hmeets⟩ := hnotified.window w hw
    exact (h.window w hw).patched hmem hsize hlength hmeets

end Knows

end Runner

/-! ## States of a run -/

namespace RunState

variable {S : Type} {s s' : RunState FlatMemory S} {pages : UInt64 → Prop} {b : Block}

/-- **Executing on the processor and memory** keeps what a runner knows, and drops the blocks that
    have been written to. -/
theorem execute_knows {α : Type} {f : Machine FlatMemory → α × Machine FlatMemory} (hf : Logs f)
    (h : s.runner.Knows pages s.mem) {a : α} {m : Machine FlatMemory}
    (hrun : f ⟨s.cpu, s.mem, #[]⟩ = (a, m)) :
    ∃ runner, s.execute f = (a, ⟨runner, m.cpu, m.mem, s.sink⟩) ∧ runner.Knows pages m.mem ∧
      runner.config = s.runner.config ∧ mapForFetch m.mem = mapForFetch s.mem ∧
      runner.cache.toList = s.runner.cache.toList.filter fun e =>
        m.log.toList.all fun s => !e.2.intersects s.start.toNat s.length.toUInt64.toNat := by
  obtain ⟨⟨config, cache, fetch, log, stats⟩, cpu, mem, sink⟩ := s
  obtain rfl : log = #[] := h.log
  obtain ⟨new, hwrites, hlog⟩ := hf ⟨cpu, mem, #[]⟩
  obtain ⟨cpu', mem', log'⟩ := m
  rw [hrun] at hwrites hlog
  dsimp only at hlog
  have hsize : mem.bytes.size + 4096 ≤ 2 ^ 64 := h.size
  have hframe := hwrites.frame.1
  have hmaps : mapForFetch mem' = mapForFetch mem := by
    unfold mapForFetch
    rw [hframe.translate]
  have hlist : log'.toList = new := by
    rw [hlog, Array.toList_appendList, List.nil_append]
  have hdrain : Runner.drain ⟨config, cache, fetch, log', stats⟩ =
      new.foldl (fun r s => (r.notifyWrite s.start s.length.toUInt64).2)
        ⟨config, cache, fetch, #[], stats⟩ := by
    unfold Runner.drain
    dsimp only
    rw [← Array.foldl_toList, hlist]
  obtain ⟨order, hconsistent⟩ := h.consistent
  obtain ⟨-, -, -, htoList⟩ := Runner.toList_notified hconsistent new
  refine ⟨_, ?_, ?_, (Runner.Notified.foldl new _).config, hmaps, ?_⟩
  rotate_left
  · refine h.notified hframe.patched hwrites.length_lt ?_
    rw [hmaps]
    exact h.mapped
  · dsimp only
    rw [hlist]
    exact htoList
  · unfold execute
    dsimp only at hrun ⊢
    rw [hrun]
    dsimp only
    rw [hdrain]

/-- The cached block that is used for a physical address, with its handle. -/
def entryFor? (s : RunState FlatMemory S) (physPc : UInt64) : Option (Handle × Block) :=
  (s.runner.cache.toList.find? (·.2.isFor physPc s.flags (.ofCpu s.cpu))).filter fun e =>
    s.secondPageIsCurrent e.2

/-- The cached blocks for other code. -/
def otherEntries (s : RunState FlatMemory S) (physPc : UInt64) : List (Handle × Block) :=
  s.runner.cache.toList.filter fun e => !e.2.isFor physPc s.flags (.ofCpu s.cpu)

/-- **Looking for a cached block.** It is moved to the front, or removed if it is not current. -/
theorem cachedBlock_knows (h : s.runner.Knows pages s.mem) (physPc : UInt64) :
    ∃ cache, s.cachedBlock physPc =
        ((s.entryFor? physPc).map Prod.snd, { s with runner.cache := cache }) ∧
      ({ s.runner with cache } : Runner).Knows pages s.mem ∧
      cache.toList = (s.entryFor? physPc).toList ++ s.otherEntries physPc := by
  obtain ⟨order, hlinked⟩ := h.linked
  obtain ⟨order₁, h₁, hcapacity, hfound, hlist⟩ :=
    hlinked.lookupBlock physPc s.flags (.ofCpu s.cpu)
  have hblocks := h.blocks.lookupBlock physPc s.flags (.ofCpu s.cpu)
  unfold cachedBlock withCache entryFor? otherEntries
  dsimp only
  generalize s.runner.cache.lookupBlock physPc s.flags (.ofCpu s.cpu) = r at *
  obtain ⟨found, cache⟩ := r
  dsimp only at h₁ hcapacity hfound hlist hblocks ⊢
  rw [← hfound] at hlist ⊢
  cases found with
  | none => exact ⟨cache, rfl, h.withCache h₁ hcapacity hblocks, hlist⟩
  | some e =>
    have hcurrent : secondPageIsCurrent { s with runner.cache := cache } e.2 =
      s.secondPageIsCurrent e.2 := rfl
    dsimp only
    rw [hcurrent, Option.filter_some]
    split_ifs
    · exact ⟨cache, rfl, h.withCache h₁ hcapacity hblocks, hlist⟩
    · obtain ⟨order', h', hcapacity', hlist'⟩ := h₁.remove_head hlist
      exact ⟨_, rfl, h.withCache h' (hcapacity'.trans hcapacity) (hblocks.remove e.1), hlist'⟩

/-- **Compiling a block** fails, or puts it in front of the others. -/
theorem compiledBlock_knows (h : s.runner.Knows pages s.mem)
    (hon : s.runner.fetch.IsOn s.cpu s.cpu.linearPc) :
    (∃ f fetch, (compileBlock s.cpu s.mem s.runner.fetch s.flags s.runner.config).1 = .error f ∧
        s.compiledBlock = (.error f, { s with runner.fetch := fetch }) ∧
        ({ s.runner with fetch } : Runner).Knows pages s.mem) ∨
      ∃ b handle runner,
        (compileBlock s.cpu s.mem s.runner.fetch s.flags s.runner.config).1 = .ok b ∧
        s.compiledBlock = (.ok (some b), { s with runner }) ∧ runner.Knows pages s.mem ∧
        runner.config = s.runner.config ∧
        runner.cache.toList = (handle, b) :: (s.runner.cache.toList.filter
          (!·.2.isFor b.physPc b.flags b.identity)).take (s.runner.cache.capacity - 1) := by
  have hkept := (FetchStream.kept_shows s.cpu h.mapped).compileBlock h.window s.flags
    s.runner.config
  unfold compiledBlock
  rcases hcompile : compileBlock s.cpu s.mem s.runner.fetch s.flags s.runner.config with
    ⟨f | b, fetch⟩
  · rw [hcompile] at hkept
    exact .inl ⟨f, fetch, rfl, rfl, h.withFetch hkept⟩
  · rw [hcompile] at hkept
    obtain ⟨order, hlinked⟩ := h.linked
    obtain ⟨order', h', hcapacity, hlist⟩ := hlinked.insert_front b
    have hstored : b.Stored s.runner.config s.mem := .of_compile h.window hon hcompile
    have hget := hlinked.get?_insert b
    have hknows := ((h.withFetch hkept).withCache h' hcapacity (h.blocks.insert hstored)).withStats
      { s.runner.stats with blocksCompiled := s.runner.stats.blocksCompiled + 1 }
    refine .inr ⟨b, (s.runner.cache.insert b).1, _, rfl, ?_, hknows, rfl, hlist⟩
    exact congrArg (fun b => (Except.ok b, _)) hget

/-- The second state is reached from the first by looking for a block: only cache, window and
    statistics may have changed. -/
structure Seeks (pages : UInt64 → Prop) (s s' : RunState FlatMemory S) : Prop where
  cpu : s'.cpu = s.cpu
  mem : s'.mem = s.mem
  sink : s'.sink = s.sink
  config : s'.runner.config = s.runner.config
  knows : s'.runner.Knows pages s.mem

/-- Replaying the block that has been used last logs its writes. -/
theorem Seeks.logs_head (h : Seeks pages s s') {e : Handle × Block} {l : List (Handle × Block)}
    (hlist : s'.runner.cache.toList = e :: l) : Logs (e.2.replay (M := FlatMemory)) :=
  (h.knows.stored (hlist ▸ List.mem_cons_self)).logs_replay

variable [EventSink S]

/-- **The way to the next block** once CS:RIP has been resolved: a cached block is used, or a block
    is compiled. -/
theorem nextBlock_resolved {t : FetchStream}
    (hresolve : s.runner.fetch.resolve s.cpu s.mem s.cpu.linearPc = (.ok s.cpu.linearPc, t))
    (h : ({ s.runner with fetch := t } : Runner).Knows pages s.mem)
    (hon : t.IsOn s.cpu s.cpu.linearPc) :
    (∃ e s₁, s.entryFor? s.cpu.linearPc = some e ∧ s.nextBlock = (.block e.2, s₁) ∧
        Seeks pages s s₁ ∧ s₁.runner.cache.toList = e :: s.otherEntries s.cpu.linearPc) ∨
      s.entryFor? s.cpu.linearPc = none ∧
        ((∃ f s₁, (compileBlock s.cpu s.mem t s.flags s.runner.config).1 = .error f ∧
            s.nextBlock = (s₁.failCompile f).map .exit id ∧ Seeks pages s s₁ ∧
            s₁.runner.cache.toList = s.otherEntries s.cpu.linearPc) ∨
          ∃ b handle s₁, (compileBlock s.cpu s.mem t s.flags s.runner.config).1 = .ok b ∧
            s.nextBlock = (.block b, s₁) ∧ Seeks pages s s₁ ∧
            s₁.runner.cache.toList = (handle, b) :: ((s.otherEntries s.cpu.linearPc).filter
              (!·.2.isFor b.physPc b.flags b.identity)).take (s.runner.cache.capacity - 1)) := by
  obtain ⟨cache, hcached, hknows, hlist⟩ :=
    cachedBlock_knows (s := { s with runner.fetch := t }) h s.cpu.linearPc
  change cache.toList = (s.entryFor? s.cpu.linearPc).toList ++ s.otherEntries s.cpu.linearPc at hlist
  change _ = ((s.entryFor? s.cpu.linearPc).map Prod.snd, _) at hcached
  unfold nextBlock
  dsimp only
  rw [hresolve]
  dsimp only
  rw [hcached]
  cases hentry : s.entryFor? s.cpu.linearPc with
  | some e =>
    rw [hentry] at hlist
    exact .inl ⟨e, _, rfl, rfl, ⟨rfl, rfl, rfl, rfl, hknows⟩, hlist⟩
  | none =>
    rw [hentry] at hlist
    have hcapacity : cache.capacity = s.runner.cache.capacity :=
      hknows.capacity.trans h.capacity.symm
    refine .inr ⟨rfl, ?_⟩
    dsimp only [Option.map_none]
    obtain ⟨f, fetch, hcompile, hcompiled, hknows'⟩ |
        ⟨b, handle, runner, hcompile, hcompiled, hknows', hconfig, hlist'⟩ :=
      compiledBlock_knows (s := { s with runner.fetch := t, runner.cache := cache }) hknows hon
    · rw [hcompiled]
      exact .inl ⟨f, _, hcompile, rfl, ⟨rfl, rfl, rfl, rfl, hknows'⟩, hlist⟩
    · rw [hcompiled]
      dsimp only at hlist'
      rw [hlist, hcapacity] at hlist'
      exact .inr ⟨b, handle, _, hcompile, rfl, ⟨rfl, rfl, rfl, hconfig, hknows'⟩, hlist'⟩

theorem nextBlock_unresolved {t : FetchStream} {x : Exception}
    (hresolve : s.runner.fetch.resolve s.cpu s.mem s.cpu.linearPc = (.error x, t)) :
    s.nextBlock = (failCompile { s with runner.fetch := t } ⟨s.cpu.linearPc, x⟩).map .exit id := by
  unfold nextBlock
  dsimp only
  rw [hresolve]

/-- **What has happened on the way to the next block.** A run that ends there has lost a block at
    most, one that was not used; otherwise a block is to be replayed. -/
theorem nextBlock_knows (h : s.runner.Knows pages s.mem) :
    (∃ f s₁, s.nextBlock = (s₁.failCompile f).map .exit id ∧ Seeks pages s s₁ ∧
        (s₁.runner.cache.toList = s.runner.cache.toList ∨
          s.entryFor? s.cpu.linearPc = none ∧
            s₁.runner.cache.toList = s.otherEntries s.cpu.linearPc)) ∨
      ∃ b s₁, s.nextBlock = (.block b, s₁) ∧ Seeks pages s s₁ ∧
        Logs (b.replay (M := FlatMemory)) := by
  have hshows := (FetchStream.kept_shows s.cpu h.mapped).resolve _ s.cpu.linearPc h.window
  rcases hresolve : s.runner.fetch.resolve s.cpu s.mem s.cpu.linearPc with ⟨x | a, t⟩
  · rw [hresolve] at hshows
    exact .inl ⟨_, _, nextBlock_unresolved hresolve,
      ⟨rfl, rfl, rfl, rfl, h.withFetch hshows⟩, .inl rfl⟩
  · rw [hresolve] at hshows
    obtain ⟨rfl, -, hon⟩ := h.window.resolve_ok hresolve
    obtain ⟨e, s₁, -, hnext, hseeks, hlist⟩ | ⟨hnone, ⟨f, s₁, -, hnext, hseeks, hlist⟩ |
        ⟨b, handle, s₁, -, hnext, hseeks, hlist⟩⟩ :=
      nextBlock_resolved hresolve (h.withFetch hshows) hon
    · exact .inr ⟨e.2, s₁, hnext, hseeks, hseeks.logs_head hlist⟩
    · exact .inl ⟨f, s₁, hnext, hseeks, .inr ⟨hnone, hlist⟩⟩
    · exact .inr ⟨b, s₁, hnext, hseeks, hseeks.logs_head hlist⟩

theorem knows_stop (h : s.runner.Knows pages s.mem) (reason : Stop) :
    (s.stop reason).2.runner.Knows pages (s.stop reason).2.mem := by
  cases reason <;> exact h

theorem knows_singleStep (h : s.runner.Knows pages s.mem) :
    s.singleStep.2.runner.Knows pages s.singleStep.2.mem := by
  rcases hstep : Exec.step ⟨s.cpu, s.mem, #[]⟩ with ⟨r, m⟩
  obtain ⟨runner, hexecute, hknows, -⟩ := execute_knows logs_step h hstep
  unfold singleStep
  rw [hexecute]
  obtain x | _ | _ | reason := r
  · exact hknows
  · exact hknows.withStats _
  · exact hknows.withStats _
  · exact knows_stop (hknows.withStats _) reason

theorem knows_replayBlock (h : s.runner.Knows pages s.mem)
    (hb : Logs (b.replay (M := FlatMemory))) :
    (s.replayBlock b).2.runner.Knows pages (s.replayBlock b).2.mem := by
  rcases hreplay : b.replay ⟨s.cpu, s.mem, #[]⟩ with ⟨r, m⟩
  obtain ⟨runner, hexecute, hknows, -⟩ := execute_knows
    (s := s.modifyStats fun t => { t with blocksExecuted := t.blocksExecuted + 1 }) hb
    (h.withStats _) hreplay
  unfold replayBlock
  dsimp only
  rw [hexecute]
  obtain f | ⟨_ | _ | _ | reason, n⟩ := r
  · exact hknows.withStats _
  · exact hknows.withStats _
  · exact hknows.withStats _
  · exact hknows.withStats _
  · exact knows_stop (hknows.withStats _) reason

/-- **A run keeps what the runner knows.** -/
theorem knows_loop (fuel blocks : Nat) (h : s.runner.Knows pages s.mem) :
    (s.loop fuel blocks).2.runner.Knows pages (s.loop fuel blocks).2.mem := by
  induction fuel generalizing blocks s with
  | zero => exact h
  | succ fuel ih =>
    rw [loop]
    rcases hexit : s.exitBefore blocks with _ | result
    · dsimp only
      obtain ⟨f, s₁, hnext, hseeks, -⟩ | ⟨b, s₁, hnext, hseeks, hlogs⟩ := nextBlock_knows h
      · rw [hnext]
        exact (hseeks.mem.symm ▸ hseeks.knows).withStats _
      · have hreplay := knows_replayBlock (hseeks.mem.symm ▸ hseeks.knows) hlogs
        rw [hnext]
        dsimp only
        generalize s₁.replayBlock b = replayed at hreplay ⊢
        obtain ⟨_ | e, s₂⟩ := replayed
        · exact ih (blocks + 1) hreplay
        · exact hreplay
    · obtain hsame | rfl := exitBefore_some hexit
      · dsimp only
        rw [hsame]
        exact h
      · exact knows_singleStep h

end RunState

/-! ## Runners with all writes reported -/

/-- A runner and the flat memory it runs on, after any number of runs, for any processor states and
    receivers. Between runs the runner may be flushed, memory may change in the spans that are
    reported, and its pages may be mapped in another way without a report. -/
inductive Runner.Reported : Runner → FlatMemory → Prop
  | new {config : Config} {r : Runner} {mem : FlatMemory} :
      Runner.ofConfig? config = .ok r → mem.bytes.size + 4096 ≤ 2 ^ 64 → Reported r mem
  | run {S : Type} [EventSink S] (s : RunState FlatMemory S) :
      Reported s.runner s.mem → Reported s.run.2.runner s.run.2.mem
  | flush {r : Runner} {mem : FlatMemory} : Reported r mem → Reported r.flush mem
  | outside {r : Runner} {mem mem' : FlatMemory} (spans : List PhysSpan) :
      Reported r mem → (∀ s ∈ spans, s.length < 2 ^ 64) → Patched spans mem mem' →
      Reported (spans.foldl (fun r s => (r.notifyWrite s.start s.length.toUInt64).2) r) mem'

/-- **Such a runner knows what is in memory**, if not on which pages. -/
theorem Runner.Reported.knows {r : Runner} {mem : FlatMemory} (h : r.Reported mem) :
    r.Knows (fun _ => True) mem := by
  induction h with
  | @new config r mem hnew hsize =>
    unfold Runner.ofConfig? at hnew
    cases hvalid : config.validate with
    | error x =>
      rw [hvalid] at hnew
      cases hnew
    | ok =>
      rw [hvalid] at hnew
      cases hnew
      exact ⟨hsize, fun _ _ _ _ => trivial, rfl, rfl, ⟨_, .empty _ _⟩, .empty _ _,
        fun _ hw => nomatch hw⟩
  | run s _ ih => exact RunState.knows_loop _ _ ih
  | @flush r mem _ ih =>
    obtain ⟨order, hlinked⟩ := ih.linked
    obtain ⟨hflush, hcapacity, -⟩ := hlinked.flush
    have hdrop : r.fetch.drop.Shows (fun _ => True) mem := FetchStream.forall_window_of_none rfl
    exact (ih.withFetch hdrop).withCache hflush hcapacity (.flush _)
  | outside spans _ hlength hmem ih => exact ih.notified hmem hlength fun _ _ _ _ => trivial

end X86Replay

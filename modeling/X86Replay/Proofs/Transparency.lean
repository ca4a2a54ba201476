import X86Replay.Proofs.Epochs

/-!
# The fetch window is transparent

A fetch stream that has been used gives the answers of a new one, as long as writes are reported to
it and epochs tell where code pages are mapped.

* `FetchHistory`: a stream after any calls in any order, what has happened to processor and memory
  meanwhile, and the writes that have not been reported yet.
* `FetchWindow.Tracks`: what a window knows of memory while writes are pending.
* `FetchHistory.tracks`: this survives every call and every change.
* `FetchHistory.fetch_eq`: no stale byte or address ever escapes.
-/

namespace X86Replay

variable {M : Type} [GuestMemory M]

/-! ## Fetching -/

/-- What is found at a program counter: its physical address and the code bytes there. -/
def FetchStream.fetch (s : FetchStream) (cpu : Cpu) (mem : M) (pc : UInt64) (limit : Nat) :
    Except Exception (UInt64 × Except Exception (List UInt8)) :=
  match s.resolve cpu mem pc with
  | (.error e, _) => .error e
  | (.ok a, s) => .ok (a, (s.copyBytes mem pc limit).1)

variable [PhysicalMemory M]

/-! ## Histories -/

/-- A stream that was new once, the present and the past moments, and the writes that have not been
    reported to the stream yet. Its calls may come in any order. -/
inductive FetchHistory : Moment M → List (Moment M) → FetchStream → List PhysSpan → Prop
  | new (now : Moment M) : FetchHistory now [] {} []
  | resolve {now : Moment M} {past : List (Moment M)} {s : FetchStream} {pending : List PhysSpan}
      (pc : UInt64) :
      FetchHistory now past s pending →
      FetchHistory now past (s.resolve now.cpu now.mem pc).2 pending
  | copyBytes {now : Moment M} {past : List (Moment M)} {s : FetchStream} {pending : List PhysSpan}
      (pc : UInt64) (limit : Nat) :
      FetchHistory now past s pending →
      FetchHistory now past (s.copyBytes now.mem pc limit).2 pending
  | drop {now : Moment M} {past : List (Moment M)} {s : FetchStream} {pending : List PhysSpan} :
      FetchHistory now past s pending → FetchHistory now past s.drop pending
  | dropWritten {now : Moment M} {past : List (Moment M)} {s : FetchStream}
      {pending : List PhysSpan} (start n : UInt64) :
      FetchHistory now past s pending →
      FetchHistory now past (s.dropWritten start n) (pending.filter (· ≠ ⟨start, n.toNat⟩))
  | change {now : Moment M} {past : List (Moment M)} {s : FetchStream} {pending : List PhysSpan}
      (next : Moment M) (spans : List PhysSpan) :
      Patched spans now.mem next.mem →
      FetchHistory now past s pending → FetchHistory next (now :: past) s (pending ++ spans)

/-- What a window knows of memory: it has been made at one of the moments, in whole chunks, and its
    bytes are those of memory except where a write is pending. -/
structure FetchWindow.Tracks (w : FetchWindow) (moments : List (Moment M)) (mem : M)
    (pending : List PhysSpan) : Prop where
  aligned : pageOf w.linear = w.linear
  made : w.MadeAt moments
  chunks : w.loaded.size % fetchChunk = 0
  size : w.loaded.size ≤ 4096
  inside : w.loaded = #[] ∨ w.physical.toNat + w.loaded.size ≤ (cells mem).size
  holds : ∀ i < w.loaded.size,
    (∀ p ∈ pending, w.physical.toNat + i < p.start.toNat ∨
      p.start.toNat + p.length ≤ w.physical.toNat + i) →
    (cells mem)[w.physical.toNat + i]? = w.loaded[i]?

namespace FetchWindow.Tracks

variable {w w' : FetchWindow} {moments : List (Moment M)} {mem mem' : M}
  {pending spans : List PhysSpan}

theorem physical_mod (h : w.Tracks moments mem pending) : w.physical.toNat % 4096 = 0 := by
  obtain ⟨x, -, -, hmapped⟩ := h.made
  exact mapForFetch_mod hmapped

/-- A window that has just been made knows nothing yet. -/
theorem new {now : Moment M} {past : List (Moment M)} {pc page : UInt64}
    (h : mapForFetch now.mem pc now.cpu.cpl = .ok page) :
    FetchWindow.Tracks ⟨pageOf pc, page, #[], now.cpu.epoch, now.cpu.cpl⟩ (now :: past) now.mem
      pending where
  aligned := pageOf_pageOf pc
  made := ⟨now, List.mem_cons_self, rfl, by rwa [mapForFetch_congr (pageOf_pageOf pc)]⟩
  chunks := rfl
  size := Nat.zero_le _
  inside := .inl rfl
  holds i hi := absurd hi (Nat.not_lt_zero i)

/-- What is read additionally is what memory has now. -/
theorem loadTo (h : w.Tracks moments mem pending) {n : Nat} (hload : w.loadTo mem n = .ok w') :
    w'.Tracks moments mem pending := by
  obtain ⟨-, rfl⟩ | ⟨-, bytes, hread, rfl⟩ := loadTo_cases hload
  · exact h
  · have hlength := length_readBytes hread
    have hpage := h.size
    have hphysical := h.physical_mod
    have htop := w.physical.toNat_lt
    have hsize : (w.loaded ++ bytes.toArray).size = w.loaded.size + bytes.length := by
      simp
    have htarget := target_le_page n
    by_cases hfull : w.loaded.size = 4096
    · -- Nothing is read behind a page that is there as a whole.
      have hnil : bytes = [] := List.eq_nil_of_length_eq_zero (by omega)
      rw [hnil, Array.append_empty]
      exact h
    · have hstart : (w.physical + w.loaded.size.toUInt64).toNat =
          w.physical.toNat + w.loaded.size := toNat_add_toUInt64 (by omega)
      obtain ⟨hinside, hbytes⟩ := (PhysicalMemory.readBytes_ok mem _ _ bytes).1 hread
      rw [hstart] at hinside hbytes
      refine ⟨h.aligned, h.made, ?_, ?_, .inr ?_, fun i hi hfree => ?_⟩
      · have hchunks := h.chunks
        have hmod := target_mod n
        rw [hsize, hlength]
        unfold fetchChunk at *
        omega
      · show (w.loaded ++ bytes.toArray).size ≤ 4096
        omega
      · show w.physical.toNat + (w.loaded ++ bytes.toArray).size ≤ _
        omega
      · show (cells mem)[w.physical.toNat + i]? = (w.loaded ++ bytes.toArray)[i]?
        by_cases hold : i < w.loaded.size
        · rw [Array.getElem?_append_left hold]
          exact h.holds i hold hfree
        · change i < (w.loaded ++ bytes.toArray).size at hi
          rw [Array.getElem?_append_right (by omega), List.getElem?_toArray, hbytes,
            Array.getElem?_toList, Array.getElem?_extract, if_pos (by omega)]
          congr 1
          omega

/-- A change of memory is one more pending write. -/
theorem change (h : w.Tracks moments mem pending) (hmem : Patched spans mem mem') (x : Moment M) :
    w.Tracks (x :: moments) mem' (pending ++ spans) where
  aligned := h.aligned
  made := by
    obtain ⟨y, hy, hmade⟩ := h.made
    exact ⟨y, List.mem_cons_of_mem x hy, hmade⟩
  chunks := h.chunks
  size := h.size
  inside := by
    rw [hmem.size]
    exact h.inside
  holds i hi hfree := by
    rw [hmem.bytes _ fun p hp => hfree p (List.mem_append_right _ hp)]
    exact h.holds i hi fun p hp => hfree p (List.mem_append_left _ hp)

/-- A report that does not meet the window concerns none of its bytes. -/
theorem report (h : w.Tracks moments mem pending) (hsize : (cells mem).size + 4096 ≤ 2 ^ 64)
    {start n : UInt64} (hmeets : w.meets start n = false) :
    w.Tracks moments mem (pending.filter (· ≠ ⟨start, n.toNat⟩)) where
  aligned := h.aligned
  made := h.made
  chunks := h.chunks
  size := h.size
  inside := h.inside
  holds i hi hfree := by
    have hinside : w.physical.toNat + w.loaded.size ≤ (cells mem).size := by
      refine h.inside.resolve_left fun hempty => ?_
      rw [hempty] at hi
      exact absurd hi (Nat.not_lt_zero i)
    have hpage := h.size
    have hchunks := h.chunks
    apply h.holds i hi
    intro p hp
    by_cases hreported : p = ⟨start, n.toNat⟩
    · subst hreported
      by_contra hcovers
      refine Bool.eq_false_iff.1 hmeets ((FetchWindow.meets_iff ?_).2 ?_)
      · unfold fetchChunk at hchunks
        omega
      · refine ⟨w.physical.toNat + i, ?_⟩
        dsimp only at hcovers
        omega
    · exact hfree p (List.mem_filter.2 ⟨hp, by simpa using hreported⟩)

/-- Without pending writes the window has been read from memory as it is. -/
theorem filled (h : w.Tracks moments mem []) : w.Filled mem where
  aligned := h.physical_mod
  chunks := h.chunks
  size := h.size
  read := by
    refine h.inside.imp id fun hinside => ?_
    refine (PhysicalMemory.readBytes_ok mem _ _ _).2 ⟨hinside, ?_⟩
    refine List.ext_getElem? fun i => ?_
    rw [Array.getElem?_toList, Array.getElem?_toList, Array.getElem?_extract]
    by_cases hi : i < w.loaded.size
    · rw [if_pos (by omega), h.holds i hi fun p hp => absurd hp List.not_mem_nil]
    · rw [if_neg (by omega), Array.getElem?_eq_none (by omega)]

end FetchWindow.Tracks

/-! ## Streams that track memory -/

namespace FetchStream

variable {s : FetchStream} {now : Moment M} {past moments : List (Moment M)} {mem mem' : M}
  {pending spans : List PhysSpan}

/-- What the stream knows of memory is what its window knows. -/
def Tracks (s : FetchStream) (moments : List (Moment M)) (mem : M) (pending : List PhysSpan) :
    Prop :=
  ∀ w, s.window = some w → w.Tracks moments mem pending

theorem Tracks.resolve (h : s.Tracks (now :: past) now.mem pending) (pc : UInt64) :
    (s.resolve now.cpu now.mem pc).2.Tracks (now :: past) now.mem pending := by
  rcases hfilter : s.window.filter (·.covers now.cpu pc) with _ | w
  · rw [resolve_of_missing hfilter]
    rcases hmapped : mapForFetch now.mem pc now.cpu.cpl with e | page
    · exact forall_window_of_none rfl
    · exact forall_window_of_some rfl (FetchWindow.Tracks.new hmapped)
  · obtain ⟨hw, hcovers⟩ := Option.filter_eq_some_iff.1 hfilter
    rw [resolve_of_covers hw hcovers]
    exact forall_window_of_some hw (h w hw)

theorem Tracks.copyBytes (h : s.Tracks moments mem pending) (pc : UInt64) (limit : Nat) :
    (s.copyBytes mem pc limit).2.Tracks moments mem pending :=
  forall_window_copyBytes h (fun _ _ _ hw hload => hw.loadTo hload) pc limit

theorem Tracks.dropWritten (h : s.Tracks moments mem pending)
    (hsize : (cells mem).size + 4096 ≤ 2 ^ 64) (start n : UInt64) :
    (s.dropWritten start n).Tracks moments mem (pending.filter (· ≠ ⟨start, n.toNat⟩)) := by
  unfold FetchStream.dropWritten
  split_ifs with hmeets
  · exact forall_window_of_none rfl
  · intro w hw
    rw [hw, Option.any_some, Bool.not_eq_true] at hmeets
    exact (h w hw).report hsize hmeets

end FetchStream

/-- **Every call and every change keeps track of memory.** -/
theorem FetchHistory.tracks {now : Moment M} {past : List (Moment M)} {s : FetchStream}
    {pending : List PhysSpan} (h : FetchHistory now past s pending)
    (hsize : (cells now.mem).size + 4096 ≤ 2 ^ 64) :
    s.Tracks (now :: past) now.mem pending := by
  induction h with
  | new now => exact FetchStream.forall_window_of_none rfl
  | resolve pc _ ih => exact (ih hsize).resolve pc
  | copyBytes pc limit _ ih => exact (ih hsize).copyBytes pc limit
  | drop _ _ => exact FetchStream.forall_window_of_none rfl
  | dropWritten start n _ ih => exact (ih hsize).dropWritten hsize start n
  | change next spans hmem _ ih =>
    rw [hmem.size] at hsize
    exact fun w hw => ((ih hsize) w hw).change hmem next

/-! ## Answers -/

namespace FetchStream

/-- A stream with no write pending resolves as a new one does, and both then have windows from which
    the same bytes can be copied. -/
theorem Tracks.resolve_twin {s : FetchStream} {now : Moment M} {past : List (Moment M)}
    (h : s.Tracks (now :: past) now.mem []) (hepochs : EpochsTell (now :: past)) (pc : UInt64) :
    (∃ e t t', s.resolve now.cpu now.mem pc = (.error e, t) ∧
        ({} : FetchStream).resolve now.cpu now.mem pc = (.error e, t')) ∨
      ∃ a t t', s.resolve now.cpu now.mem pc = (.ok a, t) ∧
        ({} : FetchStream).resolve now.cpu now.mem pc = (.ok a, t') ∧
        Twin now.mem t now.cpu pc t' now.cpu pc := by
  have hempty : ({} : FetchStream).window.filter (·.covers now.cpu pc) = none := rfl
  rw [resolve_of_missing hempty]
  rcases hfilter : s.window.filter (·.covers now.cpu pc) with _ | w
  · rw [resolve_of_missing hfilter]
    rcases mapForFetch now.mem pc now.cpu.cpl with e | page
    · exact .inl ⟨e, _, _, rfl, rfl⟩
    · exact .inr ⟨_, _, _, rfl, rfl, _, _, rfl, rfl, ⟨rfl, rfl, rfl⟩, ⟨rfl, rfl, rfl⟩, rfl,
        .inl rfl⟩
  · -- The window was made when the epoch was the present one, so the page is still mapped there.
    obtain ⟨hw, hcovers⟩ := Option.filter_eq_some_iff.1 hfilter
    have htracks := h w hw
    have hon := FetchWindow.IsOn.of_covers hcovers htracks.aligned
    have hmapped := htracks.made.mapped hepochs List.mem_cons_self hon.epoch
    rw [hon.cpl, hon.linear, mapForFetch_congr (pageOf_pageOf pc)] at hmapped
    rw [resolve_of_covers hw hcovers, hmapped]
    have hphysical : w.physicalOf pc =
        FetchWindow.physicalOf ⟨pageOf pc, w.physical, #[], now.cpu.epoch, now.cpu.cpl⟩ pc := by
      rw [FetchWindow.physicalOf, hon.linear]
      rfl
    refine .inr ⟨_, _, _, Prod.ext (congrArg Except.ok hphysical) rfl, rfl, w, _, hw, rfl, hon,
      ⟨rfl, rfl, rfl⟩, rfl, .inr ⟨readsInPortions now.mem, htracks.filled, ?_⟩⟩
    exact ⟨htracks.physical_mod, rfl, Nat.zero_le _, .inl rfl⟩

/-- Flat memory fails to read in one way only. -/
theorem copyBytes_error_flat {s t : FetchStream} {mem : FlatMemory} {pc : UInt64} {limit : Nat}
    {e : Exception} (h : s.copyBytes mem pc limit = (.error e, t)) : e = .generalProtection 0 := by
  obtain ⟨-, w, -, k, -, hread⟩ := copyBytes_error h
  change (FlatMemory.readFlat mem _ _).map Vector.toList = .error e at hread
  unfold FlatMemory.readFlat at hread
  split_ifs at hread
  · cases hread
  · cases hread
    rfl

/-- From twin windows on flat memory the same bytes are copied, or the same exception is raised. -/
theorem Twin.copyBytes_flat {s s' : FetchStream} {mem : FlatMemory} {cpu cpu' : Cpu}
    {pc : UInt64} (h : Twin mem s cpu pc s' cpu' pc) (limit : Nat) :
    (s.copyBytes mem pc limit).1 = (s'.copyBytes mem pc limit).1 := by
  have hcopy := (h.copyBytes limit rfl).1
  rcases hbytes : s.copyBytes mem pc limit with ⟨e | bytes, t⟩
  · rcases hbytes' : s'.copyBytes mem pc limit with ⟨e' | bytes', t'⟩
    · rw [copyBytes_error_flat hbytes, copyBytes_error_flat hbytes']
    · rw [hbytes, hbytes'] at hcopy
      cases hcopy
  · rcases hbytes' : s'.copyBytes mem pc limit with ⟨e' | bytes', t'⟩
    · rw [hbytes, hbytes'] at hcopy
      cases hcopy
    · rw [hbytes, hbytes'] at hcopy
      cases hcopy
      rfl

end FetchStream

/-- **The fetch window is transparent.** After any calls in any order and any changes around it,
    with all writes reported and epochs that tell where code pages are mapped, a stream gives the
    physical address, the bytes or the exception that a new one gives. -/
theorem FetchHistory.fetch_eq {now : Moment FlatMemory} {past : List (Moment FlatMemory)}
    {s : FetchStream} (h : FetchHistory now past s []) (hepochs : EpochsTell (now :: past))
    (hsize : now.mem.bytes.size + 4096 ≤ 2 ^ 64) (pc : UInt64) (limit : Nat) :
    s.fetch now.cpu now.mem pc limit = ({} : FetchStream).fetch now.cpu now.mem pc limit := by
  unfold FetchStream.fetch
  obtain ⟨e, t, t', ht, ht'⟩ | ⟨a, t, t', ht, ht', htwin⟩ :=
    (h.tracks hsize).resolve_twin hepochs pc
  · rw [ht, ht']
  · rw [ht, ht']
    dsimp only
    rw [htwin.copyBytes_flat]

/-- The same after code has been fetched, overwritten and fetched again, and then another page has
    been unmapped. -/
theorem FetchHistory.fetch_eq_unmapped :
    ∃ (now : Moment FlatMemory) (past : List (Moment FlatMemory)) (s : FetchStream),
      FetchHistory now past s [] ∧ EpochsTell (now :: past) ∧
      now.mem.bytes.size + 4096 ≤ 2 ^ 64 ∧ s.hits = 1 ∧ s.misses = 2 ∧
      s.fetch now.cpu now.mem 0 2 = ({} : FetchStream).fetch now.cpu now.mem 0 2 ∧
      s.fetch now.cpu now.mem 0 2 = .ok (0, .ok [0x90, 0]) := by
  obtain ⟨m₀, hm₀⟩ : ∃ m : Moment FlatMemory, m = ⟨Cpu.realMode, FlatMemory.zeros 64⟩ := ⟨_, rfl⟩
  obtain ⟨m₁, hm₁⟩ : ∃ m : Moment FlatMemory, m = ⟨m₀.cpu, m₀.mem.load 0 [0x90]⟩ := ⟨_, rfl⟩
  obtain ⟨m₂, hm₂⟩ : ∃ m : Moment FlatMemory, m = ⟨m₁.cpu.bumpEpoch, m₁.mem.unmap 0x1000⟩ :=
    ⟨_, rfl⟩
  have hwritten : Patched [⟨0, 1⟩] m₀.mem m₁.mem := by
    rw [hm₁]
    exact ⟨FlatMemory.size_splice _ _ _, fun a ha =>
      FlatMemory.getElem?_splice _ _ _ (ha ⟨0, 1⟩ (List.mem_singleton.2 rfl))⟩
  have hunmapped : Patched [] m₁.mem m₂.mem := by
    rw [hm₂]
    exact ⟨rfl, fun _ _ => rfl⟩
  have hsame : mapForFetch m₁.mem = mapForFetch m₀.mem := by
    funext pc cpl
    rw [hm₁, mapForFetch, FlatMemory.translate_load, mapForFetch]
  have hepochs : EpochsTell [m₂, m₁, m₀] := by
    have hbumped : Bumped 0 [m₁, m₀] :=
      .next m₁ 0 (by rw [hm₁]; simp) (fun hne => absurd hsame hne) (.first m₀)
    have hlatest : Bumped 1 [m₂, m₁, m₀] :=
      .next m₂ 1 (by rw [hm₂]; rfl) (fun _ => Nat.one_pos) hbumped
    exact hlatest.epochsTell (by decide)
  have hfirst := ((FetchHistory.new m₀).resolve 0).copyBytes 0 15
  have hsecond := (((hfirst.change m₁ _ hwritten).dropWritten 0 1).resolve 0).resolve 0
  have hlast := hsecond.change m₂ _ hunmapped
  have hsize : m₂.mem.bytes.size + 4096 ≤ 2 ^ 64 := by
    rw [hm₂, hm₁, hm₀]
    decide +kernel
  refine ⟨m₂, _, _, hlast, hepochs, hsize, ?_, ?_, hlast.fetch_eq hepochs hsize 0 2, ?_⟩
  · rw [hm₁, hm₀]
    decide +kernel
  · rw [hm₁, hm₀]
    decide +kernel
  · rw [hlast.fetch_eq hepochs hsize, hm₂, hm₁, hm₀]
    decide +kernel

/-- A stream need not be transparent if each change of the mapping comes with a change of the epoch,
    but epochs do not tell: when the epoch of a window is in force again after its page has been
    unmapped, and when a page is unmapped only after the new epoch has been used. -/
theorem FetchHistory.fetch_ne_unmapped :
    (∃ (m₀ m₁ m₂ : Moment FlatMemory) (s : FetchStream),
      m₀ = ⟨Cpu.realMode, FlatMemory.zeros 64⟩ ∧ m₁ = ⟨m₀.cpu.bumpEpoch, m₀.mem.unmap 0⟩ ∧
      m₂ = ⟨m₀.cpu, m₁.mem⟩ ∧ FetchHistory m₂ [m₁, m₀] s [] ∧
      m₁.cpu.epoch ≠ m₀.cpu.epoch ∧ mapForFetch m₂.mem = mapForFetch m₁.mem ∧
      s.fetch m₂.cpu m₂.mem 0 2 ≠ ({} : FetchStream).fetch m₂.cpu m₂.mem 0 2) ∧
    ∃ (m₀ m₁ m₂ : Moment FlatMemory) (s : FetchStream),
      m₀ = ⟨Cpu.realMode, FlatMemory.zeros 64⟩ ∧ m₁ = ⟨m₀.cpu.bumpEpoch, m₀.mem⟩ ∧
      m₂ = ⟨m₁.cpu, m₁.mem.unmap 0⟩ ∧ FetchHistory m₂ [m₁, m₀] s [] ∧
      s.fetch m₂.cpu m₂.mem 0 2 ≠ ({} : FetchStream).fetch m₂.cpu m₂.mem 0 2 := by
  have hunmap (mem : FlatMemory) (page : UInt64) : Patched [] mem (mem.unmap page) :=
    ⟨rfl, fun _ _ => rfl⟩
  have hkeep (mem : FlatMemory) : Patched [] mem mem := ⟨rfl, fun _ _ => rfl⟩
  obtain ⟨m₀, hm₀⟩ : ∃ m : Moment FlatMemory, m = ⟨Cpu.realMode, FlatMemory.zeros 64⟩ := ⟨_, rfl⟩
  constructor
  · obtain ⟨m₁, hm₁⟩ : ∃ m : Moment FlatMemory, m = ⟨m₀.cpu.bumpEpoch, m₀.mem.unmap 0⟩ := ⟨_, rfl⟩
    obtain ⟨m₂, hm₂⟩ : ∃ m : Moment FlatMemory, m = ⟨m₀.cpu, m₁.mem⟩ := ⟨_, rfl⟩
    have hfirst := ((FetchHistory.new m₀).resolve 0).change m₁ [] (by rw [hm₁]; exact hunmap _ _)
    have hlast := hfirst.change m₂ [] (by rw [hm₂]; exact hkeep _)
    have hepoch : m₁.cpu.epoch ≠ m₀.cpu.epoch := by
      rw [hm₁, hm₀]
      decide
    refine ⟨m₀, m₁, m₂, _, hm₀, hm₁, hm₂, hlast, hepoch, by rw [hm₂], ?_⟩
    rw [hm₂, hm₁, hm₀]
    decide +kernel
  · obtain ⟨m₁, hm₁⟩ : ∃ m : Moment FlatMemory, m = ⟨m₀.cpu.bumpEpoch, m₀.mem⟩ := ⟨_, rfl⟩
    obtain ⟨m₂, hm₂⟩ : ∃ m : Moment FlatMemory, m = ⟨m₁.cpu, m₁.mem.unmap 0⟩ := ⟨_, rfl⟩
    have hfirst := (FetchHistory.new m₀).change m₁ [] (by rw [hm₁]; exact hkeep _)
    have hlast := (hfirst.resolve 0).change m₂ [] (by rw [hm₂]; exact hunmap _ _)
    refine ⟨m₀, m₁, m₂, _, hm₀, hm₁, hm₂, hlast, ?_⟩
    rw [hm₂, hm₁, hm₀]
    decide +kernel

end X86Replay

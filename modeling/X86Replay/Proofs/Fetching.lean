import X86Replay.Fetch
import X86Replay.Proofs.Pages

/-!
# What a fetch window shows

* `ReadsByte`, `HoldsBytes`: bytes of physical memory, as successful reads find them.
* `FetchWindow.ReadFails`: reading on to some byte of a page fails.
* `FetchWindow.Current`: the page of the window is mapped where the window says, and the bytes that
  have been read are those of memory.
* `FetchStream.resolve_ok`, `FetchStream.copyBytes_ok`: an answer from a current window is that of
  memory, and the window stays current.
* `FetchStream.resolve_error`, `FetchStream.copyBytes_error`: only translating and reading can fail.
-/

namespace X86Replay

variable {M : Type} [GuestMemory M]

/-! ## Bytes of memory -/

/-- A successful read has found the byte at a physical address. -/
def ReadsByte (mem : M) (a : Nat) (b : UInt8) : Prop :=
  ∃ start n bytes i, readBytes mem start n = .ok bytes ∧ bytes[i]? = some b ∧ start.toNat + i = a

/-- Successful reads have found the bytes from a physical address on. -/
def HoldsBytes (mem : M) (a : Nat) (bytes : List UInt8) : Prop :=
  ∀ i b, bytes[i]? = some b → ReadsByte mem (a + i) b

theorem HoldsBytes.nil (mem : M) (a : Nat) : HoldsBytes mem a [] := fun i b h => by
  rw [List.getElem?_nil] at h
  cases h

theorem HoldsBytes.of_read {mem : M} {start : UInt64} {n : Nat} {bytes : List UInt8}
    (h : readBytes mem start n = .ok bytes) : HoldsBytes mem start.toNat bytes := fun i _ hi =>
  ⟨start, n, bytes, i, h, hi, rfl⟩

theorem HoldsBytes.append {mem : M} {a : Nat} {bytes bytes' : List UInt8}
    (h : HoldsBytes mem a bytes) (h' : HoldsBytes mem (a + bytes.length) bytes') :
    HoldsBytes mem a (bytes ++ bytes') := by
  intro i b hi
  by_cases hlt : i < bytes.length
  · rw [List.getElem?_append_left hlt] at hi
    exact h i b hi
  · rw [List.getElem?_append_right (by omega)] at hi
    have hbyte := h' _ b hi
    rwa [show a + bytes.length + (i - bytes.length) = a + i by omega] at hbyte

/-- A part of bytes that are held is held further on. -/
theorem HoldsBytes.extract {mem : M} {a : Nat} {bytes : Array UInt8}
    (h : HoldsBytes mem a bytes.toList) (k n : Nat) :
    HoldsBytes mem (a + k) (bytes.extract k (k + n)).toList := by
  intro i b hi
  rw [Array.getElem?_toList, Array.getElem?_extract] at hi
  split_ifs at hi
  rw [← Array.getElem?_toList] at hi
  rw [Nat.add_assoc]
  exact h (k + i) b hi

/-! ## Windows -/

/-- The page that code is fetched from starts a page of physical memory. -/
theorem mapForFetch_mod {mem : M} {pc page : UInt64} {cpl : UInt8}
    (h : mapForFetch mem pc cpl = .ok page) : page.toNat % 4096 = 0 := by
  unfold mapForFetch at h
  cases ha : translate mem (pageOf pc) .execute cpl with
  | error e => rw [ha] at h; cases h
  | ok a =>
    rw [ha] at h
    cases h
    exact pageOf_mod a

theorem pageOf_pageOf (a : UInt64) : pageOf (pageOf a) = pageOf a := by
  unfold pageOf
  rw [UInt64.and_assoc, UInt64.and_self]

theorem mapForFetch_congr {pc pc' : UInt64} (h : pageOf pc = pageOf pc') (mem : M) (cpl : UInt8) :
    mapForFetch mem pc cpl = mapForFetch mem pc' cpl := by
  rw [mapForFetch, h, mapForFetch]

namespace FetchWindow

variable {w w' : FetchWindow} {mem : M} {n : Nat}

/-! ### Reading on -/

/-- The place of an address in its page is what it is behind the page start. -/
theorem toNat_sub_pageOf (pc : UInt64) : (pc - pageOf pc).toNat = pc.toNat % 4096 := by
  have hle : pageOf pc ≤ pc := by
    rw [UInt64.le_iff_toNat_le, toNat_pageOf]
    omega
  rw [UInt64.toNat_sub_of_le _ _ hle, toNat_pageOf]
  omega

/-- How far a window is read to have its first `n` bytes. -/
def target (n : Nat) : Nat :=
  min ((n + fetchChunk - 1) / fetchChunk * fetchChunk) pageSize.toNat

theorem le_target (h : n ≤ 4096) : n ≤ target n := by
  have hsize : pageSize.toNat = 4096 := rfl
  unfold target fetchChunk
  omega

/-- Chunks are read as a whole. -/
theorem target_le {k : Nat} (hk : k % fetchChunk = 0) (h : n ≤ k) : target n ≤ k := by
  unfold target fetchChunk at *
  omega

theorem target_mod (n : Nat) : target n % fetchChunk = 0 := by
  have hsize : pageSize.toNat = 4096 := rfl
  unfold target fetchChunk
  omega

theorem target_le_page (n : Nat) : target n ≤ 4096 :=
  Nat.min_le_right _ _

theorem loadTo_of_le (mem : M) (h : n ≤ w.loaded.size) : w.loadTo mem n = .ok w := by
  unfold loadTo
  rw [if_pos h]
  rfl

theorem loadTo_of_lt (mem : M) (h : w.loaded.size < n) :
    w.loadTo mem n =
      (readBytes mem (w.physical + w.loaded.size.toUInt64) (target n - w.loaded.size)).map
        fun bytes => { w with loaded := w.loaded ++ bytes.toArray } := by
  unfold loadTo
  rw [if_neg (by omega)]
  dsimp only
  rw [← target, readBytes]
  cases GuestMemory.read mem (w.physical + w.loaded.size.toUInt64) (target n - w.loaded.size) with
  | error e => rfl
  | ok chunk =>
    have hchunk : chunk.toArray = chunk.toList.toArray := Vector.toArray_toList.symm
    exact congrArg (fun a => Except.ok { w with loaded := w.loaded ++ a }) hchunk

theorem loadTo_cases (h : w.loadTo mem n = .ok w') :
    n ≤ w.loaded.size ∧ w' = w ∨ w.loaded.size < n ∧
      ∃ bytes, readBytes mem (w.physical + w.loaded.size.toUInt64) (target n - w.loaded.size) =
        .ok bytes ∧ w' = { w with loaded := w.loaded ++ bytes.toArray } := by
  by_cases hle : n ≤ w.loaded.size
  · rw [loadTo_of_le mem hle] at h
    cases h
    exact .inl ⟨hle, rfl⟩
  · rw [loadTo_of_lt mem (Nat.lt_of_not_le hle)] at h
    cases hread : readBytes mem (w.physical + w.loaded.size.toUInt64)
        (target n - w.loaded.size) with
    | error e =>
      rw [hread] at h
      cases h
    | ok bytes =>
      rw [hread] at h
      cases h
      exact .inr ⟨Nat.lt_of_not_le hle, bytes, rfl, rfl⟩

/-- Reading on to the first `n` bytes of a page fails with the exception, wherever a window had been
    read to before. -/
def ReadFails (mem : M) (page : UInt64) (n : Nat) (e : Exception) : Prop :=
  ∃ k < n, readBytes mem (page + k.toUInt64) (target n - k) = .error e

theorem loadTo_error {e : Exception} (h : w.loadTo mem n = .error e) :
    ReadFails mem w.physical n e := by
  by_cases hle : n ≤ w.loaded.size
  · rw [loadTo_of_le mem hle] at h
    cases h
  · rw [loadTo_of_lt mem (Nat.lt_of_not_le hle)] at h
    cases hread : readBytes mem (w.physical + w.loaded.size.toUInt64)
        (target n - w.loaded.size) with
    | error x =>
      rw [hread] at h
      cases h
      exact ⟨w.loaded.size, Nat.lt_of_not_le hle, hread⟩
    | ok bytes =>
      rw [hread] at h
      cases h

/-! ### Current windows -/

/-- The page of the window is mapped to its physical page, whose bytes are those in memory. -/
structure Current (w : FetchWindow) (mem : M) : Prop where
  aligned : pageOf w.linear = w.linear
  mapped : mapForFetch mem w.linear w.cpl = .ok w.physical
  size : w.loaded.size ≤ 4096
  holds : HoldsBytes mem w.physical.toNat w.loaded.toList

/-- Two windows on the same page for the same state, whatever has been read of it. -/
def SamePage (w w' : FetchWindow) : Prop :=
  w' = { w with loaded := w'.loaded }

/-- **What is read on is what memory has**, and the window stays current. -/
theorem loadTo_ok (hw : w.Current mem) (hn : n ≤ 4096) (h : w.loadTo mem n = .ok w') :
    w'.Current mem ∧ n ≤ w'.loaded.size ∧ w.SamePage w' := by
  obtain ⟨hloaded, rfl⟩ | ⟨hlt, bytes, hread, rfl⟩ := loadTo_cases h
  · exact ⟨hw, hloaded, rfl⟩
  · -- A chunk is read behind what is there and not beyond the page, so that its address does not
    -- wrap.
    have hphysical := mapForFetch_mod hw.mapped
    have htop := w.physical.toNat_lt
    have hstart : (w.physical + w.loaded.size.toUInt64).toNat =
        w.physical.toNat + w.loaded.size := toNat_add_toUInt64 (by omega)
    have htarget := le_target hn
    have hpage := target_le_page n
    have hlength := length_readBytes hread
    have hsize : (w.loaded ++ bytes.toArray).size = w.loaded.size + bytes.length := by
      simp
    have hchunk := HoldsBytes.of_read hread
    rw [hstart, ← Array.length_toList] at hchunk
    refine ⟨⟨hw.aligned, hw.mapped, ?_, ?_⟩, ?_, rfl⟩
    · show (w.loaded ++ bytes.toArray).size ≤ 4096
      omega
    · show HoldsBytes mem w.physical.toNat (w.loaded ++ bytes.toArray).toList
      rw [Array.toList_append]
      exact hw.holds.append hchunk
    · show n ≤ (w.loaded ++ bytes.toArray).size
      omega

end FetchWindow

/-! ## Streams -/

namespace FetchStream

variable {s s' : FetchStream} {mem : M} {cpu : Cpu} {pc page : UInt64}

/-- A stream without a window has none that could be wrong. -/
theorem forall_window_of_none {P : FetchWindow → Prop} (h : s.window = none) :
    ∀ w, s.window = some w → P w := by
  intro w hw
  rw [h] at hw
  cases hw

theorem forall_window_of_some {P : FetchWindow → Prop} {w : FetchWindow} (hw : s.window = some w)
    (h : P w) : ∀ w', s.window = some w' → P w' := by
  intro w' hw'
  rw [hw] at hw'
  cases hw'
  exact h

/-- Copying bytes keeps whatever reading on keeps. -/
theorem forall_window_copyBytes {P : FetchWindow → Prop} (hs : ∀ w, s.window = some w → P w)
    (hload : ∀ w w' n, P w → w.loadTo mem n = .ok w' → P w') (pc : UInt64) (limit : Nat) :
    ∀ w, (s.copyBytes mem pc limit).2.window = some w → P w := by
  unfold copyBytes
  split
  · exact hs
  · rename_i w hw
    dsimp only
    split
    · exact hs
    · rename_i w' hread
      exact forall_window_of_some rfl (hload w w' _ (hs w hw) hread)

/-- The window of the stream, if there is one, is current. -/
def Current (s : FetchStream) (mem : M) : Prop :=
  ∀ w, s.window = some w → w.Current mem

/-- The stream has a current window on the page of a program counter, which is mapped to the
    physical page. -/
def OnPage (s : FetchStream) (mem : M) (pc page : UInt64) : Prop :=
  ∃ w, s.window = some w ∧ w.Current mem ∧ w.linear = pageOf pc ∧ w.physical = page

theorem current_empty (mem : M) : ({} : FetchStream).Current mem := by
  rintro w ⟨⟩

theorem OnPage.current (h : s.OnPage mem pc page) : s.Current mem := by
  obtain ⟨w, hw, hcurrent, -, -⟩ := h
  exact forall_window_of_some hw hcurrent

/-- A window that covers a program counter is on its page. -/
theorem linear_of_covers {w : FetchWindow} (hw : pageOf w.linear = w.linear)
    (h : w.covers cpu pc) : w.linear = pageOf pc := by
  simp only [FetchWindow.covers, Bool.and_eq_true, decide_eq_true_eq, beq_iff_eq] at h
  obtain ⟨⟨-, hle⟩, hlt⟩ := h
  have hmod := pageOf_mod w.linear
  rw [hw] at hmod
  rw [UInt64.lt_iff_toNat_lt, UInt64.toNat_sub_of_le _ _ hle,
    show pageSize.toNat = 4096 from rfl] at hlt
  rw [UInt64.le_iff_toNat_le] at hle
  rw [← UInt64.toNat_inj, toNat_pageOf]
  omega

theorem toNat_physicalOf {w : FetchWindow} (hlinear : w.linear = pageOf pc)
    (hphysical : w.physical.toNat % 4096 = 0) :
    (w.physicalOf pc).toNat = w.physical.toNat + pc.toNat % 4096 := by
  have hoffset : pc - w.linear = pageOffset pc := by
    rw [hlinear, ← UInt64.toNat_inj, FetchWindow.toNat_sub_pageOf, toNat_pageOffset]
  rw [FetchWindow.physicalOf, hoffset, toNat_page_add_pageOffset hphysical]

/-- A resolved program counter is on the page that it is mapped to, if a window that covers it is
    current. -/
theorem resolve_ok_of_covers {a : UInt64}
    (hs : ∀ w, s.window = some w → w.covers cpu pc → w.Current mem)
    (h : s.resolve cpu mem pc = (.ok a, s')) :
    ∃ page, mapForFetch mem pc cpu.cpl = .ok page ∧
      a.toNat = page.toNat + pc.toNat % 4096 ∧ s'.OnPage mem pc page := by
  unfold resolve at h
  split at h
  · rename_i w hw
    obtain ⟨hw, hcovers⟩ := Option.filter_eq_some_iff.1 hw
    cases h
    have hcurrent := hs w hw hcovers
    have hlinear := linear_of_covers hcurrent.aligned hcovers
    have hcpl : w.cpl = cpu.cpl := by
      simp only [FetchWindow.covers, Bool.and_eq_true, beq_iff_eq] at hcovers
      exact hcovers.1.1.2
    have hmapped := hcurrent.mapped
    rw [hcpl, hlinear, mapForFetch_congr (pageOf_pageOf pc)] at hmapped
    exact ⟨w.physical, hmapped, toNat_physicalOf hlinear (mapForFetch_mod hmapped), w, hw,
      hcurrent, hlinear, rfl⟩
  · dsimp only at h
    split at h
    · cases h
    · rename_i page hmapped
      cases h
      refine ⟨page, hmapped, toNat_physicalOf rfl (mapForFetch_mod hmapped), _, rfl, ?_, rfl, rfl⟩
      refine ⟨pageOf_pageOf pc, ?_, Nat.zero_le _, HoldsBytes.nil mem _⟩
      rwa [mapForFetch_congr (pageOf_pageOf pc)]

/-- **A resolved program counter is on the page that it is mapped to.** -/
theorem resolve_ok {a : UInt64} (hs : s.Current mem)
    (h : s.resolve cpu mem pc = (.ok a, s')) :
    ∃ page, mapForFetch mem pc cpu.cpl = .ok page ∧
      a.toNat = page.toNat + pc.toNat % 4096 ∧ s'.OnPage mem pc page :=
  resolve_ok_of_covers (fun w hw _ => hs w hw) h

/-- A program counter cannot be resolved only if its page is not mapped. -/
theorem resolve_error {e : Exception} (h : s.resolve cpu mem pc = (.error e, s')) :
    mapForFetch mem pc cpu.cpl = .error e ∧ s'.window = none := by
  unfold resolve at h
  split at h
  · cases h
  · dsimp only at h
    split at h
    · rename_i hmapped
      cases h
      exact ⟨hmapped, rfl⟩
    · cases h

/-- **Copied bytes are those of memory**, up to the page end, the limit or the longest
    instruction. -/
theorem copyBytes_ok {limit : Nat} {bytes : List UInt8} (hs : s.OnPage mem pc page)
    (h : s.copyBytes mem pc limit = (.ok bytes, s')) :
    s'.OnPage mem pc page ∧
      bytes.length = min (4096 - pc.toNat % 4096) (min limit maxInstructionLength) ∧
      HoldsBytes mem (page.toNat + pc.toNat % 4096) bytes := by
  obtain ⟨w, hw, hcurrent, hlinear, rfl⟩ := hs
  have hoffset : (pc - w.linear).toNat = pc.toNat % 4096 := by
    rw [hlinear, FetchWindow.toNat_sub_pageOf]
  have hsize : pageSize.toNat = 4096 := rfl
  unfold copyBytes at h
  rw [hw] at h
  dsimp only at h
  rw [hoffset, hsize] at h
  generalize hn : min (4096 - pc.toNat % 4096) (min limit maxInstructionLength) = n at h ⊢
  split at h
  · cases h
  · rename_i w' hload
    cases h
    obtain ⟨hcurrent', hloaded, hsame⟩ := FetchWindow.loadTo_ok hcurrent (by omega) hload
    have hlinear' : w'.linear = w.linear := by rw [hsame]
    have hphysical' : w'.physical = w.physical := by rw [hsame]
    refine ⟨⟨w', rfl, hcurrent', hlinear'.trans hlinear, hphysical'⟩, ?_, ?_⟩
    · rw [Array.length_toList, Array.size_extract]
      omega
    · rw [← hphysical']
      exact hcurrent'.holds.extract _ _

/-- Bytes cannot be copied only if they cannot be read. -/
theorem copyBytes_error {limit : Nat} {e : Exception}
    (h : s.copyBytes mem pc limit = (.error e, s')) :
    s' = s ∧ ∃ w, s.window = some w ∧ FetchWindow.ReadFails mem w.physical ((pc - w.linear).toNat +
      min (4096 - (pc - w.linear).toNat) (min limit maxInstructionLength)) e := by
  unfold copyBytes at h
  split at h
  · cases h
  · rename_i w hw
    dsimp only at h
    split at h
    · rename_i hload
      cases h
      exact ⟨rfl, w, hw, FetchWindow.loadTo_error hload⟩
    · cases h

/-- On the page of a program counter they are read on to the page end, the limit or the longest
    instruction. -/
theorem OnPage.copyBytes_error {limit : Nat} {e : Exception} (hs : s.OnPage mem pc page)
    (h : s.copyBytes mem pc limit = (.error e, s')) :
    s' = s ∧ FetchWindow.ReadFails mem page
      (min (pc.toNat % 4096 + min limit maxInstructionLength) 4096) e := by
  obtain ⟨w, hw, -, hlinear, rfl⟩ := hs
  obtain ⟨hsame, w', hw', hfails⟩ := FetchStream.copyBytes_error h
  obtain rfl := Option.some.inj (hw.symm.trans hw')
  have hend : pc.toNat % 4096 + min (4096 - pc.toNat % 4096) (min limit maxInstructionLength) =
      min (pc.toNat % 4096 + min limit maxInstructionLength) 4096 := by
    omega
  rw [hlinear, FetchWindow.toNat_sub_pageOf, hend] at hfails
  exact ⟨hsame, hfails⟩

end FetchStream

end X86Replay

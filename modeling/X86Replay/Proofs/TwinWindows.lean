import X86Replay.Proofs.PhysicalMemory

/-!
# Windows that show the same code

Two fetch windows on one physical page show the same code, at whatever linear addresses the page is
mapped and however far each of them has been read.

* `ReadsInPortions`: a read of memory is one of its first bytes followed by one of the others.
* `FetchWindow.Filled`: a window that has been read from memory in whole chunks.
* `FetchWindow.Twin`: two windows from which the same bytes can be copied, now and later on.
* `FetchStream.Twin`: two streams with such windows on the pages of two program counters.
* `FetchStream.Comparable`: two streams that have such windows once they have been resolved to the
  same physical address.
-/

namespace X86Replay

variable {M : Type} [GuestMemory M]

/-! ## Reading in portions -/

/-- A read of memory succeeds precisely if reads of its first bytes and of the others do, and gives
    what they give. -/
def ReadsInPortions (mem : M) : Prop :=
  ∀ (start : UInt64) (n k : Nat) (bytes : List UInt8), start.toNat + n < 2 ^ 64 →
    (readBytes mem start (n + k) = .ok bytes ↔
      ∃ first rest, readBytes mem start n = .ok first ∧
        readBytes mem (start + n.toUInt64) k = .ok rest ∧ bytes = first ++ rest)

theorem readsInPortions [PhysicalMemory M] (mem : M) : ReadsInPortions mem := by
  intro start n k bytes hlt
  have hrest := toNat_add_toUInt64 hlt
  have hjoin : ((cells mem).extract start.toNat (start.toNat + (n + k))).toList =
      ((cells mem).extract start.toNat (start.toNat + n)).toList ++
        ((cells mem).extract (start.toNat + n) (start.toNat + n + k)).toList := by
    rw [← Array.toList_append, Array.extract_append_extract, Nat.min_eq_left (Nat.le_add_right _ _),
      Nat.max_eq_right (Nat.le_add_right _ _), Nat.add_assoc]
  simp only [PhysicalMemory.readBytes_ok, hrest]
  constructor
  · rintro ⟨hsize, rfl⟩
    exact ⟨_, _, ⟨by omega, rfl⟩, ⟨by omega, rfl⟩, hjoin⟩
  · rintro ⟨first, rest, ⟨-, rfl⟩, ⟨hsize, rfl⟩, rfl⟩
    exact ⟨by omega, hjoin.symm⟩

/-! ## Windows -/

namespace FetchWindow

variable {w w' : FetchWindow} {mem : M} {n : Nat}

theorem samePage_of_loadTo (h : w.loadTo mem n = .ok w') : w.SamePage w' := by
  obtain ⟨-, rfl⟩ | ⟨-, bytes, -, rfl⟩ := loadTo_cases h
  · rfl
  · rfl

theorem le_size_of_loadTo (h : w.loadTo mem n = .ok w') (hn : n ≤ 4096) : n ≤ w'.loaded.size := by
  obtain ⟨hle, rfl⟩ | ⟨-, bytes, hread, rfl⟩ := loadTo_cases h
  · exact hle
  · have htarget := le_target hn
    have hlength := length_readBytes hread
    have hsize : (w.loaded ++ bytes.toArray).size = w.loaded.size + bytes.length := by
      simp
    show n ≤ (w.loaded ++ bytes.toArray).size
    omega

/-- The window starts a page of physical memory and has been read from there in whole chunks. -/
structure Filled (w : FetchWindow) (mem : M) : Prop where
  aligned : w.physical.toNat % 4096 = 0
  chunks : w.loaded.size % fetchChunk = 0
  size : w.loaded.size ≤ 4096
  read : w.loaded = #[] ∨ readBytes mem w.physical w.loaded.size = .ok w.loaded.toList

namespace Filled

/-- What is missing is read behind what there is, as if both were read at once. -/
theorem readBytes_iff (h : w.Filled mem) (hmem : ReadsInPortions mem) {k : Nat}
    (hk : w.loaded.size < k) (hpage : k ≤ 4096) (bytes : List UInt8) :
    readBytes mem w.physical k = .ok bytes ↔
      ∃ rest, readBytes mem (w.physical + w.loaded.size.toUInt64) (k - w.loaded.size) = .ok rest ∧
        bytes = w.loaded.toList ++ rest := by
  have htop := w.physical.toNat_lt
  have haligned := h.aligned
  obtain hempty | hfirst := h.read
  · have hzero : w.physical + (0 : Nat).toUInt64 = w.physical := UInt64.add_zero _
    rw [hempty, Array.size_empty, hzero, Nat.sub_zero]
    simp
  · have hsplit := hmem w.physical w.loaded.size (k - w.loaded.size) bytes (by omega)
    rw [Nat.add_sub_cancel' hk.le] at hsplit
    rw [hsplit, hfirst]
    simp

/-- A part of what there is can be read by itself. -/
theorem exists_first (h : w.Filled mem) (hmem : ReadsInPortions mem) {k : Nat}
    (hk : k ≤ w.loaded.size) (hpos : 0 < w.loaded.size) :
    ∃ first rest, readBytes mem w.physical k = .ok first ∧ w.loaded.toList = first ++ rest := by
  have htop := w.physical.toNat_lt
  have haligned := h.aligned
  have hsize := h.size
  have hread : readBytes mem w.physical w.loaded.size = .ok w.loaded.toList := by
    refine h.read.resolve_left fun hempty => ?_
    rw [hempty, Array.size_empty] at hpos
    exact absurd hpos (Nat.lt_irrefl 0)
  by_cases hall : k = w.loaded.size
  · exact ⟨_, [], hall ▸ hread, (List.append_nil _).symm⟩
  · have hsplit := hmem w.physical k (w.loaded.size - k) w.loaded.toList (by omega)
    rw [Nat.add_sub_cancel' hk, hread] at hsplit
    obtain ⟨first, rest, hfirst, -, hjoin⟩ := hsplit.1 rfl
    exact ⟨first, rest, hfirst, hjoin⟩

/-- **How far a window has been read makes no difference** to what can be read and is shown. -/
theorem loadTo (h : w.Filled mem) (hmem : ReadsInPortions mem) (hn : 0 < n) (hle : n ≤ 4096) :
    match readBytes mem w.physical (target n) with
    | .error _ => ∃ e, w.loadTo mem n = .error e
    | .ok bytes => ∃ v, w.loadTo mem n = .ok v ∧ v.Filled mem ∧ w.SamePage v ∧
        n ≤ bytes.length ∧ bytes <+: v.loaded.toList := by
  have htarget := le_target hle
  have hpage := target_le_page n
  -- Either the rest of the target is read now, or the window already shows all of it.
  by_cases hlt : w.loaded.size < n
  · have hread := h.readBytes_iff hmem (hlt.trans_le htarget) hpage
    rw [loadTo_of_lt mem hlt]
    cases hrest : readBytes mem (w.physical + w.loaded.size.toUInt64)
        (target n - w.loaded.size) with
    | error e =>
      rw [hrest] at hread
      cases hall : readBytes mem w.physical (target n) with
      | error e' => exact ⟨e, rfl⟩
      | ok bytes =>
        obtain ⟨_, ⟨⟩, -⟩ := (hread bytes).1 hall
    | ok rest =>
      have hall := (hread (w.loaded.toList ++ rest)).2 ⟨rest, hrest, rfl⟩
      have hlength := length_readBytes hall
      have hsize : (w.loaded ++ rest.toArray).size = target n := by
        rw [← hlength, ← Array.length_toList, Array.toList_append]
      have htoList : (w.loaded ++ rest.toArray).toList = w.loaded.toList ++ rest :=
        Array.toList_append
      rw [hall]
      refine ⟨{ w with loaded := w.loaded ++ rest.toArray }, rfl, ⟨h.aligned, ?_, ?_, .inr ?_⟩, rfl,
        htarget.trans_eq hlength.symm, ?_⟩
      · rw [hsize]
        exact target_mod n
      · rw [hsize]
        exact hpage
      · rw [hsize, htoList]
        exact hall
      · exact ⟨[], by rw [htoList, List.append_nil]⟩
  · have hle' := target_le h.chunks (Nat.le_of_not_lt hlt)
    obtain ⟨first, rest, hfirst, hjoin⟩ := h.exists_first hmem hle' (by omega)
    rw [hfirst, loadTo_of_le mem (Nat.le_of_not_lt hlt)]
    exact ⟨w, rfl, h, rfl, htarget.trans_eq (length_readBytes hfirst).symm, rest, hjoin.symm⟩

end Filled

/-- Two windows on the same physical page have been read equally far, or how far they have been
    read makes no difference. -/
structure Twin (mem : M) (w w' : FetchWindow) : Prop where
  physical : w'.physical = w.physical
  loaded : w'.loaded = w.loaded ∨ ReadsInPortions mem ∧ w.Filled mem ∧ w'.Filled mem

/-- Twin windows can be read equally far, show the same bytes and stay twins. -/
theorem Twin.loadTo (h : Twin mem w w') (hle : n ≤ 4096) :
    (∃ e e', w.loadTo mem n = .error e ∧ w'.loadTo mem n = .error e') ∨
      ∃ v v', w.loadTo mem n = .ok v ∧ w'.loadTo mem n = .ok v' ∧ Twin mem v v' ∧
        w.SamePage v ∧ w'.SamePage v' ∧ ∀ k, v'.loaded.extract k n = v.loaded.extract k n := by
  obtain rfl | hn := Nat.eq_zero_or_pos n
  · refine .inr ⟨w, w', loadTo_of_le mem (Nat.zero_le _), loadTo_of_le mem (Nat.zero_le _), h, rfl,
      rfl, fun k => ?_⟩
    rw [Array.extract_eq_empty_of_le (by omega), Array.extract_eq_empty_of_le (by omega)]
  -- Windows that have been read equally far read the same. Of two that are filled, each shows what
  -- one read of the whole target gives, however far it had been read before.
  obtain hloaded | ⟨hmem, hw, hw'⟩ := h.loaded
  · have hsame : w'.loadTo mem n =
        (w.loadTo mem n).map fun v => { w' with loaded := v.loaded } := by
      by_cases hle : n ≤ w.loaded.size
      · rw [loadTo_of_le mem hle, loadTo_of_le mem (by rwa [hloaded])]
        exact congrArg (fun a => Except.ok { w' with loaded := a }) hloaded
      · have hlt := Nat.lt_of_not_le hle
        rw [loadTo_of_lt mem hlt, loadTo_of_lt mem (by rwa [hloaded]), h.physical, hloaded]
        cases readBytes mem _ _ <;> rfl
    rw [hsame]
    cases hload : w.loadTo mem n with
    | error e => exact .inl ⟨e, e, rfl, rfl⟩
    | ok v =>
      have hpage := samePage_of_loadTo hload
      refine .inr ⟨v, _, rfl, rfl, ⟨?_, .inl rfl⟩, hpage, rfl, fun k => rfl⟩
      rw [hpage]
      exact h.physical
  · have hload := hw.loadTo hmem hn hle
    have hload' := hw'.loadTo hmem hn hle
    rw [h.physical] at hload'
    cases hread : readBytes mem w.physical (target n) with
    | error e =>
      rw [hread] at hload hload'
      obtain ⟨e, he⟩ := hload
      obtain ⟨e', he'⟩ := hload'
      exact .inl ⟨e, e', he, he'⟩
    | ok bytes =>
      rw [hread] at hload hload'
      obtain ⟨v, hv, hfilled, hpage, hlength, rest, hrest⟩ := hload
      obtain ⟨v', hv', hfilled', hpage', -, rest', hrest'⟩ := hload'
      refine .inr ⟨v, v', hv, hv', ⟨?_, .inr ⟨hmem, hfilled, hfilled'⟩⟩, hpage, hpage',
        fun k => ?_⟩
      · rw [hpage, hpage']
        exact h.physical
      · have hextract {a : Array UInt8} {r : List UInt8} (ha : bytes ++ r = a.toList) :
            (a.extract k n).toList = (bytes.take n).drop k := by
          rw [Array.toList_extract, List.extract_eq_drop_take', ← ha,
            List.take_append_of_le_length hlength]
        rw [← Array.toList_inj, hextract hrest, hextract hrest']

/-- The window is on the page of a program counter, for a processor state. -/
structure IsOn (w : FetchWindow) (cpu : Cpu) (pc : UInt64) : Prop where
  epoch : w.epoch = cpu.epoch
  cpl : w.cpl = cpu.cpl
  linear : w.linear = pageOf pc

theorem IsOn.covers {cpu : Cpu} {pc : UInt64} (h : w.IsOn cpu pc) : w.covers cpu pc := by
  have hle : pageOf pc ≤ pc := by
    rw [UInt64.le_iff_toNat_le, toNat_pageOf]
    omega
  have hlt : pc - pageOf pc < pageSize := by
    rw [UInt64.lt_iff_toNat_lt, toNat_sub_pageOf]
    exact Nat.mod_lt _ (by decide)
  unfold FetchWindow.covers
  rw [h.epoch, h.cpl, h.linear]
  simp [hle, hlt]

/-- A window never covers the page after its own. -/
theorem IsOn.covers_nextPage {cpu : Cpu} {pc : UInt64} (h : w.IsOn cpu pc) :
    w.covers cpu (nextPage pc) = false := by
  by_contra hcovers
  rw [Bool.not_eq_false] at hcovers
  have hlinear := FetchStream.linear_of_covers (by rw [h.linear, pageOf_pageOf]) hcovers
  have hnext := toNat_nextPage pc
  have htop := pc.toNat_lt
  rw [h.linear, pageOf_eq_iff] at hlinear
  omega

theorem IsOn.of_covers {cpu : Cpu} {pc : UInt64} (h : w.covers cpu pc)
    (haligned : pageOf w.linear = w.linear) : w.IsOn cpu pc := by
  have hlinear := FetchStream.linear_of_covers haligned h
  simp only [FetchWindow.covers, Bool.and_eq_true, beq_iff_eq] at h
  exact ⟨h.1.1.1, h.1.1.2, hlinear⟩

end FetchWindow

/-! ## Streams -/

namespace FetchStream

variable {s s' : FetchStream} {mem : M} {cpu cpu' : Cpu} {pc pc' : UInt64}

/-- The streams have twin windows on the pages of their program counters. -/
def Twin (mem : M) (s : FetchStream) (cpu : Cpu) (pc : UInt64) (s' : FetchStream) (cpu' : Cpu)
    (pc' : UInt64) : Prop :=
  ∃ w w', s.window = some w ∧ s'.window = some w' ∧ w.IsOn cpu pc ∧ w'.IsOn cpu' pc' ∧
    w.Twin mem w'

/-- Only the pages of the program counters matter. -/
theorem Twin.congr {q q' : UInt64} (h : Twin mem s cpu pc s' cpu' pc') (hq : pageOf q = pageOf pc)
    (hq' : pageOf q' = pageOf pc') : Twin mem s cpu q s' cpu' q' := by
  obtain ⟨w, w', hw, hw', hon, hon', htwin⟩ := h
  exact ⟨w, w', hw, hw', ⟨hon.epoch, hon.cpl, hon.linear.trans hq.symm⟩,
    ⟨hon'.epoch, hon'.cpl, hon'.linear.trans hq'.symm⟩, htwin⟩

theorem resolve_of_covers {w : FetchWindow} (hw : s.window = some w) (h : w.covers cpu pc) :
    s.resolve cpu mem pc = (.ok (w.physicalOf pc), { s with hits := s.hits + 1 }) := by
  unfold resolve
  rw [hw, Option.filter_some, if_pos h]

theorem resolve_of_missing (h : s.window.filter (·.covers cpu pc) = none) :
    s.resolve cpu mem pc =
      match mapForFetch mem pc cpu.cpl with
      | .error e => (.error e, { s.drop with misses := s.misses + 1 })
      | .ok page =>
        (.ok (FetchWindow.physicalOf ⟨pageOf pc, page, #[], cpu.epoch, cpu.cpl⟩ pc),
          { s with window := some ⟨pageOf pc, page, #[], cpu.epoch, cpu.cpl⟩
                   misses := s.misses + 1 }) := by
  unfold resolve
  rw [h]
  rfl

/-- On its page at least one byte is copied. -/
theorem copyBytes_ne_nil {w : FetchWindow} {limit : Nat} {bytes : List UInt8} {t : FetchStream}
    (hw : s.window = some w) (hon : w.IsOn cpu pc) (hlimit : 0 < limit)
    (h : s.copyBytes mem pc limit = (.ok bytes, t)) : bytes ≠ [] := by
  have hsize : pageSize.toNat = 4096 := rfl
  have hmax : maxInstructionLength = 15 := rfl
  unfold copyBytes at h
  rw [hw] at h
  dsimp only at h
  rw [hon.linear, FetchWindow.toNat_sub_pageOf, hsize] at h
  split at h
  · cases h
  · rename_i v hload
    cases h
    have hle := FetchWindow.le_size_of_loadTo hload (by omega)
    refine List.ne_nil_of_length_pos ?_
    rw [Array.length_toList, Array.size_extract]
    omega

/-- Twin streams resolve their program counters and stay twins. -/
theorem Twin.resolve (h : Twin mem s cpu pc s' cpu' pc') :
    ∃ a a' t t', s.resolve cpu mem pc = (.ok a, t) ∧ s'.resolve cpu' mem pc' = (.ok a', t') ∧
      Twin mem t cpu pc t' cpu' pc' := by
  obtain ⟨w, w', hw, hw', hon, hon', htwin⟩ := h
  exact ⟨_, _, _, _, resolve_of_covers hw hon.covers, resolve_of_covers hw' hon'.covers, w, w',
    hw, hw', hon, hon', htwin⟩

/-- **Twin streams show the same bytes** at the same place of their pages, and stay twins. -/
theorem Twin.copyBytes (h : Twin mem s cpu pc s' cpu' pc') (limit : Nat)
    (hpc : pc.toNat % 4096 = pc'.toNat % 4096) :
    (s.copyBytes mem pc limit).1.toOption = (s'.copyBytes mem pc' limit).1.toOption ∧
      Twin mem (s.copyBytes mem pc limit).2 cpu pc (s'.copyBytes mem pc' limit).2 cpu' pc' := by
  obtain ⟨w, w', hw, hw', hon, hon', htwin⟩ := h
  have hsize : pageSize.toNat = 4096 := rfl
  have hmax : maxInstructionLength = 15 := rfl
  unfold FetchStream.copyBytes
  rw [hw, hw']
  dsimp only
  rw [hon.linear, hon'.linear, FetchWindow.toNat_sub_pageOf, FetchWindow.toNat_sub_pageOf, ← hpc,
    hsize]
  generalize hn : pc.toNat % 4096 +
    min (4096 - pc.toNat % 4096) (min limit maxInstructionLength) = n
  obtain ⟨e, e', he, he'⟩ | ⟨v, v', hv, hv', htwin', hpage, hpage', hextract⟩ :=
    htwin.loadTo (n := n) (by omega)
  · rw [he, he']
    exact ⟨rfl, w, w', hw, hw', hon, hon', htwin⟩
  · rw [hv, hv']
    refine ⟨congrArg (fun a : Array UInt8 => some a.toList) (hextract _).symm, v, v', rfl, rfl, ?_,
      ?_, htwin'⟩
    · rw [hpage]
      exact ⟨hon.epoch, hon.cpl, hon.linear⟩
    · rw [hpage']
      exact ⟨hon'.epoch, hon'.cpl, hon'.linear⟩

/-- The stream has no window on the code at CS:RIP. -/
def Misses (s : FetchStream) (cpu : Cpu) : Prop :=
  s.window.filter (·.covers cpu cpu.linearPc) = none

/-- The window of the stream, if there is one, starts a page and has been read in whole chunks. -/
def Filled (s : FetchStream) (mem : M) : Prop :=
  ∀ w, s.window = some w → pageOf w.linear = w.linear ∧ w.Filled mem

/-- The streams have no windows on the code at CS:RIP, or how far their windows have been read makes
    no difference. -/
def Comparable (mem : M) (s : FetchStream) (cpu : Cpu) (s' : FetchStream) (cpu' : Cpu) : Prop :=
  s.Misses cpu ∧ s'.Misses cpu' ∨ ReadsInPortions mem ∧ s.Filled mem ∧ s'.Filled mem

theorem comparable_empty (mem : M) (cpu cpu' : Cpu) : Comparable mem {} cpu {} cpu' :=
  .inl ⟨rfl, rfl⟩

/-- A resolved program counter is on a page whose window has been read in whole chunks, or is
    new. -/
theorem resolve_isOn {a : UInt64} {t : FetchStream}
    (hs : s.window.filter (·.covers cpu pc) = none ∨ s.Filled mem)
    (h : s.resolve cpu mem pc = (.ok a, t)) :
    ∃ w, t.window = some w ∧ w.IsOn cpu pc ∧ w.Filled mem ∧
      a.toNat = w.physical.toNat + pc.toNat % 4096 ∧
      (s.window.filter (·.covers cpu pc) = none → w.loaded = #[]) := by
  cases hfilter : s.window.filter (·.covers cpu pc) with
  | none =>
    rw [resolve_of_missing hfilter] at h
    split at h
    · cases h
    · rename_i page hpage
      have haligned := mapForFetch_mod hpage
      cases h
      exact ⟨_, rfl, ⟨rfl, rfl, rfl⟩, ⟨haligned, rfl, Nat.zero_le _, .inl rfl⟩,
        toNat_physicalOf rfl haligned, fun _ => rfl⟩
  | some w =>
    obtain ⟨hw, hcovers⟩ := Option.filter_eq_some_iff.1 hfilter
    rw [resolve_of_covers hw hcovers] at h
    cases h
    have hne : s.window.filter (·.covers cpu pc) ≠ none := by
      rw [hfilter]
      exact Option.some_ne_none w
    obtain ⟨haligned, hfilled⟩ := hs.resolve_left hne w hw
    have hon := FetchWindow.IsOn.of_covers hcovers haligned
    exact ⟨w, hw, hon, hfilled, toNat_physicalOf hon.linear hfilled.aligned,
      fun hnone => nomatch hnone⟩

/-- **Streams that have been resolved to the same physical address are twins.** -/
theorem Comparable.twin {a : UInt64} {t t' : FetchStream}
    (h : Comparable mem s cpu s' cpu') (hs : s.resolve cpu mem cpu.linearPc = (.ok a, t))
    (hs' : s'.resolve cpu' mem cpu'.linearPc = (.ok a, t')) :
    cpu.linearPc.toNat % 4096 = cpu'.linearPc.toNat % 4096 ∧
      Twin mem t cpu cpu.linearPc t' cpu' cpu'.linearPc := by
  obtain ⟨w, hw, hon, hfilled, ha, hnew⟩ :=
    resolve_isOn (h.imp And.left fun h => h.2.1) hs
  obtain ⟨w', hw', hon', hfilled', ha', hnew'⟩ :=
    resolve_isOn (h.imp And.right fun h => h.2.2) hs'
  have haligned := hfilled.aligned
  have haligned' := hfilled'.aligned
  refine ⟨by omega, w, w', hw, hw', hon, hon', ?_, ?_⟩
  · rw [← UInt64.toNat_inj]
    omega
  · exact h.imp (fun h => (hnew' h.2).trans (hnew h.1).symm) fun h => ⟨h.1, hfilled, hfilled'⟩

end FetchStream

end X86Replay

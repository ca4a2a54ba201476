import X86Replay.Proofs.LittleEndian
import X86Replay.Proofs.Pages
import X86Replay.Proofs.WriteLog

/-!
# A store is read back

An access that crosses a page boundary is split, and its halves are stored wherever the two pages
lead, which may be one and the same page. All parts of a store and of the read behind it have to
agree on the split, so both are described byte by byte, by the list of physical addresses that the
bytes have in their order.

* `StoresBytes`: what is asked of memory. Flat and remapped memory are such memories.
* `TranslatesPages`: what is asked of translations, which flat and remapped memory also satisfy.
* `commitSpans_ok`, `map_byteAt_of_mapForAccess`, `mapForAccess_of_map_byteAt`: writing and reading
  spans, byte by byte.
* `TranslatesPages.spans`, `TranslatesPages.translate_getElem`: the spans of an access do not
  overlap, and each byte is where its own address leads.
* `readMem_writeMem`: what has been stored is read back, and nothing else has changed.
-/

namespace X86Replay

variable {M : Type} [GuestMemory M]

/-! ## Addresses of spans -/

namespace PhysSpan

/-- The addresses of a span, in their order. -/
def addresses (s : PhysSpan) : List UInt64 :=
  (List.range s.length).map fun i => s.start + i.toUInt64

/-- The span ends where the address space ends or before. -/
def Fits (s : PhysSpan) : Prop :=
  s.start.toNat + s.length ≤ 2 ^ 64

/-- The spans have no address in common. -/
def Disjoint (s t : PhysSpan) : Prop :=
  ∀ a, s.Covers a → ¬t.Covers a

theorem length_addresses (s : PhysSpan) : s.addresses.length = s.length := by
  rw [addresses, List.length_map, List.length_range]

theorem getElem_addresses (s : PhysSpan) {i : Nat} (h : i < s.addresses.length) :
    s.addresses[i] = s.start + i.toUInt64 := by
  simp only [addresses, List.getElem_map, List.getElem_range]

/-- A place in a span that does not wrap, as a number. -/
theorem Fits.toNat_add {s : PhysSpan} (hs : s.Fits) {i : Nat} (hi : i < s.length) :
    (s.start + i.toUInt64).toNat = s.start.toNat + i := by
  unfold Fits at hs
  have hnat : i.toUInt64.toNat = i := UInt64.toNat_ofNat_of_lt' (by show _ < 2 ^ 64; omega)
  rw [UInt64.toNat_add, hnat]
  omega

theorem Fits.mem_addresses {s : PhysSpan} (hs : s.Fits) {a : UInt64} :
    a ∈ s.addresses ↔ s.Covers a := by
  simp only [addresses, List.mem_map, List.mem_range]
  constructor
  · rintro ⟨i, hi, rfl⟩
    have := hs.toNat_add hi
    exact ⟨by omega, by omega⟩
  · rintro ⟨hle, hlt⟩
    have hi : a.toNat - s.start.toNat < s.length := by omega
    refine ⟨a.toNat - s.start.toNat, hi, ?_⟩
    rw [← UInt64.toNat_inj, hs.toNat_add hi]
    omega

end PhysSpan

/-! ## Memory that stores bytes -/

/-- A read finds the bytes that are there. A write that succeeds stores its bytes, and changes
    neither other bytes nor where addresses lead. -/
structure StoresBytes (M : Type) [GuestMemory M] : Prop where
  readBytes_ok : ∀ (mem : M) (s : PhysSpan) (bytes : List UInt8), 0 < s.length → s.Fits →
    (readBytes mem s.start s.length = .ok bytes ↔ s.addresses.map (byteAt mem) = bytes.map some)
  stored : ∀ (mem mem' : M) (start : UInt64) (data : List UInt8),
    PhysSpan.Fits ⟨start, data.length⟩ → GuestMemory.write mem start data = (.ok (), mem') →
      (PhysSpan.addresses ⟨start, data.length⟩).map (byteAt mem') = data.map some
  kept : ∀ (mem mem' : M) (start : UInt64) (data : List UInt8),
    PhysSpan.Fits ⟨start, data.length⟩ → GuestMemory.write mem start data = (.ok (), mem') →
      ∀ a, ¬PhysSpan.Covers ⟨start, data.length⟩ a → byteAt mem' a = byteAt mem a
  translate_write : ∀ (mem mem' : M) (start : UInt64) (data : List UInt8),
    GuestMemory.write mem start data = (.ok (), mem') → translate mem' = translate mem

/-- A read of memory that is an array finds the bytes that are there. -/
theorem readBytes_ok_iff_map_byteAt [PhysicalMemory M] (mem : M) {s : PhysSpan} {bytes : List UInt8}
    (hpos : 0 < s.length) (hs : s.Fits) :
    readBytes mem s.start s.length = .ok bytes ↔ s.addresses.map (byteAt mem) = bytes.map some := by
  have hbyte (i : Nat) (hi : i < s.length) :
      byteAt mem (s.start + i.toUInt64) = (cells mem)[s.start.toNat + i]? := by
    rw [byteAt_eq, hs.toNat_add hi]
  have hlist : s.addresses.map (byteAt mem) =
      (List.range s.length).map fun i => (cells mem)[s.start.toNat + i]? := by
    rw [PhysSpan.addresses, List.map_map]
    exact List.map_congr_left fun i hi => hbyte i (List.mem_range.1 hi)
  rw [PhysicalMemory.readBytes_ok, hlist]
  constructor
  · rintro ⟨hsize, rfl⟩
    refine List.ext_getElem (by simp; omega) fun i hi _ => ?_
    rw [List.length_map, List.length_range] at hi
    simp only [List.getElem_map, List.getElem_range, Array.getElem_toList, Array.getElem_extract]
    exact Array.getElem?_eq_getElem _
  · intro h
    have hlength := congrArg List.length h
    rw [List.length_map, List.length_range, List.length_map] at hlength
    have hcell (i : Nat) (hi : i < bytes.length) :
        (cells mem)[s.start.toNat + i]? = some bytes[i] := by
      have hi' := List.getElem_of_eq h (i := i) (by simpa [hlength] using hi)
      simpa using hi'
    have hlast := (Array.getElem?_eq_some_iff.1 (hcell (s.length - 1) (by omega))).1
    refine ⟨by omega, List.ext_getElem (by simp; omega) fun i hi _ => ?_⟩
    obtain ⟨_, hget⟩ := Array.getElem?_eq_some_iff.1 (hcell i (by omega))
    rw [← hget]
    simp only [Array.getElem_toList, Array.getElem_extract]

/-- Memory that is an array of bytes stores bytes if writes put theirs where they belong. -/
theorem storesBytes [PhysicalMemory M]
    (h : ∀ (mem mem' : M) (start : UInt64) (data : List UInt8),
      GuestMemory.write mem start data = (.ok (), mem') →
        ∀ i < data.length, (cells mem')[start.toNat + i]? = data[i]?) :
    StoresBytes M where
  readBytes_ok mem _ _ hpos hs := readBytes_ok_iff_map_byteAt mem hpos hs
  stored mem mem' start data hs hwrite := by
    refine List.ext_getElem (by simp [PhysSpan.length_addresses]) fun i hi _ => ?_
    rw [List.length_map, PhysSpan.length_addresses] at hi
    rw [List.getElem_map, PhysSpan.getElem_addresses, byteAt_eq, hs.toNat_add hi, List.getElem_map,
      h mem mem' start data hwrite i hi]
    exact List.getElem?_eq_getElem hi
  kept mem mem' start data _ hwrite a ha := by
    by_contra hne
    exact ha (writesInPlace.landed mem mem' start data hwrite a hne)
  translate_write mem mem' start data hwrite := by
    have := PhysicalMemory.translate_write mem start data
    rwa [hwrite] at this

namespace FlatMemory

theorem getElem?_splice_add (a : Array UInt8) (i : Nat) (data : List UInt8)
    (h : i + data.length ≤ a.size) {k : Nat} (hk : k < data.length) :
    (splice a i data)[i + k]? = data[k]? := by
  induction data generalizing a i k with
  | nil => cases hk
  | cons b data ih =>
    rw [List.length_cons] at h hk
    cases k with
    | zero =>
      rw [splice, getElem?_splice _ _ _ (by omega)]
      simp only [Nat.add_zero, List.getElem?_cons_zero]
      exact Array.getElem?_setIfInBounds_self_of_lt (by omega)
    | succ k =>
      rw [splice, show i + (k + 1) = i + 1 + k by omega, List.getElem?_cons_succ]
      exact ih (a.setIfInBounds i b) (i + 1) (by rw [Array.size_setIfInBounds]; omega) (by omega)

theorem getElem?_write {m m' : FlatMemory} {start : UInt64} {data : List UInt8}
    (h : GuestMemory.write m start data = (.ok (), m')) {i : Nat} (hi : i < data.length) :
    (cells m')[start.toNat + i]? = data[i]? := by
  change writeFlat m start data = _ at h
  unfold writeFlat at h
  split_ifs at h with hsize
  · cases h
    exact getElem?_splice_add _ _ _ hsize hi
  · cases h

theorem stores : StoresBytes FlatMemory :=
  storesBytes fun _ _ _ _ h _ hi => getElem?_write h hi

end FlatMemory

theorem RemappedMemory.stores : StoresBytes RemappedMemory :=
  storesBytes fun m m' start data h i hi => by
    obtain h' | h' := write_cases m start data
    · rw [h'] at h
      cases h
    · rw [h', Prod.mk.injEq] at h
      obtain ⟨hok, rfl⟩ := h
      exact FlatMemory.getElem?_write (m := m.flat) (Prod.ext hok rfl) hi

/-! ## Lists of spans -/

/-- The addresses of the bytes of some spans, in the order of the bytes. -/
def addressesOf (spans : List PhysSpan) : List UInt64 :=
  spans.flatMap PhysSpan.addresses

/-- The spans are those of an access to `n` bytes: none of them is empty or wraps, and no address
    is in two of them. -/
structure Spans (n : Nat) (spans : List PhysSpan) : Prop where
  pos : ∀ s ∈ spans, 0 < s.length
  fits : ∀ s ∈ spans, s.Fits
  disjoint : spans.Pairwise PhysSpan.Disjoint
  sum : (spans.map PhysSpan.length).sum = n

theorem length_addressesOf (spans : List PhysSpan) :
    (addressesOf spans).length = (spans.map PhysSpan.length).sum := by
  simp only [addressesOf, List.length_flatMap, PhysSpan.length_addresses]

theorem mem_addressesOf {spans : List PhysSpan} (h : ∀ s ∈ spans, s.Fits) {a : UInt64} :
    a ∈ addressesOf spans ↔ ∃ s ∈ spans, s.Covers a := by
  rw [addressesOf, List.mem_flatMap]
  exact exists_congr fun s => and_congr_right fun hs => (h s hs).mem_addresses

/-- Spans that have been written hold the bytes, and nothing else has changed. -/
theorem commitSpans_ok (hM : StoresBytes M) {mem mem' : M} {log log' : Array PhysSpan}
    {spans : List PhysSpan} {data : List UInt8} (hfits : ∀ s ∈ spans, s.Fits)
    (hdisjoint : spans.Pairwise PhysSpan.Disjoint)
    (hlength : (spans.map PhysSpan.length).sum = data.length)
    (h : commitSpans mem log spans data = (.ok (), mem', log')) :
    log' = log ++ spans ∧ translate mem' = translate mem ∧
      (addressesOf spans).map (byteAt mem') = data.map some ∧
      ∀ a, (∀ s ∈ spans, ¬s.Covers a) → byteAt mem' a = byteAt mem a := by
  induction spans generalizing mem log data with
  | nil =>
    cases h
    have hnil : data = [] := List.length_eq_zero_iff.1 hlength.symm
    exact ⟨by simp, rfl, by rw [hnil]; rfl, fun _ _ => rfl⟩
  | cons s spans ih =>
    rw [List.map_cons, List.sum_cons] at hlength
    have htake : (data.take s.length).length = s.length := by
      rw [List.length_take]
      omega
    rw [commitSpans] at h
    rcases hwrite : GuestMemory.write mem s.start (data.take s.length) with ⟨e | u, mem₁⟩
    · rw [hwrite] at h
      cases h
    · rw [hwrite] at h
      have hs : PhysSpan.Fits ⟨s.start, (data.take s.length).length⟩ := by
        rw [htake]
        exact hfits s List.mem_cons_self
      have hstored := hM.stored mem mem₁ s.start _ hs hwrite
      have hkept := hM.kept mem mem₁ s.start _ hs hwrite
      rw [htake] at hstored hkept
      obtain ⟨hfirst, hrest⟩ := List.pairwise_cons.1 hdisjoint
      obtain ⟨hlog, htranslate, hbytes, hframe⟩ := ih
        (fun t ht => hfits t (List.mem_cons_of_mem s ht)) hrest (by rw [List.length_drop]; omega) h
      refine ⟨?_, ?_, ?_, fun a ha => ?_⟩
      · rw [hlog, push_append]
      · rw [htranslate, hM.translate_write mem mem₁ s.start _ hwrite]
      · -- The spans behind the first one leave the bytes in it alone.
        have hlater : s.addresses.map (byteAt mem') = s.addresses.map (byteAt mem₁) :=
          List.map_congr_left fun a ha => hframe a fun t ht =>
            hfirst t ht a ((hfits s List.mem_cons_self).mem_addresses.1 ha)
        rw [addressesOf, List.flatMap_cons, List.map_append, hlater, hstored]
        show _ ++ (addressesOf spans).map (byteAt mem') = _
        rw [hbytes, ← List.map_append, List.take_append_drop]
      · rw [hframe a fun t ht => ha t (List.mem_cons_of_mem s ht)]
        exact hkept a (ha s List.mem_cons_self)

/-- Reading some spans one by one finds the bytes at their addresses. -/
theorem exists_parts_iff (hM : StoresBytes M) {mem : M} {spans : List PhysSpan} {data : List UInt8}
    (hpos : ∀ s ∈ spans, 0 < s.length) (hfits : ∀ s ∈ spans, s.Fits) :
    (∃ parts : List (List UInt8), data = parts.flatten ∧
        spans.map (fun s => readBytes mem s.start s.length) = parts.map .ok) ↔
      (addressesOf spans).map (byteAt mem) = data.map some := by
  induction spans generalizing data with
  | nil =>
    constructor
    · rintro ⟨parts, rfl, hreads⟩
      rw [List.map_eq_nil_iff.1 hreads.symm]
      rfl
    · intro h
      exact ⟨[], List.map_eq_nil_iff.1 h.symm, rfl⟩
  | cons s spans ih =>
    obtain ⟨hpos₁, hpos⟩ := List.forall_mem_cons.1 hpos
    obtain ⟨hfits₁, hfits⟩ := List.forall_mem_cons.1 hfits
    have hfirst (bytes : List UInt8) := hM.readBytes_ok mem s bytes hpos₁ hfits₁
    rw [addressesOf, List.flatMap_cons, List.map_append]
    constructor
    · rintro ⟨parts, rfl, hreads⟩
      obtain ⟨bytes, rest, rfl, hbytes, hrest⟩ := List.map_eq_cons_iff.1 hreads.symm
      rw [List.flatten_cons, List.map_append, (hfirst bytes).1 hbytes.symm]
      exact congrArg _ ((ih hpos hfits).1 ⟨rest, rfl, hrest.symm⟩)
    · intro h
      obtain ⟨head, tail, rfl, hhead, htail⟩ := List.map_eq_append_iff.1 h.symm
      obtain ⟨parts, rfl, hreads⟩ := (ih hpos hfits).2 htail.symm
      exact ⟨head :: parts, rfl,
        by rw [List.map_cons, hreads, (hfirst head).2 hhead.symm, List.map_cons]⟩

/-- The bytes of an access are those at the addresses of its spans. -/
theorem map_byteAt_of_mapForAccess (hM : StoresBytes M) {mem : M} {linear : UInt64} {n : Nat}
    {access : Access} {cpl : UInt8} {m : Mapping}
    (h : mapForAccess mem linear n access cpl = .ok m) (hpos : ∀ s ∈ m.spans, 0 < s.length)
    (hfits : ∀ s ∈ m.spans, s.Fits) :
    (addressesOf m.spans).map (byteAt mem) = m.data.map some :=
  (exists_parts_iff hM hpos hfits).1 (mapForAccess_ok h).2.2

theorem byteAt_ne_none_of_map {mem : M} {addresses : List UInt64} {data : List UInt8}
    (h : addresses.map (byteAt mem) = data.map some) {a : UInt64} (ha : a ∈ addresses) :
    byteAt mem a ≠ none := by
  intro hnone
  have hmem : none ∈ addresses.map (byteAt mem) := List.mem_map.2 ⟨a, ha, hnone⟩
  rw [h] at hmem
  simp at hmem

/-- Where all bytes of its spans are there, an access finds them. -/
theorem mapForAccess_of_map_byteAt (hM : StoresBytes M) {mem : M} {linear : UInt64} {n : Nat}
    {access : Access} {cpl : UInt8} {first : PhysSpan} {second : Option PhysSpan}
    {data : List UInt8} (hspans : mapSpans mem linear n access cpl = .ok (first, second))
    (hpos : ∀ s ∈ first :: second.toList, 0 < s.length)
    (hfits : ∀ s ∈ first :: second.toList, s.Fits)
    (hbytes : (addressesOf (first :: second.toList)).map (byteAt mem) = data.map some) :
    mapForAccess mem linear n access cpl = .ok ⟨linear, access, first, second, data⟩ := by
  obtain ⟨parts, rfl, hreads⟩ := (exists_parts_iff hM hpos hfits).2 hbytes
  unfold mapForAccess
  cases second with
  | none =>
    obtain ⟨head, rest, rfl, hhead, hrest⟩ := List.map_eq_cons_iff.1 hreads.symm
    cases List.map_eq_nil_iff.1 hrest
    simp [hspans, bind, Except.bind, ← hhead, pure, Except.pure]
  | some t =>
    obtain ⟨head, rest, rfl, hhead, hrest⟩ := List.map_eq_cons_iff.1 hreads.symm
    obtain ⟨tail, rest, rfl, htail, hrest⟩ := List.map_eq_cons_iff.1 hrest
    cases List.map_eq_nil_iff.1 hrest
    simp [hspans, bind, Except.bind, ← hhead, ← htail, pure, Except.pure]

/-! ## Translations by page -/

/-- Addresses lead to their place on the page that theirs leads to, and so do all others on the page
    that memory has a byte for. What can be written can be read in the same place. -/
structure TranslatesPages (mem : M) (cpl : UInt8) : Prop where
  offset : ∀ (a : UInt64) (access : Access) (p : UInt64), translate mem a access cpl = .ok p →
    pageOffset p = pageOffset a
  page : ∀ (a b : UInt64) (access : Access) (p : UInt64), translate mem a access cpl = .ok p →
    pageOf b = pageOf a → byteAt mem (pageOf p ||| pageOffset b) ≠ none →
      translate mem b access cpl = .ok (pageOf p ||| pageOffset b)
  readable : ∀ (a p : UInt64), translate mem a .write cpl = .ok p →
    translate mem a .read cpl = .ok p

namespace TranslatesPages

variable {mem : M} {cpl : UInt8} {access : Access} {a p : UInt64}

theorem offset_eq (h : TranslatesPages mem cpl) (hp : translate mem a access cpl = .ok p) :
    p.toNat % 4096 = a.toNat % 4096 := by
  rw [← toNat_pageOffset, ← toNat_pageOffset, h.offset a access p hp]

/-- Addresses that follow on the page lead to those that follow. -/
theorem translate_add (h : TranslatesPages mem cpl) (hp : translate mem a access cpl = .ok p)
    {i : Nat} (hi : i < pageRoom a) (hbyte : byteAt mem (p + i.toUInt64) ≠ none) :
    translate mem (a + i.toUInt64) access cpl = .ok (p + i.toUInt64) := by
  have hoffset := h.offset_eq hp
  rw [pageRoom_eq] at hi
  have hnat : i.toUInt64.toNat = i := UInt64.toNat_ofNat_of_lt' (by show _ < 2 ^ 64; omega)
  have ha := a.toNat_lt
  have hp' := p.toNat_lt
  have hpage : pageOf (a + i.toUInt64) = pageOf a := by
    rw [pageOf_eq_iff, UInt64.toNat_add, hnat]
    omega
  have hplace : pageOf p ||| pageOffset (a + i.toUInt64) = p + i.toUInt64 := by
    rw [or_pageOffset (pageOf_mod p), ← UInt64.toNat_inj, toNat_page_add_pageOffset (pageOf_mod p),
      toNat_pageOf, UInt64.toNat_add, UInt64.toNat_add, hnat]
    omega
  have htranslate := h.page a (a + i.toUInt64) access p hp hpage
  rw [hplace] at htranslate
  exact htranslate hbyte

end TranslatesPages

namespace FlatMemory

theorem translate_ok {m : FlatMemory} {a p : UInt64} {access : Access} {cpl : UInt8} :
    translate m a access cpl = .ok p ↔ p = a ∧ m.unmapped.contains (pageOf a) = false ∧
      a.toNat < m.bytes.size ∧
      ¬(access = .write ∧ m.writeProtected.contains (pageOf a) = true) := by
  show translateFlat m a access cpl = .ok p ↔ _
  unfold translateFlat
  dsimp only
  split_ifs with h h'
  · refine iff_of_false id ?_
    rintro ⟨-, hmapped, hsize, -⟩
    simp only [hmapped, Bool.false_or, decide_eq_true_eq] at h
    omega
  · refine iff_of_false id ?_
    rintro ⟨-, -, -, hwritable⟩
    exact hwritable (by simpa using h')
  · simp only [Bool.or_eq_true, decide_eq_true_eq, not_or, Bool.not_eq_true, Nat.not_le] at h
    rw [Except.ok.injEq, eq_comm]
    exact ⟨fun hp => ⟨hp, h.1, h.2, by simpa using h'⟩, And.left⟩

/-- Flat memory translates by page, whatever is unmapped or protected. -/
theorem translatesPages (m : FlatMemory) (cpl : UInt8) : TranslatesPages m cpl where
  offset a access p h := by rw [(translate_ok.1 h).1]
  page a b access p h hpage hbyte := by
    obtain ⟨rfl, hmapped, -, hwritable⟩ := translate_ok.1 h
    have hb : pageOf p ||| pageOffset b = b := by
      rw [← hpage, or_pageOffset (pageOf_mod b), pageOf_add_pageOffset]
    rw [hb] at hbyte ⊢
    rw [byteAt_eq, Ne, Array.getElem?_eq_none_iff, Nat.not_le] at hbyte
    exact translate_ok.2 ⟨rfl, hpage ▸ hmapped, hbyte, hpage ▸ hwritable⟩
  readable a p h := by
    obtain ⟨rfl, hmapped, hsize, -⟩ := translate_ok.1 h
    exact translate_ok.2 ⟨rfl, hmapped, hsize, fun hcontra => by cases hcontra.1⟩

end FlatMemory

theorem pageOf_or_pageOffset {p : UInt64} (h : p.toNat % 4096 = 0) (a : UInt64) :
    pageOf (p ||| pageOffset a) = p := by
  rw [or_pageOffset h, ← UInt64.toNat_inj, toNat_pageOf, toNat_page_add_pageOffset h]
  omega

theorem pageOffset_or_pageOffset {p : UInt64} (h : p.toNat % 4096 = 0) (a : UInt64) :
    pageOffset (p ||| pageOffset a) = pageOffset a := by
  rw [or_pageOffset h, ← UInt64.toNat_inj, toNat_pageOffset, toNat_page_add_pageOffset h,
    toNat_pageOffset]
  omega

namespace RemappedMemory

/-- An address leads to the page that the table has for its own, or where flat memory leads it. -/
theorem translate_cases {m : RemappedMemory} {a p : UInt64} {access : Access} {cpl : UInt8}
    (h : translate m a access cpl = .ok p) :
    (∃ page, m.table.lookup (pageOf a) = some page ∧ p = page ||| pageOffset a) ∨
      m.table.lookup (pageOf a) = none ∧ translate m.flat a access cpl = .ok p := by
  change translateRemapped m a access cpl = .ok p at h
  unfold translateRemapped at h
  split at h
  · rename_i page hlookup
    cases h
    exact .inl ⟨page, hlookup, rfl⟩
  · rename_i hlookup
    exact .inr ⟨hlookup, h⟩

theorem translate_of_some {m : RemappedMemory} {a page : UInt64}
    (h : m.table.lookup (pageOf a) = some page) (access : Access) (cpl : UInt8) :
    translate m a access cpl = .ok (page ||| pageOffset a) := by
  show translateRemapped m a access cpl = _
  rw [translateRemapped, h]

theorem translate_of_none {m : RemappedMemory} {a : UInt64}
    (h : m.table.lookup (pageOf a) = none) (access : Access) (cpl : UInt8) :
    translate m a access cpl = translate m.flat a access cpl := by
  show translateRemapped m a access cpl = _
  rw [translateRemapped, h]

/-- Memory behind a page table translates by page. Several linear pages may lead to one physical
    page. -/
theorem translatesPages {m : RemappedMemory} (h : ∀ e ∈ m.table, e.2.toNat % 4096 = 0)
    (cpl : UInt8) : TranslatesPages m cpl := by
  have haligned {a page : UInt64} (hpage : m.table.lookup (pageOf a) = some page) :
      page.toNat % 4096 = 0 := by
    obtain ⟨l₁, l₂, htable, -⟩ := List.lookup_eq_some_iff.1 hpage
    exact h (pageOf a, page) (by simp [htable])
  have hflat := m.flat.translatesPages cpl
  constructor
  · intro a access p hp
    obtain ⟨page, hpage, rfl⟩ | ⟨-, hp⟩ := translate_cases hp
    · exact pageOffset_or_pageOffset (haligned hpage) a
    · exact hflat.offset a access p hp
  · intro a b access p hp hab hbyte
    obtain ⟨page, hpage, rfl⟩ | ⟨hnone, hp⟩ := translate_cases hp
    · rw [pageOf_or_pageOffset (haligned hpage)]
      exact translate_of_some (hab ▸ hpage) access cpl
    · rw [translate_of_none (hab ▸ hnone)]
      exact hflat.page a b access p hp hab hbyte
  · intro a p hp
    obtain ⟨page, hpage, rfl⟩ | ⟨hnone, hp⟩ := translate_cases hp
    · exact translate_of_some hpage .read cpl
    · rw [translate_of_none hnone]
      exact hflat.readable a p hp

end RemappedMemory

/-- The span of an access that stays on its page, and the two spans of one that does not. -/
theorem mapSpans_cases {mem : M} {linear : UInt64} {n : Nat} {access : Access} {cpl : UInt8}
    {first : PhysSpan} {second : Option PhysSpan}
    (h : mapSpans mem linear n access cpl = .ok (first, second)) :
    ∃ p, translate mem linear access cpl = .ok p ∧
      ((n ≤ pageRoom linear ∧ first = ⟨p, n⟩ ∧ second = none) ∨
        ∃ q, pageRoom linear < n ∧ translate mem (nextPage linear) access cpl = .ok q ∧
          first = ⟨p, pageRoom linear⟩ ∧ second = some ⟨q, n - pageRoom linear⟩) := by
  unfold mapSpans at h
  obtain ⟨p, hp, h⟩ := except_bind_eq_ok.1 h
  refine ⟨p, hp, ?_⟩
  dsimp only at h
  split_ifs at h with hroom
  · obtain ⟨q, hq, h⟩ := except_bind_eq_ok.1 h
    cases h
    exact .inr ⟨q, hroom, hq, rfl, rfl⟩
  · cases h
    exact .inl ⟨Nat.le_of_not_lt hroom, rfl, rfl⟩

/-- The spans of an access to at most a page. -/
theorem TranslatesPages.spans {mem : M} {cpl : UInt8} (hmem : TranslatesPages mem cpl)
    {linear : UInt64} {n : Nat} (hpos : 0 < n) (hn : n ≤ 4096) {access : Access} {first : PhysSpan}
    {second : Option PhysSpan} (h : mapSpans mem linear n access cpl = .ok (first, second)) :
    Spans n (first :: second.toList) := by
  obtain ⟨p, hp, hcases⟩ := mapSpans_cases h
  have hoffset := hmem.offset_eq hp
  have hp' := p.toNat_lt
  rw [pageRoom_eq] at hcases
  obtain ⟨hroom, rfl, rfl⟩ | ⟨q, hroom, hq, rfl, rfl⟩ := hcases
  · refine ⟨List.forall_mem_singleton.2 hpos, List.forall_mem_singleton.2 ?_,
      List.pairwise_singleton _ _, Nat.add_zero n⟩
    show p.toNat + n ≤ 2 ^ 64
    omega
  · have hq' := hmem.offset_eq hq
    rw [toNat_nextPage] at hq'
    have hqlt := q.toNat_lt
    refine ⟨List.forall_mem_cons.2 ⟨?_, List.forall_mem_singleton.2 ?_⟩,
      List.forall_mem_cons.2 ⟨?_, List.forall_mem_singleton.2 ?_⟩, List.pairwise_pair.2 ?_, ?_⟩
    · show 0 < 4096 - linear.toNat % 4096
      omega
    · show 0 < n - (4096 - linear.toNat % 4096)
      omega
    · show p.toNat + (4096 - linear.toNat % 4096) ≤ 2 ^ 64
      omega
    · show q.toNat + (n - (4096 - linear.toNat % 4096)) ≤ 2 ^ 64
      omega
    · -- The first span is at the end of its page, the second one at the start of its own, and both
      -- together are shorter than a page.
      rintro a ⟨hpa, hap⟩ ⟨hqa, haq⟩
      dsimp only at hpa hap hqa haq
      omega
    · show 4096 - linear.toNat % 4096 + (n - (4096 - linear.toNat % 4096) + 0) = n
      omega

theorem pageRoom_nextPage (a : UInt64) : pageRoom (nextPage a) = 4096 := by
  rw [pageRoom_eq, toNat_nextPage]
  omega

/-- What does not fit on the page goes on at the start of the next one. -/
theorem nextPage_add (a : UInt64) {i : Nat} (hroom : pageRoom a ≤ i) (hi : i ≤ 4096) :
    nextPage a + (i - pageRoom a).toUInt64 = a + i.toUInt64 := by
  rw [pageRoom_eq] at hroom ⊢
  have ha := a.toNat_lt
  have hnat : i.toUInt64.toNat = i := UInt64.toNat_ofNat_of_lt' (by show _ < 2 ^ 64; omega)
  have hrest : (i - (4096 - a.toNat % 4096)).toUInt64.toNat = i - (4096 - a.toNat % 4096) :=
    UInt64.toNat_ofNat_of_lt' (by show _ < 2 ^ 64; omega)
  rw [← UInt64.toNat_inj, UInt64.toNat_add, UInt64.toNat_add, toNat_nextPage, hnat, hrest]
  omega

/-- The bytes of an access are where their own addresses lead. -/
theorem TranslatesPages.translate_getElem {mem : M} {cpl : UInt8} (hmem : TranslatesPages mem cpl)
    {linear : UInt64} {n : Nat} (hn : n ≤ 4096) {access : Access} {first : PhysSpan}
    {second : Option PhysSpan} (h : mapSpans mem linear n access cpl = .ok (first, second))
    (hbytes : ∀ a ∈ addressesOf (first :: second.toList), byteAt mem a ≠ none) {i : Nat}
    (hi : i < (addressesOf (first :: second.toList)).length) :
    translate mem (linear + i.toUInt64) access cpl =
      .ok (addressesOf (first :: second.toList))[i] := by
  have hbyte := hbytes _ (List.getElem_mem hi)
  obtain ⟨p, hp, ⟨hroom, rfl, rfl⟩ | ⟨q, hroom, hq, rfl, rfl⟩⟩ := mapSpans_cases h
  · have hi' : i < n := by simpa [length_addressesOf] using hi
    simp only [addressesOf, Option.toList_none, List.flatMap_cons, List.flatMap_nil,
      List.append_nil, PhysSpan.getElem_addresses] at hbyte ⊢
    exact hmem.translate_add hp (by omega) hbyte
  · have hi' : i < pageRoom linear + (n - pageRoom linear) := by
      simpa [length_addressesOf] using hi
    simp only [addressesOf, Option.toList_some, List.flatMap_cons, List.flatMap_nil,
      List.append_nil, List.getElem_append, PhysSpan.length_addresses,
      PhysSpan.getElem_addresses] at hbyte ⊢
    split_ifs at hbyte ⊢ with hfirst
    · exact hmem.translate_add hp hfirst hbyte
    · rw [← nextPage_add linear (Nat.le_of_not_lt hfirst) (by omega)]
      exact hmem.translate_add hq (by rw [pageRoom_nextPage]; omega) hbyte

/-! ## Stores -/

/-- What may be written through a segment may be read through it, at the same address. -/
theorem Cpu.linearAddress_read {cpu : Cpu} {s : SegmentName} {offset n linear : UInt64}
    (h : cpu.linearAddress s offset n true = .ok linear) :
    cpu.linearAddress s offset n false = .ok linear := by
  unfold linearAddress at h ⊢
  by_cases h64 : cpu.is64Bit
  · rwa [if_pos h64] at h ⊢
  · rw [if_neg h64] at h ⊢
    dsimp only at h ⊢
    split at h
    · cases h
    · rename_i hok
      rw [if_neg, ← h]
      intro hlimit
      rw [Bool.false_and, Bool.or_false] at hlimit
      exact hok (by rw [hlimit, Bool.true_or])

theorem data_setWord {m : Mapping} (h : m.data.length ≤ 8) (v : UInt64) :
    (m.setWord v).data = bytesOfWord m.data.length v := by
  show (bytesOfWord 8 v).take m.data.length ++ m.data.drop (bytesOfWord 8 v).length = _
  rw [length_bytesOfWord, List.drop_eq_nil_of_le h, List.append_nil, take_bytesOfWord_of_le h]

theorem TranslatesPages.mapSpans_read {mem : M} {cpl : UInt8} (hmem : TranslatesPages mem cpl)
    {linear : UInt64} {n : Nat} {first : PhysSpan} {second : Option PhysSpan}
    (h : mapSpans mem linear n .write cpl = .ok (first, second)) :
    mapSpans mem linear n .read cpl = .ok (first, second) := by
  obtain ⟨p, hp, ⟨hroom, rfl, rfl⟩ | ⟨q, hroom, hq, rfl, rfl⟩⟩ := mapSpans_cases h
  · simp only [mapSpans, hmem.readable _ _ hp, bind, Except.bind]
    rw [if_neg (Nat.not_lt.2 hroom)]
    rfl
  · simp only [mapSpans, hmem.readable _ _ hp, hmem.readable _ _ hq, bind, Except.bind]
    rw [if_pos hroom]
    rfl

/-- What a store that succeeds has gone through. -/
theorem Exec.writeMem_ok {m m' : Machine M} {s : SegmentName} {offset : UInt64}
    {size : OperandSize} {v : UInt64} (h : writeMem s offset size v m = (.ok (), m')) :
    ∃ linear mapping, m.cpu.linearAddress s offset size.step true = .ok linear ∧
      mapForAccess m.mem linear size.bytes .write m.cpu.cpl = .ok mapping ∧
      commitSpans m.mem m.log mapping.spans (mapping.setWord v).data = (.ok (), m'.mem, m'.log) ∧
      m'.cpu = m.cpu := by
  obtain ⟨cpu, mem, log⟩ := m
  obtain ⟨e, hfault⟩ | ⟨linear, mapping, hlinear, hmap, hstore⟩ :=
    writeMem_stages cpu mem s offset size v
  · rw [hfault] at h
    cases h
  · have hwrite : (mapping.setWord v).access = .write := (mapForAccess_ok hmap).1
    rcases hcommit : (mapping.setWord v).commit mem log with ⟨r, mem', log'⟩
    rw [hstore log _ _ _ hcommit] at h
    cases h
    rw [Mapping.commit, if_pos hwrite] at hcommit
    exact ⟨linear, mapping, hlinear, hmap, hcommit, rfl⟩

theorem Exec.readMem_ok {m : Machine M} {s : SegmentName} {offset linear : UInt64}
    {size : OperandSize} {mapping : Mapping}
    (hlinear : m.cpu.linearAddress s offset size.step false = .ok linear)
    (hmap : mapForAccess m.mem linear size.bytes .read m.cpu.cpl = .ok mapping) :
    readMem s offset size m = (.ok mapping.word, m) := by
  simp only [readMem, check_apply, hlinear, hmap, bind, Except.bind]
  rfl

theorem toNat_wordOfBytes_bytesOfWord (size : OperandSize) (v : UInt64) :
    (wordOfBytes (bytesOfWord size.bytes v)).toNat = v.toNat % 2 ^ size.bits := by
  rw [toNat_wordOfBytes (by rw [length_bytesOfWord]; exact size.bytes_le_eight),
    unsignedValue_bytesOfWord, OperandSize.bits, Nat.pow_mul']

/-- An operand that has been stored can be loaded. -/
theorem Exec.readMem_of_writeMem (hM : StoresBytes M) {m m' : Machine M} {s : SegmentName}
    {offset v : UInt64} {size : OperandSize} (hpages : TranslatesPages m.mem m.cpu.cpl)
    (h : writeMem s offset size v m = (.ok (), m')) :
    ∃ w, readMem s offset size m' = (.ok w, m') ∧ w.toNat = v.toNat % 2 ^ size.bits := by
  obtain ⟨linear, mapping, hlinear, hmap, hcommit, hcpu⟩ := writeMem_ok h
  have hsize : size.bytes ≤ 8 := size.bytes_le_eight
  have hsize' : 0 < size.bytes := by cases size <;> decide
  have hmapSpans := (mapForAccess_ok hmap).2.1
  have hspans : Spans size.bytes mapping.spans := hpages.spans hsize' (by omega) hmapSpans
  have hlength : mapping.data.length = size.bytes := (length_mapForAccess hmap).trans hspans.sum
  rw [data_setWord (by omega), hlength] at hcommit
  obtain ⟨-, htranslate, hbytes, -⟩ := commitSpans_ok hM hspans.fits hspans.disjoint
    (by rw [hspans.sum, length_bytesOfWord]) hcommit
  have hread : mapForAccess m'.mem linear size.bytes .read m.cpu.cpl =
      .ok ⟨linear, .read, mapping.first, mapping.second, bytesOfWord size.bytes v⟩ := by
    refine mapForAccess_of_map_byteAt hM ?_ hspans.pos hspans.fits hbytes
    rw [mapSpans, htranslate]
    exact hpages.mapSpans_read hmapSpans
  rw [← hcpu] at hlinear hread
  exact ⟨_, readMem_ok (Cpu.linearAddress_read hlinear) hread,
    toNat_wordOfBytes_bytesOfWord size v⟩

/-- **A store is read back and touches nothing else.** If an operand has been stored through a
    segment, in memory that stores bytes and translates by page, then reading it back gives its
    value modulo two to its width. The spans that have been logged do not overlap and have as many
    bytes as the operand, all bytes outside them are as they were, and each byte of the value is
    where its own linear address leads. -/
theorem readMem_writeMem (hM : StoresBytes M) {m m' : Machine M} {s : SegmentName}
    {offset : UInt64} {size : OperandSize} {v : UInt64}
    (hpages : TranslatesPages m.mem m.cpu.cpl)
    (h : Exec.writeMem s offset size v m = (.ok (), m')) :
    (∃ w, Exec.readMem s offset size m' = (.ok w, m') ∧ w.toNat = v.toNat % 2 ^ size.bits) ∧
    ∃ (linear : UInt64) (new : List PhysSpan),
      m.cpu.linearAddress s offset size.step true = .ok linear ∧
      m'.cpu = m.cpu ∧ m'.log = m.log ++ new ∧
      new.Pairwise PhysSpan.Disjoint ∧ (new.map PhysSpan.length).sum = size.bytes ∧
      (∀ a, (∀ t ∈ new, ¬t.Covers a) → byteAt m'.mem a = byteAt m.mem a) ∧
      ∀ i < size.bytes, ∃ p b,
        translate m'.mem (linear + i.toUInt64) .write m.cpu.cpl = .ok p ∧
        translate m'.mem (linear + i.toUInt64) .read m.cpu.cpl = .ok p ∧
        (∃ t ∈ new, t.Covers p) ∧ byteAt m'.mem p = some b ∧ b.toNat = v.toNat / 256 ^ i % 256 := by
  obtain ⟨linear, mapping, hlinear, hmap, hcommit, hcpu⟩ := Exec.writeMem_ok h
  have hsize : size.bytes ≤ 8 := size.bytes_le_eight
  have hsize' : 0 < size.bytes := by cases size <;> decide
  have hmapSpans := (mapForAccess_ok hmap).2.1
  have hspans : Spans size.bytes mapping.spans := hpages.spans hsize' (by omega) hmapSpans
  have hlength : mapping.data.length = size.bytes := (length_mapForAccess hmap).trans hspans.sum
  have hdata : (mapping.setWord v).data = bytesOfWord size.bytes v := by
    rw [data_setWord (by omega), hlength]
  rw [hdata] at hcommit
  obtain ⟨hlog, htranslate, hbytes, hframe⟩ := commitSpans_ok hM hspans.fits hspans.disjoint
    (by rw [hspans.sum, length_bytesOfWord]) hcommit
  have hbefore := map_byteAt_of_mapForAccess hM hmap hspans.pos hspans.fits
  refine ⟨?_, linear, mapping.spans, hlinear, hcpu, hlog, hspans.disjoint, hspans.sum, hframe,
    fun i hi => ?_⟩
  · exact Exec.readMem_of_writeMem hM hpages h
  · have hi' : i < (addressesOf mapping.spans).length := by rwa [length_addressesOf, hspans.sum]
    have hp := hpages.translate_getElem (by omega) hmapSpans
      (fun a ha => byteAt_ne_none_of_map hbefore ha) hi'
    have hb := List.getElem_of_eq hbytes (i := i) (by simpa using hi')
    rw [List.getElem_map, List.getElem_map] at hb
    rw [htranslate]
    exact ⟨_, _, hp, hpages.readable _ _ hp,
      (mem_addressesOf hspans.fits).1 (List.getElem_mem hi'), hb, getElem_bytesOfWord v _⟩

/-- The same for a store across the boundary of two pages that lead to one and the same physical
    page, at its end and at its start. -/
theorem readMem_writeMem_aliased :
    ∃ (m m' : Machine RemappedMemory) (new : List PhysSpan),
      m.mem.table = [(0, 0x1000), (0x1000, 0x1000)] ∧
      Exec.writeMem .ds 0xFFE .bits32 0x11223344 m = (.ok (), m') ∧
      (∃ w, Exec.readMem .ds 0xFFE .bits32 m' = (.ok w, m') ∧ w.toNat = 0x11223344) ∧
      m'.log = m.log ++ new ∧ new = [⟨0x1FFE, 2⟩, ⟨0x1000, 2⟩] ∧ new.Pairwise PhysSpan.Disjoint ∧
      ∀ a, (∀ t ∈ new, ¬t.Covers a) → byteAt m'.mem a = byteAt m.mem a := by
  obtain ⟨m, hm⟩ : ∃ m : Machine RemappedMemory, m = ⟨Cpu.realMode,
      { flat := FlatMemory.zeros 0x2000, table := [(0, 0x1000), (0x1000, 0x1000)] }, #[]⟩ :=
    ⟨_, rfl⟩
  have hrun : (Exec.writeMem .ds 0xFFE .bits32 0x11223344 m).1.isOk = true ∧
      (Exec.writeMem .ds 0xFFE .bits32 0x11223344 m).2.log = #[⟨0x1FFE, 2⟩, ⟨0x1000, 2⟩] := by
    rw [hm]
    decide +kernel
  have htable : m.mem.table = [(0, 0x1000), (0x1000, 0x1000)] := by rw [hm]
  rcases hwrite : Exec.writeMem .ds 0xFFE .bits32 0x11223344 m with ⟨e | u, m'⟩
  · rw [hwrite] at hrun
    cases hrun.1
  · rw [hwrite] at hrun
    have hpages : TranslatesPages m.mem m.cpu.cpl :=
      RemappedMemory.translatesPages (by simp [htable]) _
    obtain ⟨⟨w, hread, hw⟩, linear, new, -, -, hlog, hdisjoint, -, hframe, -⟩ :=
      readMem_writeMem RemappedMemory.stores hpages hwrite
    have hnew : new = [⟨0x1FFE, 2⟩, ⟨0x1000, 2⟩] := by
      rw [hrun.2, show m.log = #[] by rw [hm]] at hlog
      simpa using congrArg Array.toList hlog.symm
    exact ⟨m, m', new, htable, hwrite, ⟨w, hread, hw⟩, hlog, hnew, hdisjoint, hframe⟩

end X86Replay

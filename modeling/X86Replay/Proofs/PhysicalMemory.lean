import X86Replay.Memory.Remapped
import X86Replay.Proofs.Recording
import X86Replay.Proofs.Transaction

/-!
# Memory as an array of bytes

* `PhysicalMemory`: memory whose physical bytes are the elements of an array; a write that succeeds
  changes its own span only, one that fails changes nothing, and neither changes the translation.
* `FlatMemory` and `RemappedMemory` are such memories.
* `Frame`, `Patched`: memory has changed inside some spans only, with or without its translation.
* `Writes.frame`: logged writes change bytes of the logged spans only.
* `SameCode`: two memories with the same translation and the same bytes of some ranges.
* `Frame.sameCode`: changes in spans that meet none of the ranges leave them alone.
-/

namespace X86Replay

/-! ## The laws -/

/-- Memory whose physical bytes are the elements of an array. -/
class PhysicalMemory (M : Type) [GuestMemory M] where
  /-- The bytes. -/
  cells : M → Array UInt8
  readBytes_ok : ∀ (mem : M) (start : UInt64) (n : Nat) (bytes : List UInt8),
    readBytes mem start n = .ok bytes ↔ start.toNat + n ≤ (cells mem).size ∧
      bytes = ((cells mem).extract start.toNat (start.toNat + n)).toList
  translate_write : ∀ (mem : M) (start : UInt64) (data : List UInt8),
    translate (GuestMemory.write mem start data).2 = translate mem
  size_write : ∀ (mem : M) (start : UInt64) (data : List UInt8),
    (cells (GuestMemory.write mem start data).2).size = (cells mem).size
  write_ok : ∀ (mem : M) (start : UInt64) (data : List UInt8) (mem' : M),
    GuestMemory.write mem start data = (.ok (), mem') →
      start.toNat + data.length ≤ (cells mem).size ∧
        ∀ a, a < start.toNat ∨ start.toNat + data.length ≤ a →
          (cells mem')[a]? = (cells mem)[a]?
  write_error : ∀ (mem : M) (start : UInt64) (data : List UInt8) (e : Exception) (mem' : M),
    GuestMemory.write mem start data = (.error e, mem') → cells mem' = cells mem

export PhysicalMemory (cells)

/-! ## Flat and remapped memory -/

namespace FlatMemory

theorem size_splice (a : Array UInt8) (i : Nat) (data : List UInt8) :
    (splice a i data).size = a.size := by
  induction data generalizing a i with
  | nil => rfl
  | cons b data ih => rw [splice, ih, Array.size_setIfInBounds]

theorem getElem?_splice (a : Array UInt8) (i : Nat) (data : List UInt8) {k : Nat}
    (h : k < i ∨ i + data.length ≤ k) : (splice a i data)[k]? = a[k]? := by
  induction data generalizing a i with
  | nil => rfl
  | cons b data ih =>
    rw [List.length_cons] at h
    rw [splice, ih _ _ (by omega), Array.getElem?_setIfInBounds_ne (by omega)]

theorem readBytes_ok (m : FlatMemory) (start : UInt64) (n : Nat) (bytes : List UInt8) :
    readBytes m start n = .ok bytes ↔ start.toNat + n ≤ m.bytes.size ∧
      bytes = (m.bytes.extract start.toNat (start.toNat + n)).toList := by
  show (readFlat m start n).map Vector.toList = _ ↔ _
  unfold readFlat
  split_ifs with h
  · have hbytes : (Vector.ofFn fun i : Fin n => m.bytes[start.toNat + i]).toList =
        (m.bytes.extract start.toNat (start.toNat + n)).toList := by
      refine List.ext_getElem ?_ fun i hi hi' => ?_
      · rw [Vector.length_toList, Array.length_toList, Array.size_extract]
        omega
      · rw [Vector.getElem_toList, Vector.getElem_ofFn, Array.getElem_toList,
          Array.getElem_extract]
    rw [Except.map, hbytes, Except.ok.injEq]
    exact ⟨fun hb => ⟨h, hb.symm⟩, fun hb => hb.2.symm⟩
  · constructor
    · rintro ⟨⟩
    · exact fun hb => absurd hb.1 h

/-- Storing bytes does not change where addresses lead. -/
theorem translate_load (m : FlatMemory) (start : UInt64) (data : List UInt8) :
    translate (m.load start data) = translate m := by
  funext linear access cpl
  show translateFlat (m.load start data) linear access cpl = translateFlat m linear access cpl
  unfold translateFlat load
  rw [size_splice]

instance : PhysicalMemory FlatMemory where
  cells m := m.bytes
  readBytes_ok := readBytes_ok
  translate_write m start data := by
    show translate (writeFlat m start data).2 = _
    unfold writeFlat
    split_ifs
    · exact translate_load m start data
    · rfl
  size_write m start data := by
    show (writeFlat m start data).2.bytes.size = _
    unfold writeFlat
    split_ifs
    · exact size_splice _ _ _
    · rfl
  write_ok m start data m' h := by
    change writeFlat m start data = _ at h
    unfold writeFlat at h
    split_ifs at h with hsize
    · cases h
      exact ⟨hsize, fun a ha => getElem?_splice _ _ _ ha⟩
    · cases h
  write_error m start data e m' h := by
    change writeFlat m start data = _ at h
    unfold writeFlat at h
    split_ifs at h
    · cases h
    · cases h
      rfl

end FlatMemory

namespace RemappedMemory

/-- A write to remapped memory is refused, or is one to the flat memory behind it. -/
theorem write_cases (m : RemappedMemory) (start : UInt64) (data : List UInt8) :
    GuestMemory.write m start data = (.error (.generalProtection 0), m) ∨
      GuestMemory.write m start data =
        ((GuestMemory.write m.flat start data).1,
          { m with flat := (GuestMemory.write m.flat start data).2 }) := by
  show writeRemapped m start data = _ ∨ writeRemapped m start data = _
  unfold writeRemapped
  split_ifs
  · exact .inl rfl
  · exact .inr rfl

instance : PhysicalMemory RemappedMemory where
  cells m := cells m.flat
  readBytes_ok m := PhysicalMemory.readBytes_ok m.flat
  translate_write m start data := by
    obtain h | h := write_cases m start data
    · rw [h]
    · rw [h]
      funext linear access cpl
      show translateRemapped _ linear access cpl = translateRemapped m linear access cpl
      unfold translateRemapped
      rw [PhysicalMemory.translate_write]
  size_write m start data := by
    obtain h | h := write_cases m start data
    · rw [h]
    · rw [h]
      exact PhysicalMemory.size_write m.flat start data
  write_ok m start data m' h := by
    obtain h' | h' := write_cases m start data
    · rw [h'] at h
      cases h
    · rw [h', Prod.mk.injEq] at h
      obtain ⟨hok, rfl⟩ := h
      exact PhysicalMemory.write_ok m.flat start data _ (Prod.ext hok rfl)
  write_error m start data e m' h := by
    obtain h' | h' := write_cases m start data
    · rw [h'] at h
      cases h
      rfl
    · rw [h', Prod.mk.injEq] at h
      obtain ⟨herror, rfl⟩ := h
      exact PhysicalMemory.write_error m.flat start data e _ (Prod.ext herror rfl)

end RemappedMemory

variable {M : Type} [GuestMemory M] [PhysicalMemory M] {mem mem' : M}

/-! ## Reading -/

/-- The bytes that reads find are those of the array. -/
theorem ReadsByte.getElem? {a : Nat} {b : UInt8} (h : ReadsByte mem a b) :
    (cells mem)[a]? = some b := by
  obtain ⟨start, n, bytes, i, hread, hi, rfl⟩ := h
  obtain ⟨hsize, rfl⟩ := (PhysicalMemory.readBytes_ok mem start n bytes).1 hread
  rw [Array.getElem?_toList, Array.getElem?_extract] at hi
  split_ifs at hi
  exact hi

theorem ReadsByte.lt_size {a : Nat} {b : UInt8} (h : ReadsByte mem a b) :
    a < (cells mem).size := by
  have := h.getElem?
  rw [Array.getElem?_eq_some_iff] at this
  exact this.1

/-- A read inside memory succeeds. -/
theorem exists_readBytes (mem : M) (start : UInt64) {n : Nat}
    (h : start.toNat + n ≤ (cells mem).size) :
    ∃ bytes, readBytes mem start n = .ok bytes ∧ bytes.length = n ∧
      HoldsBytes mem start.toNat bytes := by
  have hread := (PhysicalMemory.readBytes_ok mem start n _).2 ⟨h, rfl⟩
  exact ⟨_, hread, length_readBytes hread, .of_read hread⟩

theorem agreeAt_of_cells {a : Nat} (h : (cells mem')[a]? = (cells mem)[a]?) :
    AgreeAt mem mem' a := by
  intro b b' hb hb'
  have hb := hb.getElem?
  rw [← h, hb'.getElem?] at hb
  exact (Option.some.inj hb).symm

/-! ## Writing -/

/-- Memory has changed inside some spans only. -/
structure Frame (spans : List PhysSpan) (mem mem' : M) : Prop where
  translate : translate mem' = translate mem
  size : (cells mem').size = (cells mem).size
  bytes : ∀ a, (∀ s ∈ spans, a < s.start.toNat ∨ s.start.toNat + s.length ≤ a) →
    (cells mem')[a]? = (cells mem)[a]?

/-- Bytes of memory have changed inside some spans only. Its translation may have changed as a
    whole. -/
structure Patched (spans : List PhysSpan) (mem mem' : M) : Prop where
  size : (cells mem').size = (cells mem).size
  bytes : ∀ a, (∀ s ∈ spans, a < s.start.toNat ∨ s.start.toNat + s.length ≤ a) →
    (cells mem')[a]? = (cells mem)[a]?

theorem Frame.patched {spans : List PhysSpan} (h : Frame spans mem mem') :
    Patched spans mem mem' :=
  ⟨h.size, h.bytes⟩

/-- **Writes whose spans are logged change those spans only**, all of which are inside memory. -/
theorem Writes.frame {spans : List PhysSpan} (h : Writes mem spans mem') :
    Frame spans mem mem' ∧ ∀ s ∈ spans, s.start.toNat + s.length ≤ (cells mem).size := by
  induction h with
  | nil mem => exact ⟨⟨rfl, rfl, fun _ _ => rfl⟩, fun _ hs => absurd hs List.not_mem_nil⟩
  | @landed mem mem₁ mem₂ s spans data hwrite hlength _ _ ih =>
    obtain ⟨hframe, hinside⟩ := ih
    obtain ⟨hfirst, hcells⟩ := PhysicalMemory.write_ok mem s.start data mem₁ hwrite
    have htranslate := PhysicalMemory.translate_write mem s.start data
    have hsize := PhysicalMemory.size_write mem s.start data
    rw [hwrite] at htranslate hsize
    rw [hlength] at hfirst hcells
    refine ⟨⟨hframe.translate.trans htranslate, hframe.size.trans hsize, fun a ha => ?_⟩, ?_⟩
    · rw [hframe.bytes a fun s' hs' => ha s' (List.mem_cons_of_mem _ hs')]
      exact hcells a (ha s List.mem_cons_self)
    · rintro s' (_ | ⟨_, hs'⟩)
      · exact hfirst
      · exact (hinside s' hs').trans_eq hsize
  | @failed mem mem₁ mem₂ start e spans data hwrite _ ih =>
    obtain ⟨hframe, hinside⟩ := ih
    have htranslate := PhysicalMemory.translate_write mem start data
    have hcells := PhysicalMemory.write_error mem start data e mem₁ hwrite
    rw [hwrite] at htranslate
    refine ⟨⟨hframe.translate.trans htranslate, ?_, fun a ha => ?_⟩, fun s hs => ?_⟩
    · rw [hframe.size, hcells]
    · rw [hframe.bytes a ha, hcells]
    · rw [← hcells]
      exact hinside s hs

/-! ## Code -/

/-- Two memories with the same translation and size and the same bytes of some ranges. -/
structure SameCode (ranges : List CodeRange) (mem mem' : M) : Prop where
  translate : translate mem' = translate mem
  size : (cells mem').size = (cells mem).size
  bytes : ∀ r ∈ ranges, ∀ a, r.Covers a → (cells mem')[a]? = (cells mem)[a]?

namespace SameCode

variable {ranges : List CodeRange} {mem'' : M}

theorem refl (ranges : List CodeRange) (mem : M) : SameCode ranges mem mem :=
  ⟨rfl, rfl, fun _ _ _ _ => rfl⟩

theorem trans (h : SameCode ranges mem mem') (h' : SameCode ranges mem' mem'') :
    SameCode ranges mem mem'' :=
  ⟨h'.translate.trans h.translate, h'.size.trans h.size,
    fun r hr a ha => (h'.bytes r hr a ha).trans (h.bytes r hr a ha)⟩

theorem mapForFetch_eq (h : SameCode ranges mem mem') (pc : UInt64) (cpl : UInt8) :
    mapForFetch mem' pc cpl = mapForFetch mem pc cpl := by
  rw [mapForFetch, h.translate, mapForFetch]

end SameCode

/-- Code that no changed span meets has stayed. -/
theorem Patched.getElem?_eq {spans : List PhysSpan} {ranges : List CodeRange}
    (h : Patched spans mem mem') (hlength : ∀ s ∈ spans, s.length < 2 ^ 64)
    (hranges : ∀ r ∈ ranges, r.start.toNat + r.length.toNat < 2 ^ 64)
    (hmeets : ∀ s ∈ spans, (ranges.any fun r => r.meets s.start s.length.toUInt64) = false)
    {a : Nat} (ha : ∃ r ∈ ranges, r.Covers a) : (cells mem')[a]? = (cells mem)[a]? := by
  obtain ⟨r, hr, ha⟩ := ha
  refine h.bytes a fun s hs => ?_
  have hnat : s.length.toUInt64.toNat = s.length := UInt64.toNat_ofNat_of_lt' (hlength s hs)
  by_contra hcontra
  refine List.any_eq_false.1 (hmeets s hs) r hr ?_
  exact (CodeRange.meets_iff (hranges r hr)).2 ⟨a, ha, by omega, by omega⟩

/-- **Changes in spans that meet none of the ranges leave the code in them alone.** -/
theorem Frame.sameCode {spans : List PhysSpan} {ranges : List CodeRange}
    (h : Frame spans mem mem') (hlength : ∀ s ∈ spans, s.length < 2 ^ 64)
    (hranges : ∀ r ∈ ranges, r.start.toNat + r.length.toNat < 2 ^ 64)
    (hmeets : ∀ s ∈ spans, (ranges.any fun r => r.meets s.start s.length.toUInt64) = false) :
    SameCode ranges mem mem' :=
  ⟨h.translate, h.size, fun r hr _ ha =>
    h.patched.getElem?_eq hlength hranges hmeets ⟨r, hr, ha⟩⟩

end X86Replay

import X86Replay.Memory.Sparse
import X86Replay.Proofs.WriteLog

/-!
# Memory as bytes at addresses

What the proofs about cached code ask of memory, whatever it is made of: its bytes have addresses,
and writes touch nothing but the bytes that they are for.

* `ByteMemory`: the laws. Memory that is an array of bytes obeys them, and so does sparse memory,
  whose bytes go up to the last physical address.
* `readsByte_iff`: the bytes that reads find are those at the addresses.
* `ChangedIn`: memory has changed inside some spans only.
* `Writes.changedIn`: logged writes change it inside the logged spans only.
-/

namespace X86Replay

/-- Reads find the bytes that are there. Writes change the bytes of their own span only, and none if
    they fail. -/
class ByteMemory (M : Type) [GuestMemory M] : Prop where
  byteAt_of_read : ∀ (mem : M) (start : UInt64) (n : Nat) (bytes : List UInt8),
    readBytes mem start n = .ok bytes → ∀ (i : Nat) (byte : UInt8), bytes[i]? = some byte →
      start.toNat + i < 2 ^ 64 → byteAt mem (start + i.toUInt64) = some byte
  inPlace : WritesInPlace M

/-! ## Arrays and sparse memory -/

/-- Memory that is an array of bytes. -/
instance {M : Type} [GuestMemory M] [PhysicalMemory M] : ByteMemory M where
  byteAt_of_read mem start n bytes hread i byte hi htop := by
    obtain ⟨-, rfl⟩ := (PhysicalMemory.readBytes_ok mem start n bytes).1 hread
    rw [Array.getElem?_toList, Array.getElem?_extract] at hi
    split_ifs at hi
    rw [byteAt_eq, toNat_add_toUInt64 htop]
    exact hi
  inPlace := writesInPlace

namespace SparseMemory

/-- Sparse memory has a byte at every address. -/
theorem byteAt_eq_some (m : SparseMemory) (a : UInt64) : X86Replay.byteAt m a = some (m.byteAt a) := by
  have htop := a.toNat_lt
  have hread : readBytes m a 1 = .ok [m.byteAt (a + 0)] := by
    show (readSparse m a 1).map Vector.toList = _
    unfold readSparse
    rw [if_pos (by show _ ≤ 2 ^ 64; omega)]
    rfl
  rw [X86Replay.byteAt, hread, UInt64.add_zero]
  rfl

/-- Bytes that are stored elsewhere make no difference. -/
theorem byteAt_entries {m : SparseMemory} {start a : UInt64} {data : List UInt8}
    (hfits : start.toNat + data.length ≤ 2 ^ 64) (ha : ¬PhysSpan.Covers ⟨start, data.length⟩ a) :
    ({ m with bytes := entries start data ++ m.bytes } : SparseMemory).byteAt a = m.byteAt a := by
  have hnone : (entries start data).lookup a = none := by
    rw [List.lookup_eq_none_iff]
    intro e he
    obtain ⟨⟨b, i⟩, hi, rfl⟩ := List.mem_map.1 he
    have hlt := (List.mem_zipIdx hi).2.1
    simp only [bne_iff_ne, ne_eq, PhysSpan.Covers] at ha ⊢
    rintro rfl
    rw [toNat_add_toUInt64 (by omega)] at ha
    omega
  rw [byteAt, List.lookup_append, hnone, Option.none_or, byteAt]

instance : ByteMemory SparseMemory where
  byteAt_of_read m start n bytes hread i byte hi _ := by
    change (readSparse m start n).map Vector.toList = .ok bytes at hread
    unfold readSparse at hread
    split_ifs at hread
    · cases hread
      rw [byteAt_eq_some, ← hi, List.getElem?_eq_getElem (List.getElem?_eq_some_iff.1 hi).1]
      simp
    · cases hread
  inPlace := {
    landed := fun m m' start data hwrite a hne => by
      change writeSparse m start data = _ at hwrite
      unfold writeSparse at hwrite
      split_ifs at hwrite with hfits
      · cases hwrite
        by_contra ha
        rw [byteAt_eq_some, byteAt_eq_some, byteAt_entries hfits ha] at hne
        exact hne rfl
      · cases hwrite
    failed := fun m m' start data e hwrite a => by
      change writeSparse m start data = _ at hwrite
      unfold writeSparse at hwrite
      split_ifs at hwrite
      · cases hwrite
      · cases hwrite
        rfl }

end SparseMemory

variable {M : Type} [GuestMemory M] [ByteMemory M] {mem mem' : M} {spans : List PhysSpan}

/-! ## Bytes that are read -/

/-- **The bytes that reads find are those at the addresses.** -/
theorem readsByte_iff {a : Nat} {b : UInt8} (ha : a < 2 ^ 64) :
    ReadsByte mem a b ↔ byteAt mem a.toUInt64 = some b := by
  constructor
  · rintro ⟨start, n, bytes, i, hread, hi, rfl⟩
    rw [← ByteMemory.byteAt_of_read mem start n bytes hread i b hi ha]
    congr 1
    rw [← UInt64.toNat_inj, CompileContext.toNat_toUInt64 ha, toNat_add_toUInt64 ha]
  · intro h
    obtain ⟨bytes, hread, hhead⟩ := Option.bind_eq_some_iff.1 h
    refine ⟨a.toUInt64, 1, bytes, 0, ?_, ?_, ?_⟩
    · rcases hbytes : readBytes mem a.toUInt64 1 with e | bytes'
      · rw [hbytes] at hread
        cases hread
      · rw [hbytes] at hread
        cases hread
        rfl
    · rw [← List.head?_eq_getElem?, hhead]
    · exact CompileContext.toNat_toUInt64 ha

/-! ## Changes -/

/-- Bytes of memory have changed inside some spans only. Its translation may have changed as a
    whole. -/
def ChangedIn (spans : List PhysSpan) (mem mem' : M) : Prop :=
  ∀ a, (∀ s ∈ spans, ¬s.Covers a) → byteAt mem' a = byteAt mem a

/-- **Writes whose spans are logged change those spans only.** -/
theorem Writes.changedIn (h : Writes mem spans mem') : ChangedIn spans mem mem' := by
  intro a ha
  by_contra hne
  obtain ⟨s, hs, hcovers⟩ := ByteMemory.inPlace.covers h hne
  exact ha s hs hcovers

/-- A write changes the bytes of its span only, whether it succeeds or not. -/
theorem changedIn_write (mem : M) (start : UInt64) (data : List UInt8) :
    ChangedIn [⟨start, data.length⟩] mem (GuestMemory.write mem start data).2 := by
  intro a ha
  rcases hwrite : GuestMemory.write mem start data with ⟨e | u, mem'⟩
  · exact ByteMemory.inPlace.failed mem mem' start data e hwrite a
  · by_contra hne
    exact ha _ (List.mem_singleton_self _) (ByteMemory.inPlace.landed mem mem' start data hwrite a hne)

end X86Replay

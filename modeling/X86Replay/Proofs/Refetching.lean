import X86Replay.Proofs.PhysicalMemory
import X86Replay.Proofs.SameMode
import X86Replay.Exec.Step

/-!
# Fetching an instruction again

`fetchInstruction_eq`: as long as memory holds the bytes that an encoding takes, fetching at its
place yields what the block has been compiled from.
-/

namespace X86Replay

open CompileContext

variable {M : Type} [GuestMemory M] [PhysicalMemory M] {c : CompileContext} {mem mem' : M}
  {page : UInt64} {o : Nat} {e : Encoding} {cpu : Cpu}

/-- Bytes that are held are inside memory. -/
theorem HoldsBytes.le_size {a : Nat} {bytes : List UInt8} (h : HoldsBytes mem a bytes)
    (hbytes : 0 < bytes.length) : a + bytes.length ≤ (cells mem).size := by
  have hlast := (h (bytes.length - 1) _ (List.getElem?_eq_getElem (by omega))).lt_size
  omega

/-- The bytes of the first page are inside memory. -/
theorem CompileContext.Reads.near_le_size (h : c.Reads mem page o e) (ho : c.place o < 4096) :
    page.toNat + c.place o + min (4096 - c.place o) maxInstructionLength ≤ (cells mem).size := by
  have hpos : 0 < min (4096 - c.place o) maxInstructionLength := by
    unfold maxInstructionLength
    omega
  cases h with
  | near hlength hholds =>
    rw [← hlength] at hpos ⊢
    exact hholds.le_size hpos
  | far _ hlength hholds =>
    rw [← hlength] at hpos ⊢
    exact hholds.le_size hpos

/-- **Fetching at the place of an encoding yields the encoding**, for every processor state of the
    mode and every memory that holds the bytes it takes. -/
theorem fetchInstruction_eq {ranges : List CodeRange} (hcpu : c.cpu.SameMode cpu)
    (hwidth : c.width = c.cpu.codeWidth)
    (hpage : mapForFetch mem c.start c.cpu.cpl = .ok page) (ho : c.place o < 4096)
    (he : c.Reads mem page o e) (hdec : c.Decides e) (hcode : SameCode ranges mem mem')
    (hcovers : ∀ j < e.length, ∃ r ∈ ranges, r.Covers (e.address (page.toNat + c.place o) j)) :
    fetchInstruction cpu mem' (c.pcAt o) = e.decoded.mapError DecodeError.exception := by
  have hagree (j : Nat) (hj : j < e.length) :
      AgreeAt mem mem' (e.address (page.toNat + c.place o) j) := by
    obtain ⟨r, hr, hr'⟩ := hcovers j hj
    exact agreeAt_of_cells (hcode.bytes r hr _ hr')
  have hroom : pageRoom (c.pcAt o) = 4096 - c.place o := by rw [pageRoom_eq, c.pcAt_mod ho]
  have hmapped : mapForFetch mem' (c.pcAt o) cpu.cpl = .ok page := by
    rw [hcode.mapForFetch_eq, mapForFetch_congr (c.pageOf_pcAt ho), hcpu.cpl_eq, hpage]
  have hstart : (page ||| pageOffset (c.pcAt o)).toNat = page.toNat + c.place o := by
    have hmod := mapForFetch_mod hpage
    rw [or_pageOffset hmod, toNat_page_add_pageOffset hmod, c.pcAt_mod ho]
  have hcodeWidth : cpu.codeWidth = c.width := by rw [hcpu.codeWidth_eq, hwidth]
  obtain ⟨near, hread, hlength, hholds⟩ := exists_readBytes mem' (page ||| pageOffset (c.pcAt o))
    (by rw [hstart, hcode.size]; exact he.near_le_size ho)
  rw [hstart] at hholds
  unfold fetchInstruction
  simp only [hroom, hmapped, hread, hcodeWidth, bind, Except.bind, decodeOrFault]
  -- The bytes on the first page say by themselves whether the next page is needed.
  obtain ⟨-, -, hdecode⟩ | ⟨far, next, ho', he', hlt, hdecode, hnext, hfarLength, hfarHolds⟩ :=
    he.first_page hdec hagree hlength hholds
  · have hne : decode c.width near ≠ .error .unexpectedEnd := by
      rw [hdecode, he.decoded]
      exact he.shapedAt.not_unexpectedEnd
    rw [if_neg, hdecode]
    rintro ⟨-, hcut⟩
    split at hcut
    · exact hne ‹_›
    · cases hcut
  · subst ho'
    have hshort := length_lt_of_unexpectedEnd hdecode
    have hmapped' : mapForFetch mem' (nextPage (c.pcAt 0)) cpu.cpl = .ok next := by
      rw [hcode.mapForFetch_eq, c.pcAt_zero, hcpu.cpl_eq, hnext]
    obtain ⟨far', hread', hlength', hholds'⟩ := exists_readBytes mem' next (by
        have hsize := hfarHolds.le_size (by omega)
        rw [hfarLength, hlength] at hsize
        rwa [hcode.size])
    obtain ⟨-, hdecode'⟩ := he.next_page hdec he' hagree hlt
      (by rw [hlength', hfarLength, hlength]) hfarHolds hholds'
    rw [if_pos ⟨by rwa [← hlength], by rw [hdecode]⟩]
    simp only [hmapped', hread', hdecode']

end X86Replay

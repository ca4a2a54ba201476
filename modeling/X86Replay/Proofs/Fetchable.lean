import X86Replay.Exec.Step
import X86Replay.Proofs.TwinWindows

/-!
# Code that can be fetched

Instructions are fetched in two ways: by a step, which reads their bytes at once, and by the
compiler, which reads a page in chunks and keeps what it has read. Both find the same bytes in
memory that can be read at all and does not change between two reads.

* `PageShows`: the bytes at a place of a page, however they are read.
* `Fetchable`: the code at CS:RIP can be fetched, and which bytes it is.
* `Fetchable.fetchInstruction_eq`: a step fetches these bytes.
* `Fetchable.exists_makes`: there is a block, whose first encoding has these bytes.
* `pageShows_cells`, `nearCode_cells`: memory that is an array of bytes shows those inside it.
-/

namespace X86Replay

variable {M : Type} [GuestMemory M] {mem : M}

/-! ## Pages -/

/-- The bytes at a place of a physical page. The page can be read up to their end, in whole chunks
    and in portions of any length, and the bytes are the same every time. -/
structure PageShows (mem : M) (page : UInt64) (place : Nat) (bytes : List UInt8) : Prop where
  readable : ∀ k n, k + n ≤ FetchWindow.target (place + bytes.length) →
    ∃ data, readBytes mem (page + k.toUInt64) n = .ok data
  holds : HoldsBytes mem (page.toNat + place) bytes
  steady : ∀ j < bytes.length, AgreeAt mem mem (page.toNat + place + j)

namespace PageShows

variable {page : UInt64} {place : Nat} {bytes bytes' : List UInt8}

/-- As many bytes that have been read there are these. -/
theorem eq_of_holds (h : PageShows mem page place bytes)
    (hholds : HoldsBytes mem (page.toNat + place) bytes') (hlength : bytes'.length = bytes.length) :
    bytes' = bytes := by
  have htake := take_eq_of_agree h.holds hholds hlength h.steady
  rwa [List.take_of_length_le hlength.le, List.take_length] at htake

/-- They can be read at once. -/
theorem readBytes_eq (h : PageShows mem page place bytes) (hpage : page.toNat % 4096 = 0)
    (hplace : place < 4096) (hend : place + bytes.length ≤ 4096) :
    readBytes mem (page + place.toUInt64) bytes.length = .ok bytes := by
  have htop := page.toNat_lt
  have hstart : (page + place.toUInt64).toNat = page.toNat + place :=
    toNat_add_toUInt64 (by omega)
  obtain ⟨data, hread⟩ := h.readable place bytes.length (FetchWindow.le_target hend)
  have hholds := HoldsBytes.of_read hread
  rw [hstart] at hholds
  rw [hread, h.eq_of_holds hholds (length_readBytes hread)]

/-- A window on the page can be read as far as they reach. -/
theorem exists_loadTo {w : FetchWindow} (h : PageShows mem page place bytes)
    (hw : w.physical = page) (hend : place + bytes.length ≤ 4096) :
    ∃ v, w.loadTo mem (place + bytes.length) = .ok v := by
  by_cases hle : place + bytes.length ≤ w.loaded.size
  · exact ⟨w, FetchWindow.loadTo_of_le mem hle⟩
  · have htarget := FetchWindow.le_target hend
    obtain ⟨data, hread⟩ := h.readable w.loaded.size
      (FetchWindow.target (place + bytes.length) - w.loaded.size) (by omega)
    rw [FetchWindow.loadTo_of_lt mem (Nat.lt_of_not_le hle), hw, hread]
    exact ⟨_, rfl⟩

/-- They are copied from a stream on the page. -/
theorem exists_copyBytes {s : FetchStream} {pc : UInt64} {limit : Nat}
    (h : PageShows mem page (pc.toNat % 4096) bytes)
    (hlength : bytes.length = min (4096 - pc.toNat % 4096) (min limit maxInstructionLength))
    (hs : s.OnPage mem pc page) :
    ∃ s', s.copyBytes mem pc limit = (.ok bytes, s') ∧ s'.OnPage mem pc page := by
  have hsize : pageSize.toNat = 4096 := rfl
  -- What is copied is known to be held in memory; it is left to show that copying does not fail.
  rcases hcopy : s.copyBytes mem pc limit with ⟨x | bytes', s'⟩
  · exfalso
    obtain ⟨w, hw, -, hlinear, hphysical⟩ := hs
    obtain ⟨v, hload⟩ := h.exists_loadTo hphysical (by omega)
    unfold FetchStream.copyBytes at hcopy
    rw [hw] at hcopy
    dsimp only at hcopy
    rw [hlinear, FetchWindow.toNat_sub_pageOf, hsize, ← hlength, hload] at hcopy
    cases hcopy
  · obtain ⟨hs', hlength', hholds⟩ := FetchStream.copyBytes_ok hs hcopy
    rw [h.eq_of_holds hholds (hlength'.trans hlength.symm)]
    exact ⟨s', rfl, hs'⟩

end PageShows

/-- The page of a program counter that is mapped can be resolved. -/
theorem FetchStream.exists_resolve {s : FetchStream} {cpu : Cpu} {pc page : UInt64}
    (hs : s.Current mem) (h : mapForFetch mem pc cpu.cpl = .ok page) :
    ∃ a s', s.resolve cpu mem pc = (.ok a, s') ∧ s'.OnPage mem pc page := by
  rcases hresolve : s.resolve cpu mem pc with ⟨x | a, s'⟩
  · rw [(resolve_error hresolve).1] at h
    cases h
  · obtain ⟨page', hpage', -, hs'⟩ := resolve_ok hs hresolve
    rw [h] at hpage'
    cases hpage'
    exact ⟨a, s', rfl, hs'⟩

/-! ## Code at CS:RIP -/

/-- The number of bytes from a program counter to the end of its page, at most those of the longest
    instruction. -/
def nearRoom (pc : UInt64) : Nat :=
  min (4096 - pc.toNat % 4096) maxInstructionLength

/-- The bytes of the first page at CS:RIP. -/
structure NearCode (cpu : Cpu) (mem : M) (page : UInt64) (near : List UInt8) : Prop where
  mapped : mapForFetch mem cpu.linearPc cpu.cpl = .ok page
  length : near.length = nearRoom cpu.linearPc
  shown : PageShows mem page (cpu.linearPc.toNat % 4096) near

/-- The code at CS:RIP can be fetched: the bytes to the page end and, if they do not decide, what an
    instruction may need of the next page. -/
inductive Fetchable (cpu : Cpu) (mem : M) : List UInt8 → Prop
  | near {page : UInt64} {bytes : List UInt8} :
      NearCode cpu mem page bytes →
      decode cpu.codeWidth bytes ≠ .error .unexpectedEnd →
      Fetchable cpu mem bytes
  | far {page next : UInt64} {near far : List UInt8} :
      NearCode cpu mem page near →
      decode cpu.codeWidth near = .error .unexpectedEnd →
      mapForFetch mem (nextPage cpu.linearPc) cpu.cpl = .ok next →
      far.length = maxInstructionLength - near.length →
      PageShows mem next 0 far →
      Fetchable cpu mem (near ++ far)

namespace NearCode

variable {cpu : Cpu} {page : UInt64} {near near' : List UInt8}

theorem eq_of_holds (h : NearCode cpu mem page near) {page' : UInt64}
    (hmapped : mapForFetch mem cpu.linearPc cpu.cpl = .ok page')
    (hholds : HoldsBytes mem (page'.toNat + cpu.linearPc.toNat % 4096) near')
    (hlength : near'.length = nearRoom cpu.linearPc) : near' = near := by
  rw [h.mapped] at hmapped
  cases hmapped
  exact h.shown.eq_of_holds hholds (hlength.trans h.length.symm)

theorem readBytes_eq (h : NearCode cpu mem page near) :
    readBytes mem (page ||| pageOffset cpu.linearPc) (nearRoom cpu.linearPc) = .ok near := by
  have hmod := mapForFetch_mod h.mapped
  have hoffset : pageOffset cpu.linearPc = (cpu.linearPc.toNat % 4096).toUInt64 := by
    rw [← UInt64.toNat_inj, toNat_pageOffset, CompileContext.toNat_toUInt64 (by omega)]
  have hlength := h.length
  unfold nearRoom at hlength
  have hread := h.shown.readBytes_eq hmod (Nat.mod_lt _ (by decide)) (by omega)
  rwa [or_pageOffset hmod, hoffset, ← h.length]

end NearCode

namespace Fetchable

variable {cpu : Cpu} {bytes : List UInt8}

/-- The bytes decide what the encoding is. -/
theorem not_unexpectedEnd (h : Fetchable cpu mem bytes) :
    decode cpu.codeWidth bytes ≠ .error .unexpectedEnd := by
  cases h with
  | near _ hdecode => exact hdecode
  | far _ hnear _ hfar => exact CompileContext.decode_append_ne hnear hfar

/-- **A step fetches the bytes.** -/
theorem fetchInstruction_eq (h : Fetchable cpu mem bytes) :
    fetchInstruction cpu mem cpu.linearPc = decodeOrFault cpu.codeWidth bytes := by
  have hroom : min (pageRoom cpu.linearPc) maxInstructionLength = nearRoom cpu.linearPc := by
    rw [pageRoom_eq, nearRoom]
  unfold fetchInstruction
  rw [hroom]
  cases h with
  | near hnear hdecode =>
    rw [hnear.mapped]
    simp only [bind, Except.bind, hnear.readBytes_eq]
    rw [if_neg]
    rintro ⟨-, ⟨⟩⟩
  | @far _ next near far hnear hdecode hnext hfar hshown =>
    have hlt := length_lt_of_unexpectedEnd hdecode
    have hzero : next + (0 : Nat).toUInt64 = next := UInt64.add_zero _
    have hread := hshown.readBytes_eq (mapForFetch_mod hnext) (by decide)
      (by unfold maxInstructionLength at hfar; omega)
    rw [hzero, hfar, hnear.length] at hread
    rw [hnear.length] at hlt
    rw [hnear.mapped]
    simp only [bind, Except.bind, hnear.readBytes_eq]
    rw [if_pos ⟨hlt, by rw [hdecode]⟩, hnext]
    simp only [hread]

end Fetchable

/-! ## Compiling -/

namespace CompileContext

variable {c : CompileContext} {s : FetchStream} {d : Draft} {page : UInt64} {e : Encoding}
  {bytes : List UInt8}

/-- The bytes of the first page are cut if they do not decide. -/
theorem isCut_iff (width : CodeWidth) (bytes : List UInt8) :
    Encoding.isCut ⟨bytes, decode width bytes, none⟩ ↔
      decode width bytes = .error .unexpectedEnd := by
  have hdecoded : (⟨bytes, decode width bytes, none⟩ : Encoding).decoded = decode width bytes := rfl
  exact Encoding.isCut_iff hdecoded

/-- The bytes of the first page are read from a stream on it. -/
theorem exists_readNear {near : List UInt8} (hs : s.OnPage mem c.cpu.linearPc page)
    (h : NearCode c.cpu mem page near) :
    ∃ s', readNear s mem c.width c.cpu.linearPc =
      (.ok ⟨near, decode c.width near, none⟩, s') ∧ s'.Current mem := by
  have hlength := h.length
  rw [nearRoom, ← Nat.min_self maxInstructionLength] at hlength
  obtain ⟨s', hcopy, hs'⟩ := h.shown.exists_copyBytes hlength hs
  refine ⟨s', ?_, hs'.current⟩
  unfold readNear
  rw [hcopy]
  rfl

/-- The bytes of the next page are read from a stream on any page. -/
theorem exists_readFar {near far : List UInt8} {next : UInt64} (hs : s.Current mem)
    (hnext : mapForFetch mem (nextPage c.cpu.linearPc) c.cpu.cpl = .ok next)
    (hlength : far.length = maxInstructionLength - near.length) (h : PageShows mem next 0 far) :
    ∃ e s', readFar s c.cpu mem c.width c.cpu.linearPc near = (.ok e, s') := by
  obtain ⟨a, s₁, hresolve, hs₁⟩ := FetchStream.exists_resolve hs hnext
  have hmod := nextPage_mod c.cpu.linearPc
  have hcopied : far.length = min (4096 - (nextPage c.cpu.linearPc).toNat % 4096)
      (min (maxInstructionLength - near.length) maxInstructionLength) := by
    rw [hmod, hlength]
    unfold maxInstructionLength
    omega
  rw [← hmod] at h
  obtain ⟨s₂, hcopy, -⟩ := h.exists_copyBytes hcopied hs₁
  unfold readFar
  rw [hresolve]
  dsimp only
  rw [hcopy]
  exact ⟨_, s₂, rfl⟩

/-- The first encoding of a block can be read. -/
theorem exists_firstStep (hwidth : c.width = c.cpu.codeWidth) (hd : c.pc d = c.cpu.linearPc)
    (hs : s.OnPage mem c.cpu.linearPc page)
    (hpage : mapForFetch mem c.cpu.linearPc c.cpu.cpl = .ok page) (h : Fetchable c.cpu mem bytes) :
    ∃ e s', c.firstStep mem s d = (c.accept d (c.pc d) e, s') := by
  unfold firstStep
  dsimp only
  rw [hd]
  cases h with
  | near hnear hdecode =>
    rw [hnear.mapped] at hpage
    cases hpage
    obtain ⟨s', hread, -⟩ := exists_readNear hs hnear
    rw [← hwidth] at hdecode
    rw [hread]
    dsimp only
    rw [if_neg (mt (isCut_iff _ _).1 hdecode)]
    exact ⟨_, s', rfl⟩
  | far hnear hdecode hnext hfar hshown =>
    rw [hnear.mapped] at hpage
    cases hpage
    obtain ⟨s₁, hread, hs₁⟩ := exists_readNear hs hnear
    obtain ⟨e, s₂, hreadFar⟩ := exists_readFar hs₁ hnext hfar hshown
    rw [← hwidth] at hdecode
    rw [hread]
    dsimp only
    rw [if_pos ((isCut_iff _ _).2 hdecode), hreadFar]
    exact ⟨e, s₂, rfl⟩

/-- The encoding that is read has the bytes that can be fetched. -/
theorem Reads.bytes_eq (he : c.Reads mem page 0 e) (hwidth : c.width = c.cpu.codeWidth)
    (hpage : mapForFetch mem c.start c.cpu.cpl = .ok page) (h : Fetchable c.cpu mem bytes) :
    e.bytes = bytes := by
  have hstart := start_eq hwidth
  have hplace : c.place 0 = c.cpu.linearPc.toNat % 4096 := by rw [place, hstart, Nat.add_zero]
  rw [hstart] at hpage
  cases he with
  | near hlength hholds hdecode' =>
    rw [hplace] at hlength hholds
    cases h with
    | near hnear hdecode => exact hnear.eq_of_holds hpage hholds hlength
    | far hnear hdecode =>
      rw [hnear.eq_of_holds hpage hholds hlength, hwidth] at hdecode'
      exact absurd hdecode hdecode'
  | far _ hlength hholds hdecode' hnext' hfar' hholds' =>
    rw [hplace] at hlength hholds
    cases h with
    | near hnear hdecode =>
      rw [hnear.eq_of_holds hpage hholds hlength, hwidth] at hdecode'
      exact absurd hdecode' hdecode
    | far hnear hdecode hnext hfar hshown =>
      have heq := hnear.eq_of_holds hpage hholds hlength
      subst heq
      rw [hstart, hnext] at hnext'
      cases hnext'
      exact congrArg _ (hshown.eq_of_holds hholds' (hfar'.trans hfar.symm))

end CompileContext

open CompileContext

/-- Compiling succeeds if the first encoding of the block can be read. -/
theorem exists_block_of_firstStep {cpu : Cpu} {s s₁ s₂ : FetchStream} {flags : ModeFlags}
    {config : Config} {page physPc : UInt64} {e : Encoding}
    (hpage : mapForFetch mem (start ⟨cpu, flags, config⟩) cpu.cpl = .ok page)
    (hresolve : s.resolve cpu mem cpu.linearPc = (.ok physPc, s₁))
    (hs₁ : s₁.OnPage mem (start ⟨cpu, flags, config⟩) page)
    (hfirst : firstStep ⟨cpu, flags, config⟩ mem s₁ (emptyDraft physPc) =
      (accept ⟨cpu, flags, config⟩ (emptyDraft physPc)
        (pc ⟨cpu, flags, config⟩ (emptyDraft physPc)) e, s₂)) :
    ∃ b s', compileBlock cpu mem s flags config = (.ok b, s') := by
  unfold compileBlock
  dsimp only
  rw [hresolve]
  dsimp only
  unfold emptyDraft at hfirst
  rw [hfirst]
  dsimp only
  obtain ⟨hs₂, ⟨e', he', haccept⟩ | ⟨x, hfault, -⟩⟩ := firstStep_cases rfl hs₁ hfirst
  · rw [haccept]
    rcases hextend : extend ⟨cpu, flags, config⟩ mem pageSize.toNat _ s₂ with ⟨q, s₃⟩
    obtain ⟨-, es, -, rfl | rfl⟩ := extend_accept (extend_more hpage _)
      ⟨place_zero_lt _, .inl rfl⟩ he' hs₂ hextend
    · exact ⟨_, s₃, rfl⟩
    · exact ⟨_, s₃, rfl⟩
  · obtain hfinished | ⟨hmore, -⟩ := accept_cases ⟨cpu, flags, config⟩ _ _ e
    · rw [hfinished] at hfault
      cases hfault
    · rw [hmore] at hfault
      cases hfault

/-- **Code that can be fetched is compiled**, and the first encoding of the block has its bytes. -/
theorem Fetchable.exists_makes {cpu : Cpu} {s : FetchStream} {flags : ModeFlags}
    {bytes : List UInt8} (h : Fetchable cpu mem bytes) (config : Config)
    (hwidth : flags.codeWidth = cpu.codeWidth) (hs : s.Current mem) :
    ∃ b s' page e es, compileBlock cpu mem s flags config = (.ok b, s') ∧
      Makes ⟨cpu, flags, config⟩ mem page e es b ∧ e.bytes = bytes := by
  have hstart : start ⟨cpu, flags, config⟩ = cpu.linearPc := start_eq hwidth
  obtain ⟨page, hpage⟩ : ∃ page, mapForFetch mem cpu.linearPc cpu.cpl = .ok page := by
    cases h with
    | near hnear | far hnear => exact ⟨_, hnear.mapped⟩
  obtain ⟨physPc, s₁, hresolve, hs₁⟩ := FetchStream.exists_resolve hs hpage
  have hpc : pc ⟨cpu, flags, config⟩ (emptyDraft physPc) = cpu.linearPc :=
    (pcAt_zero _).trans hstart
  obtain ⟨e, s₂, hfirst⟩ := exists_firstStep (c := ⟨cpu, flags, config⟩) hwidth hpc hs₁ hpage h
  rw [← hstart] at hpage hs₁
  obtain ⟨b, s', hok⟩ := exists_block_of_firstStep hpage hresolve hs₁ hfirst
  obtain ⟨page, e, es, hmakes⟩ := makes_of_ok hwidth hs hok
  exact ⟨b, s', page, e, es, hok, hmakes, hmakes.chain.2.1.bytes_eq hwidth hmakes.mapped h⟩

/-! ## Memory as an array of bytes -/

variable [PhysicalMemory M]

/-- Bytes inside memory are shown, if the chunk that they end in is inside it too. -/
theorem pageShows_cells {page : UInt64} {place : Nat} {bytes : List UInt8}
    (hpage : page.toNat % 4096 = 0) (hplace : place < 4096) (hend : place + bytes.length ≤ 4096)
    (hsize : page.toNat + FetchWindow.target (place + bytes.length) ≤ (cells mem).size)
    (hbytes : bytes = ((cells mem).extract (page.toNat + place)
      (page.toNat + place + bytes.length)).toList) :
    PageShows mem page place bytes := by
  have htop := page.toNat_lt
  have htarget := FetchWindow.le_target hend
  have hstart : (page + place.toUInt64).toNat = page.toNat + place :=
    toNat_add_toUInt64 (by omega)
  have hread : readBytes mem (page + place.toUInt64) bytes.length = .ok bytes := by
    rw [PhysicalMemory.readBytes_ok, hstart]
    exact ⟨by omega, hbytes⟩
  refine ⟨fun k n hk => ?_, hstart ▸ HoldsBytes.of_read hread, fun j _ => agreeAt_of_cells rfl⟩
  have hle : (page + k.toUInt64).toNat ≤ page.toNat + k := by
    rw [UInt64.toNat_add]
    exact (Nat.mod_le _ _).trans (Nat.add_le_add_left (Nat.mod_le _ _) _)
  obtain ⟨data, hdata, -⟩ := exists_readBytes mem (page + k.toUInt64) (n := n) (by omega)
  exact ⟨data, hdata⟩

/-- The same for the bytes of the first page at CS:RIP. -/
theorem nearCode_cells {cpu : Cpu} {page : UInt64} {near : List UInt8}
    (hpage : mapForFetch mem cpu.linearPc cpu.cpl = .ok page)
    (hlength : near.length = nearRoom cpu.linearPc)
    (hsize : page.toNat + FetchWindow.target (cpu.linearPc.toNat % 4096 + near.length) ≤
      (cells mem).size)
    (hbytes : near = ((cells mem).extract (page.toNat + cpu.linearPc.toNat % 4096)
      (page.toNat + cpu.linearPc.toNat % 4096 + near.length)).toList) :
    NearCode cpu mem page near := by
  have hend : cpu.linearPc.toNat % 4096 + near.length ≤ 4096 := by
    rw [hlength]
    unfold nearRoom
    omega
  exact ⟨hpage, hlength, pageShows_cells (mapForFetch_mod hpage) (Nat.mod_lt _ (by decide)) hend
    hsize hbytes⟩

end X86Replay

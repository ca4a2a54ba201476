import X86Replay.Proofs.CachedBlocks
import X86Replay.Proofs.Fetchable
import X86Replay.Proofs.Transparency

/-!
# Faults of reading ahead

A step reads fifteen bytes at CS:RIP, or what the page has of them. The compiler reads the page up to
the next multiple of 64 bytes, and so may read past the end of a memory that holds all that the step
reads.

* `fetchBytes`: the bytes that a step reads. `fetchInstruction_eq_bind`: it decodes these.
* `FetchStream.OverReads`: a chunk that the compiler has not read yet ends outside of memory.
* `copyBytes_flat_iff`: reading from a page fails for this reason only.
* `compileBlock_error_iff_overReads`: where a step can read its bytes, compiling faults if and only
  if a chunk ends outside of memory, which none does if the size of memory is a multiple of 64.
* `compile_faults_where_step_halts`: this happens.
-/

namespace X86Replay

/-! ## Bytes of a step -/

section

variable {M : Type} [GuestMemory M] {mem : M} {cpu : Cpu} {pc : UInt64} {bytes : List UInt8}

/-- The bytes at a linear address, as a step reads them: those on the page and, if they do not
    decide, as many of the next one as make fifteen. -/
def fetchBytes (cpu : Cpu) (mem : M) (pc : UInt64) : Except Exception (List UInt8) := do
  let page ← mapForFetch mem pc cpu.cpl
  let near ← readBytes mem (page ||| pageOffset pc) (nearRoom pc)
  if nearRoom pc < maxInstructionLength ∧
      decode cpu.codeWidth near matches .error .unexpectedEnd then
    let next ← mapForFetch mem (nextPage pc) cpu.cpl
    let far ← readBytes mem next (maxInstructionLength - nearRoom pc)
    return near ++ far
  else
    return near

/-- **A step decodes the bytes that it has read.** -/
theorem fetchInstruction_eq_bind (cpu : Cpu) (mem : M) (pc : UInt64) :
    fetchInstruction cpu mem pc = fetchBytes cpu mem pc >>= decodeOrFault cpu.codeWidth := by
  have hroom : min (pageRoom pc) maxInstructionLength = nearRoom pc := by
    rw [pageRoom_eq, nearRoom]
  unfold fetchInstruction fetchBytes
  rw [hroom]
  simp only [bind, Except.bind]
  cases mapForFetch mem pc cpu.cpl with
  | error x => rfl
  | ok page =>
    dsimp only
    cases readBytes mem (page ||| pageOffset pc) (nearRoom pc) with
    | error x => rfl
    | ok near =>
      dsimp only
      -- By cases on the answer both tests come down to the room on the page.
      rcases decode cpu.codeWidth near with (_ | _ | _) | i <;>
        simp only [and_true, and_false, if_false, Bool.false_eq_true]
      case error.unexpectedEnd =>
        split_ifs
        · cases mapForFetch mem (nextPage pc) cpu.cpl with
          | error x => rfl
          | ok next =>
            dsimp only
            cases readBytes mem next (maxInstructionLength - nearRoom pc) <;> rfl
        · rfl
      all_goals rfl

/-- What a step has read: the bytes of the first page, and those of the next one if the former do
    not decide. -/
inductive Fetched (cpu : Cpu) (mem : M) (pc : UInt64) : List UInt8 → Prop
  | near {page : UInt64} {near : List UInt8} :
      mapForFetch mem pc cpu.cpl = .ok page →
      readBytes mem (page ||| pageOffset pc) (nearRoom pc) = .ok near →
      decode cpu.codeWidth near ≠ .error .unexpectedEnd →
      Fetched cpu mem pc near
  | far {page next : UInt64} {near far : List UInt8} :
      mapForFetch mem pc cpu.cpl = .ok page →
      readBytes mem (page ||| pageOffset pc) (nearRoom pc) = .ok near →
      decode cpu.codeWidth near = .error .unexpectedEnd →
      mapForFetch mem (nextPage pc) cpu.cpl = .ok next →
      readBytes mem next (maxInstructionLength - nearRoom pc) = .ok far →
      Fetched cpu mem pc (near ++ far)

theorem fetched_of_ok (h : fetchBytes cpu mem pc = .ok bytes) : Fetched cpu mem pc bytes := by
  unfold fetchBytes at h
  obtain ⟨page, hpage, h⟩ := except_bind_eq_ok.1 h
  obtain ⟨near, hnear, h⟩ := except_bind_eq_ok.1 h
  split_ifs at h with hcut
  · have hend : decode cpu.codeWidth near = .error .unexpectedEnd := by
      obtain ⟨-, hcut⟩ := hcut
      split at hcut
      · assumption
      · cases hcut
    obtain ⟨next, hnext, h⟩ := except_bind_eq_ok.1 h
    obtain ⟨far, hfar, h⟩ := except_bind_eq_ok.1 h
    cases h
    exact .far hpage hnear hend hnext hfar
  · cases h
    refine .near hpage hnear fun hend => hcut ⟨?_, by rw [hend]⟩
    rw [← length_readBytes hnear]
    exact length_lt_of_unexpectedEnd hend

end

/-! ## Reading a page of flat memory -/

section

variable {mem : FlatMemory} {w : FetchWindow} {s : FetchStream} {pc : UInt64} {n : Nat}

theorem readBytes_flat_iff (mem : FlatMemory) (start : UInt64) (n : Nat) :
    (∃ bytes, readBytes mem start n = .ok bytes) ↔ start.toNat + n ≤ mem.bytes.size := by
  simp only [PhysicalMemory.readBytes_ok]
  exact ⟨fun ⟨_, h, _⟩ => h, fun h => ⟨_, h, rfl⟩⟩

/-- A window can be read on to the end of a chunk inside of memory. -/
theorem FetchWindow.loadTo_flat_iff (hphysical : w.physical.toNat % 4096 = 0) (hn : n ≤ 4096) :
    (∃ v, w.loadTo mem n = .ok v) ↔
      n ≤ w.loaded.size ∨ w.physical.toNat + target n ≤ mem.bytes.size := by
  by_cases hle : n ≤ w.loaded.size
  · rw [loadTo_of_le mem hle]
    exact ⟨fun _ => .inl hle, fun _ => ⟨w, rfl⟩⟩
  · have htop := w.physical.toNat_lt
    have htarget := le_target hn
    have hstart : (w.physical + w.loaded.size.toUInt64).toNat =
        w.physical.toNat + w.loaded.size := toNat_add_toUInt64 (by omega)
    have hread := readBytes_flat_iff mem (w.physical + w.loaded.size.toUInt64)
      (target n - w.loaded.size)
    rw [hstart, show w.physical.toNat + w.loaded.size + (target n - w.loaded.size) =
      w.physical.toNat + target n by omega] at hread
    rw [loadTo_of_lt mem (Nat.lt_of_not_le hle), or_iff_right hle, ← hread]
    cases readBytes mem (w.physical + w.loaded.size.toUInt64) (target n - w.loaded.size) with
    | error x => exact iff_of_false (fun ⟨_, h⟩ => nomatch h) fun ⟨_, h⟩ => nomatch h
    | ok bytes => exact ⟨fun _ => ⟨bytes, rfl⟩, fun _ => ⟨_, rfl⟩⟩

/-- **Bytes can be copied from a page if the chunk that they end in is inside of memory** or has been
    read before. -/
theorem FetchStream.copyBytes_flat_iff (mem : FlatMemory) (limit : Nat) (hw : s.window = some w)
    (hlinear : w.linear = pageOf pc) (hphysical : w.physical.toNat % 4096 = 0)
    (hn : n = min (4096 - pc.toNat % 4096) (min limit maxInstructionLength)) :
    (∃ bytes t, s.copyBytes mem pc limit = (.ok bytes, t)) ↔
      pc.toNat % 4096 + n ≤ w.loaded.size ∨
        w.physical.toNat + FetchWindow.target (pc.toNat % 4096 + n) ≤ mem.bytes.size := by
  have hsize : pageSize.toNat = 4096 := rfl
  rw [← FetchWindow.loadTo_flat_iff hphysical (by omega)]
  unfold copyBytes
  rw [hw]
  dsimp only
  rw [hlinear, FetchWindow.toNat_sub_pageOf, hsize, ← hn]
  cases w.loadTo mem (pc.toNat % 4096 + n) with
  | error x => exact iff_of_false (fun ⟨_, _, h⟩ => nomatch h) fun ⟨_, h⟩ => nomatch h
  | ok v => exact ⟨fun _ => ⟨v, rfl⟩, fun _ => ⟨_, _, rfl⟩⟩

end

/-! ## Chunks outside of memory -/

namespace FetchStream

variable {mem : FlatMemory} {cpu : Cpu} {s t : FetchStream} {a : UInt64} {bytes : List UInt8}

/-- The window that CS:RIP is resolved in has the first `n` bytes of its page. -/
def HasLoaded (s : FetchStream) (cpu : Cpu) (n : Nat) : Prop :=
  ∃ w, s.window = some w ∧ w.covers cpu cpu.linearPc ∧ n ≤ w.loaded.size

/-- The place on the page of CS:RIP where the bytes end that a step reads there. -/
def nearEnd (cpu : Cpu) : Nat :=
  cpu.linearPc.toNat % 4096 + nearRoom cpu.linearPc

/-- The chunk in which the bytes of the first page end is outside of memory, and has not been read
    before. -/
def OverReadsNear (s : FetchStream) (cpu : Cpu) (mem : FlatMemory) : Prop :=
  ¬ s.HasLoaded cpu (nearEnd cpu) ∧
    mem.bytes.size < (pageOf cpu.linearPc).toNat + FetchWindow.target (nearEnd cpu)

/-- The compiler reads past the end of memory for code at CS:RIP of which a step reads the given
    bytes: on the first page or, if there are more bytes than it has, in the first chunk of the next
    one. -/
def OverReads (s : FetchStream) (cpu : Cpu) (mem : FlatMemory) (bytes : List UInt8) : Prop :=
  s.OverReadsNear cpu mem ∨
    nearRoom cpu.linearPc < bytes.length ∧
      mem.bytes.size < (nextPage cpu.linearPc).toNat + fetchChunk

/-- The stream has a current window on the code at CS:RIP. -/
def Resolved (s : FetchStream) (cpu : Cpu) (mem : FlatMemory) : Prop :=
  ∃ w, s.window = some w ∧ w.Current mem ∧ w.IsOn cpu cpu.linearPc

/-- What has been read of the page is the same once CS:RIP has been resolved. -/
theorem resolved_of_resolve (hs : s.Current mem)
    (h : s.resolve cpu mem cpu.linearPc = (.ok a, t)) :
    t.Resolved cpu mem ∧ (t.OverReadsNear cpu mem ↔ s.OverReadsNear cpu mem) := by
  have hpos : 0 < nearEnd cpu := by
    unfold nearEnd nearRoom maxInstructionLength
    omega
  cases hfilter : s.window.filter (·.covers cpu cpu.linearPc) with
  | none =>
    obtain ⟨page, hpage, -, w, hw, hcurrent, -, -⟩ := resolve_ok hs h
    rw [resolve_of_missing hfilter, hpage] at h
    cases h
    cases hw
    refine ⟨⟨_, rfl, hcurrent, ⟨rfl, rfl, rfl⟩⟩, and_congr_left fun _ => not_congr ?_⟩
    refine iff_of_false ?_ ?_
    · rintro ⟨w, ⟨⟩, -, hle⟩
      exact absurd hle (Nat.not_le.2 hpos)
    · rintro ⟨w, hw, hcovers, -⟩
      rw [hw, Option.filter_some, if_pos hcovers] at hfilter
      cases hfilter
  | some w =>
    obtain ⟨hw, hcovers⟩ := Option.filter_eq_some_iff.1 hfilter
    rw [resolve_of_covers hw hcovers] at h
    cases h
    exact ⟨⟨w, hw, hs w hw, .of_covers hcovers (hs w hw).aligned⟩, Iff.rfl⟩

/-- **The bytes of the first page can be copied** if and only if their chunk is inside of memory or
    has been read before. -/
theorem Resolved.copyBytes_iff (h : s.Resolved cpu mem) :
    (∃ bytes t, s.copyBytes mem cpu.linearPc maxInstructionLength = (.ok bytes, t)) ↔
      ¬ s.OverReadsNear cpu mem := by
  obtain ⟨w, hw, hcurrent, hon⟩ := h
  have hmapped := hcurrent.mapped
  have hphysical := (mapForFetch_flat hmapped).1
  rw [hcurrent.aligned, hon.linear] at hphysical
  have hloaded : s.HasLoaded cpu (nearEnd cpu) ↔ nearEnd cpu ≤ w.loaded.size := by
    constructor
    · rintro ⟨w', hw', -, hle⟩
      rw [hw] at hw'
      cases hw'
      exact hle
    · exact fun hle => ⟨w, hw, hon.covers, hle⟩
  rw [copyBytes_flat_iff mem _ hw hon.linear (mapForFetch_mod hmapped)
      (n := nearRoom cpu.linearPc) (by rw [Nat.min_self]; rfl), OverReadsNear, hloaded, not_and_or,
    not_not, Nat.not_lt, hphysical]
  rfl

end FetchStream

/-! ## Faults of compiling -/

section

variable {mem : FlatMemory} {cpu : Cpu} {s : FetchStream} {page next : UInt64} {width : CodeWidth}
  {near : List UInt8}

/-- Bytes at one place are the same every time. -/
theorem eq_of_holds {a : Nat} {bytes bytes' : List UInt8} (h : HoldsBytes mem a bytes)
    (h' : HoldsBytes mem a bytes') (hlength : bytes'.length = bytes.length) : bytes' = bytes := by
  have htake := take_eq_of_agree (n := bytes.length) h h' hlength fun _ _ => agreeAt_of_cells rfl
  rwa [List.take_of_length_le hlength.le, List.take_length] at htake

/-- The bytes of the first page are read, unless their chunk is outside of memory. -/
theorem readNear_flat (hs : s.Resolved cpu mem)
    (hpage : mapForFetch mem cpu.linearPc cpu.cpl = .ok page)
    (hnear : readBytes mem (page ||| pageOffset cpu.linearPc) (nearRoom cpu.linearPc) = .ok near)
    (width : CodeWidth) :
    (s.OverReadsNear cpu mem ∧
        ∃ t, readNear s mem width cpu.linearPc = (.error (.generalProtection 0), t)) ∨
      ¬ s.OverReadsNear cpu mem ∧
        ∃ t, readNear s mem width cpu.linearPc = (.ok ⟨near, decode width near, none⟩, t) ∧
          ∃ page, t.OnPage mem cpu.linearPc page := by
  have hcopies := hs.copyBytes_iff
  unfold readNear
  rcases hcopy : s.copyBytes mem cpu.linearPc maxInstructionLength with ⟨x | bytes, t⟩
  · rw [hcopy] at hcopies
    rw [FetchStream.copyBytes_error_flat hcopy]
    refine .inl ⟨not_not.1 fun hinside => ?_, t, rfl⟩
    obtain ⟨_, _, ⟨⟩⟩ := hcopies.2 hinside
  · rw [hcopy] at hcopies
    obtain ⟨w, hw, hcurrent, hon⟩ := hs
    have hmapped := hcurrent.mapped
    have hphysical := mapForFetch_flat hmapped
    rw [hon.linear, mapForFetch_congr (pageOf_pageOf _), hon.cpl, hpage] at hmapped
    have hmod := mapForFetch_mod hpage
    have hholds := HoldsBytes.of_read hnear
    rw [or_pageOffset hmod, toNat_page_add_pageOffset hmod] at hholds
    obtain ⟨ht, hlength, hholds'⟩ :=
      FetchStream.copyBytes_ok ⟨w, hw, hcurrent, hon.linear, (Except.ok.inj hmapped).symm⟩ hcopy
    rw [Nat.min_self] at hlength
    have hbytes := eq_of_holds hholds hholds' (hlength.trans (length_readBytes hnear).symm)
    rw [hbytes]
    exact .inr ⟨hcopies.1 ⟨bytes, t, rfl⟩, t, rfl, page, ht⟩

/-- No window on a page covers the next one. -/
theorem FetchStream.OnPage.misses_nextPage {pc : UInt64} (h : s.OnPage mem pc page) :
    s.window.filter (·.covers cpu (nextPage pc)) = none := by
  obtain ⟨w, hw, hcurrent, hlinear, -⟩ := h
  rw [hw, Option.filter_some]
  refine if_neg fun hcovers => ?_
  have hnextLinear := FetchStream.linear_of_covers hcurrent.aligned hcovers
  have hnext := toNat_nextPage pc
  have htop := pc.toNat_lt
  rw [hlinear, pageOf_eq_iff] at hnextLinear
  omega

/-- The bytes of the next page are read, unless its first chunk is outside of memory. -/
theorem readFar_flat {pc : UInt64} (hs : s.OnPage mem pc page)
    (hlength : near.length < maxInstructionLength)
    (hnext : mapForFetch mem (nextPage pc) cpu.cpl = .ok next) (width : CodeWidth) :
    (mem.bytes.size < (nextPage pc).toNat + fetchChunk ∧
        ∃ t, readFar s cpu mem width pc near = (.error (.generalProtection 0), t)) ∨
      ¬ mem.bytes.size < (nextPage pc).toNat + fetchChunk ∧
        ∃ e t, readFar s cpu mem width pc near = (.ok e, t) := by
  have hmod := CompileContext.nextPage_mod pc
  have hmax : maxInstructionLength = 15 := rfl
  obtain ⟨hphysical, -⟩ := mapForFetch_flat hnext
  have hpage : pageOf (nextPage pc) = nextPage pc := by
    rw [← UInt64.toNat_inj, toNat_pageOf]
    omega
  rw [hpage] at hphysical
  have hchunk : FetchWindow.target
      ((nextPage pc).toNat % 4096 + (maxInstructionLength - near.length)) = fetchChunk := by
    have hsize : pageSize.toNat = 4096 := rfl
    unfold FetchWindow.target fetchChunk
    omega
  unfold readFar
  rw [FetchStream.resolve_of_missing hs.misses_nextPage, hnext]
  dsimp only
  generalize hstream : FetchStream.mk _ _ _ = t
  have hwindow : t.window = some ⟨pageOf (nextPage pc), next, #[], cpu.epoch, cpu.cpl⟩ := by
    rw [← hstream]
  have hcopies := FetchStream.copyBytes_flat_iff mem (maxInstructionLength - near.length) hwindow
    rfl (mapForFetch_mod hnext) (n := maxInstructionLength - near.length) (by omega)
  rw [hchunk, or_iff_right (by show ¬ _ ≤ 0; omega), hphysical, ← Nat.not_lt] at hcopies
  rcases hcopy : t.copyBytes mem (nextPage pc) (maxInstructionLength - near.length)
    with ⟨x | far, u⟩
  · rw [hcopy] at hcopies
    rw [FetchStream.copyBytes_error_flat hcopy]
    refine .inl ⟨not_not.1 fun hinside => ?_, u, rfl⟩
    obtain ⟨_, _, ⟨⟩⟩ := hcopies.2 hinside
  · rw [hcopy] at hcopies
    exact .inr ⟨hcopies.1 ⟨far, u, rfl⟩, _, u, rfl⟩

end

open CompileContext

variable {mem : FlatMemory} {cpu : Cpu} {s : FetchStream} {bytes : List UInt8}

/-- **The first instruction of a block is read where a step reads it**, unless a chunk ends outside
    of memory. -/
theorem firstStep_flat {c : CompileContext} {d : Draft} (hwidth : c.width = c.cpu.codeWidth)
    (hd : c.pc d = c.cpu.linearPc) (hs : s.Resolved c.cpu mem)
    (h : Fetched c.cpu mem c.cpu.linearPc bytes) :
    (s.OverReads c.cpu mem bytes ∧ ∃ t, c.firstStep mem s d = (.fault (.generalProtection 0), t)) ∨
      ¬ s.OverReads c.cpu mem bytes ∧
        ∃ e t, c.firstStep mem s d = (c.accept d (c.pc d) e, t) := by
  unfold firstStep FetchStream.OverReads
  dsimp only
  rw [hd, hwidth]
  -- The near bytes are needed in any case, those of the next page only if the near ones are cut;
  -- each read fails for the chunk it ends in, and for no other reason.
  cases h with
  | near hpage hnear hdecode =>
    have hroom : ¬ nearRoom c.cpu.linearPc < bytes.length := by
      rw [length_readBytes hnear]
      exact Nat.lt_irrefl _
    obtain ⟨hover, t, hread⟩ | ⟨hover, t, hread, -⟩ := readNear_flat hs hpage hnear c.cpu.codeWidth
    · rw [hread]
      exact .inl ⟨.inl hover, t, rfl⟩
    · rw [hread]
      dsimp only
      rw [if_neg (mt (isCut_iff _ _).1 hdecode)]
      exact .inr ⟨not_or.2 ⟨hover, fun hfar => hroom hfar.1⟩, _, t, rfl⟩
  | @far page next near far hpage hnear hdecode hnext hfar =>
    have hlength := length_readBytes hnear
    have hshort := length_lt_of_unexpectedEnd hdecode
    have hroom : nearRoom c.cpu.linearPc < (near ++ far).length := by
      rw [List.length_append, length_readBytes hfar, hlength]
      omega
    obtain ⟨hover, t, hread⟩ | ⟨hover, t, hread, page', ht⟩ :=
      readNear_flat hs hpage hnear c.cpu.codeWidth
    · rw [hread]
      exact .inl ⟨.inl hover, t, rfl⟩
    · rw [hread]
      dsimp only
      rw [if_pos ((isCut_iff _ _).2 hdecode)]
      obtain ⟨hoverFar, u, hreadFar⟩ | ⟨hoverFar, e, u, hreadFar⟩ :=
        readFar_flat ht hshort hnext c.cpu.codeWidth
      · rw [hreadFar]
        exact .inl ⟨.inr ⟨hroom, hoverFar⟩, u, rfl⟩
      · rw [hreadFar]
        exact .inr ⟨not_or.2 ⟨hover, fun hfar => hoverFar hfar.2⟩, e, u, rfl⟩

/-- Where a step can read its bytes, no chunk that they are in ends outside of a memory of whole
    chunks. -/
theorem not_overReads_of_chunks (s : FetchStream) (h : Fetched cpu mem cpu.linearPc bytes)
    (hsize : mem.bytes.size % fetchChunk = 0) : ¬ s.OverReads cpu mem bytes := by
  have hpageSize : pageSize.toNat = 4096 := rfl
  have hpageOf := toNat_pageOf cpu.linearPc
  have hnear {page : UInt64} {near : List UInt8}
      (hpage : mapForFetch mem cpu.linearPc cpu.cpl = .ok page)
      (hread : readBytes mem (page ||| pageOffset cpu.linearPc) (nearRoom cpu.linearPc) =
        .ok near) : ¬ s.OverReadsNear cpu mem := by
    rintro ⟨-, hover⟩
    have hmod := mapForFetch_mod hpage
    obtain ⟨hinside, -⟩ := (PhysicalMemory.readBytes_ok mem _ _ near).1 hread
    rw [or_pageOffset hmod, toNat_page_add_pageOffset hmod, (mapForFetch_flat hpage).1] at hinside
    change _ ≤ mem.bytes.size at hinside
    unfold FetchStream.nearEnd FetchWindow.target fetchChunk at *
    omega
  cases h with
  | near hpage hread =>
    refine not_or.2 ⟨hnear hpage hread, fun hfar => ?_⟩
    rw [length_readBytes hread] at hfar
    exact Nat.lt_irrefl _ hfar.1
  | @far page next near far hpage hread hdecode hnext hreadFar =>
    refine not_or.2 ⟨hnear hpage hread, fun hfar => ?_⟩
    have hshort := length_lt_of_unexpectedEnd hdecode
    have hmod := nextPage_mod cpu.linearPc
    obtain ⟨hinside, -⟩ := (PhysicalMemory.readBytes_ok mem _ _ far).1 hreadFar
    rw [(mapForFetch_flat hnext).1, toNat_pageOf] at hinside
    change _ ≤ mem.bytes.size at hinside
    rw [length_readBytes hread] at hshort
    unfold fetchChunk at *
    omega

/-- **Reading ahead makes compiling fault where a step does not.** Where a step can read its bytes,
    compiling fails if and only if one of the chunks that they are in ends outside of memory and has
    not been read before. None does in a memory of whole chunks. -/
theorem compileBlock_error_iff_overReads {flags : ModeFlags} (config : Config)
    (hwidth : flags.codeWidth = cpu.codeWidth) (hs : s.Current mem)
    (hfetch : fetchBytes cpu mem cpu.linearPc = .ok bytes) :
    ((compileBlock cpu mem s flags config).1 = .error ⟨cpu.linearPc, .generalProtection 0⟩ ↔
        s.OverReads cpu mem bytes) ∧
      ((∃ b, (compileBlock cpu mem s flags config).1 = .ok b) ↔ ¬ s.OverReads cpu mem bytes) ∧
      (mem.bytes.size % fetchChunk = 0 → ¬ s.OverReads cpu mem bytes) := by
  have hfetched := fetched_of_ok hfetch
  have hstart : start ⟨cpu, flags, config⟩ = cpu.linearPc := start_eq hwidth
  obtain ⟨page, hpage⟩ : ∃ page, mapForFetch mem cpu.linearPc cpu.cpl = .ok page := by
    cases hfetched with
    | near hpage => exact ⟨_, hpage⟩
    | far hpage => exact ⟨_, hpage⟩
  obtain ⟨physPc, s₁, hresolve, hs₁⟩ := FetchStream.exists_resolve hs hpage
  obtain ⟨hresolved, hnear⟩ := FetchStream.resolved_of_resolve hs hresolve
  have hover : s₁.OverReads cpu mem bytes ↔ s.OverReads cpu mem bytes := or_congr_left hnear
  have hpc : pc ⟨cpu, flags, config⟩ (emptyDraft physPc) = cpu.linearPc :=
    (pcAt_zero _).trans hstart
  have hchunks := not_overReads_of_chunks s hfetched
  rw [← hover] at hchunks ⊢
  -- A block that has its first instruction is made, so the first step alone decides.
  obtain ⟨houtside, s₂, hfirst⟩ | ⟨hinside, e, s₂, hfirst⟩ :=
    firstStep_flat (c := ⟨cpu, flags, config⟩) hwidth hpc hresolved hfetched
  · have hcompile : (compileBlock cpu mem s flags config).1 =
        .error ⟨cpu.linearPc, .generalProtection 0⟩ := by
      unfold compileBlock
      dsimp only
      rw [hresolve]
      dsimp only
      unfold emptyDraft at hfirst
      rw [hfirst]
      dsimp only
      rw [extend_fault]
    rw [hcompile]
    exact ⟨iff_of_true rfl houtside, iff_of_false (fun ⟨_, h⟩ => nomatch h) (not_not.2 houtside),
      hchunks⟩
  · rw [← hstart] at hpage hs₁
    obtain ⟨b, s', hcompile⟩ := exists_block_of_firstStep hpage hresolve hs₁ hfirst
    rw [hcompile]
    exact ⟨iff_of_false (fun h => nomatch h) hinside, iff_of_true ⟨b, rfl⟩ hinside, hchunks⟩

/-- The same for a HLT at the start of a memory of 16 bytes. A step reads 15 of them, the compiler
    would read 64. -/
theorem compileBlock_error_iff_overReads_short :
    ∃ (cpu : Cpu) (mem : FlatMemory) (bytes : List UInt8),
      (ModeFlags.ofCpu cpu .current false).codeWidth = cpu.codeWidth ∧
      ({} : FetchStream).Current mem ∧ fetchBytes cpu mem cpu.linearPc = .ok bytes ∧
      (compileBlock cpu mem {} (.ofCpu cpu .current false) {}).1 =
        .error ⟨cpu.linearPc, .generalProtection 0⟩ ∧
      ({} : FetchStream).OverReads cpu mem bytes := by
  obtain ⟨mem, hmem⟩ : ∃ mem : FlatMemory, mem = (FlatMemory.zeros 16).load 0 [0xF4] := ⟨_, rfl⟩
  have hwidth : (ModeFlags.ofCpu Cpu.realMode .current false).codeWidth =
      Cpu.realMode.codeWidth := by
    decide
  have hfetch : fetchBytes Cpu.realMode mem Cpu.realMode.linearPc =
      .ok (0xF4 :: List.replicate 14 0) := by
    rw [hmem]
    decide +kernel
  have hcurrent := FetchStream.current_empty mem
  have hcompile : (compileBlock Cpu.realMode mem {} (.ofCpu Cpu.realMode .current false) {}).1 =
      .error ⟨Cpu.realMode.linearPc, .generalProtection 0⟩ := by
    rw [hmem]
    decide +kernel
  exact ⟨Cpu.realMode, mem, _, hwidth, hcurrent, hfetch, hcompile,
    (compileBlock_error_iff_overReads {} hwidth hcurrent hfetch).1.1 hcompile⟩

/-- **Compiling does fault where a step executes its instruction**, a HLT near the end of memory,
    with all translations and reads succeeding. -/
theorem compile_faults_where_step_halts :
    ∃ (cpu : Cpu) (mem : FlatMemory) (bytes : List UInt8),
      ({} : FetchStream).Current mem ∧ fetchBytes cpu mem cpu.linearPc = .ok bytes ∧
      (fetchInstruction cpu mem cpu.linearPc).isOk ∧
      (Exec.step (M := FlatMemory) ⟨cpu, mem, #[]⟩).1 = .ok (.stop .halt) ∧
      (compileBlock cpu mem {} (.ofCpu cpu .current false) {}).1 =
        .error ⟨cpu.linearPc, .generalProtection 0⟩ := by
  refine ⟨Cpu.realMode, (FlatMemory.zeros 16).load 0 [0xF4], 0xF4 :: List.replicate 14 0,
    FetchStream.current_empty _, ?_⟩
  decide +kernel

end X86Replay

import X86Replay.Proofs.Coverage
import X86Replay.Proofs.Lockstep
import X86Replay.Proofs.Prefetching

/-!
# Compiling a block again

A block with a second page is made from one encoding. If both of its pages are mapped, it may be lost
from the cache: compiling makes a matching one.

* `chunk_le_of_firstStep`, `exists_fetchable`: an encoding across a page boundary has been read
  only if the first chunk of the next page is inside of memory, and then it can be read.
* `Reads.of_start`: where an encoding is read from does not depend on the rest of the processor
  state.
* `Block.Stored.recompile`: compiling where a cached block with a second page could be used makes a
  matching block.
-/

namespace X86Replay

open CompileContext

section

variable {mem : FlatMemory} {cpu : Cpu} {c c' : CompileContext} {page next physPc : UInt64}
  {s : FetchStream} {d : Draft} {e : Encoding} {es : List Encoding} {o : Nat}

/-! ## Encodings across a page boundary -/

/-- An encoding across the page boundary has been read from a chunk of the next page. -/
theorem chunk_le_of_firstStep (hd : d.size = 0) (hs : s.OnPage mem c.start page)
    (he : c.Reads mem page 0 e) (hcrossing : e.crossing ≠ none)
    (hok : ∀ x, (c.firstStep mem s d).1 ≠ .fault x) :
    (nextPage c.start).toNat + fetchChunk ≤ mem.bytes.size := by
  have hpc : c.pc d = c.start := by rw [c.pc_eq, hd, c.pcAt_zero]
  cases he with
  | near => exact absurd rfl hcrossing
  | @far near far next _ hlength hholds hcut hnext =>
    rw [← hpc] at hs
    unfold firstStep at hok
    dsimp only at hok
    rcases hread : readNear s mem c.width (c.pc d) with ⟨x | f, t⟩
    · rw [hread] at hok
      exact absurd rfl (hok x)
    obtain ⟨ht, hf, hlength', hholds'⟩ := readNear_ok (hd ▸ c.place_zero_lt) hs hread
    rw [hd] at hlength' hholds'
    have hbytes : f.bytes = near := eq_of_holds hholds hholds' (hlength'.trans hlength.symm)
    have hisCut : f.isCut := by
      rw [hf, hbytes]
      exact (isCut_iff _ _).2 hcut
    rw [hread] at hok
    dsimp only at hok
    rw [if_pos hisCut] at hok
    rw [hpc] at ht hok
    have hshort : f.bytes.length < maxInstructionLength := hbytes ▸ length_lt_of_unexpectedEnd hcut
    obtain ⟨-, u, hfar⟩ | ⟨hle, -⟩ := readFar_flat ht hshort hnext c.width
    · rw [hfar] at hok
      exact absurd rfl (hok _)
    · exact Nat.not_lt.1 hle

/-- On two mapped pages code can be fetched, if the first chunk of the second one is inside of
    memory. -/
theorem exists_fetchable (hpage : mapForFetch mem cpu.linearPc cpu.cpl = .ok page)
    (hnext : mapForFetch mem (nextPage cpu.linearPc) cpu.cpl = .ok next)
    (hsize : mem.bytes.size + 4096 ≤ 2 ^ 64)
    (hchunk : (nextPage cpu.linearPc).toNat + fetchChunk ≤ mem.bytes.size) :
    ∃ bytes, Fetchable cpu mem bytes := by
  have hmax : maxInstructionLength = 15 := rfl
  obtain ⟨rfl, -, hinside⟩ := mapForFetch_flat_iff.1 hpage
  obtain ⟨hnext', -⟩ := mapForFetch_flat_iff.1 hnext
  rw [pageOf_eq_self (nextPage_mod cpu.linearPc)] at hnext'
  subst hnext'
  have hpageNat := toNat_pageOf cpu.linearPc
  have hnextNat := toNat_nextPage cpu.linearPc
  -- The next page follows in memory, so chunks of the first one are inside.
  have hend : (pageOf cpu.linearPc).toNat + 4096 ≤ mem.bytes.size := by omega
  have hextract (a n : Nat) (h : a + n ≤ mem.bytes.size) :
      (mem.bytes.extract a (a + n)).toList.length = n := by
    rw [Array.length_toList, Array.size_extract]
    omega
  have hroom : cpu.linearPc.toNat % 4096 + nearRoom cpu.linearPc ≤ 4096 := by
    unfold nearRoom
    omega
  have hlength := hextract ((pageOf cpu.linearPc).toNat + cpu.linearPc.toNat % 4096)
    (nearRoom cpu.linearPc) (by omega)
  generalize hnear : (mem.bytes.extract _ _).toList = near at hlength
  have hcode : NearCode cpu mem (pageOf cpu.linearPc) near :=
    nearCode_cells hpage hlength ((Nat.add_le_add_left (FetchWindow.target_le_page _) _).trans hend)
      (by rw [hlength, ← hnear]; rfl)
  by_cases hcut : decode cpu.codeWidth near = .error .unexpectedEnd
  · have hfarLength := hextract (nextPage cpu.linearPc).toNat (maxInstructionLength - near.length)
      (by unfold fetchChunk at hchunk; omega)
    generalize hfar : (mem.bytes.extract _ _).toList = far at hfarLength
    refine ⟨near ++ far, .far hcode hcut hnext hfarLength
      (pageShows_cells (nextPage_mod _) (by decide) (by omega) ?_ ?_)⟩
    · have htarget : FetchWindow.target (0 + far.length) ≤ fetchChunk :=
        FetchWindow.target_le rfl (by unfold fetchChunk; omega)
      exact (Nat.add_le_add_left htarget _).trans hchunk
    · rw [Nat.add_zero, hfarLength, ← hfar]
      rfl
  · exact ⟨near, .near hcode hcut⟩

/-- Encodings are read alike wherever code starts at the same address and has the same width. -/
theorem CompileContext.Reads.of_start (h : c.Reads mem page o e) (hwidth : c'.width = c.width)
    (hstart : c'.start = c.start) : c'.Reads mem page o e := by
  have hplace : c'.place o = c.place o := by rw [place, hstart, place]
  cases h with
  | near hlength hholds hdecode =>
    rw [← hplace] at hlength hholds
    rw [← hwidth] at hdecode ⊢
    exact .near hlength hholds hdecode
  | far ho hlength hholds hdecode hnext hfarLength hfarHolds =>
    rw [← hplace] at hlength hholds
    rw [← hwidth] at hdecode ⊢
    rw [← hstart] at hnext
    exact .far ho hlength hholds hdecode ((mapForFetch_flat hnext).2 _) hfarLength hfarHolds

/-- A block has a second page if it is made from one encoding, which is known to reach it. -/
theorem CompileContext.Chain.single_of_secondPage (h : c.Chain mem page 0 (e :: es))
    (hsecond : (c.finish ((e :: es).foldl c.append (emptyDraft physPc))).secondPage?.isSome) :
    es = [] ∧ e.tail?.isSome ∧ e.crossing ≠ none ∧ c.Decides e := by
  rw [isSome_secondPage?] at hsecond
  obtain hnear | rfl := h.sequence.crossing_cases
  · rw [second_foldl hnear rfl] at hsecond
    cases hsecond
  · have htail : e.tail?.isSome := hsecond
    refine ⟨rfl, htail, fun hcrossing => ?_, ?_⟩
    · rw [Encoding.tail_of_near hcrossing] at htail
      cases htail
    · by_contra hdec
      obtain ⟨hinvalid, -⟩ := h.2.1.invalid_of_undecided hdec
      have hunknown : e.knownLength = none := by
        rw [Encoding.knownLength, hinvalid]
      cases hcrossing : e.crossing with
      | none =>
        rw [Encoding.tail_of_near hcrossing] at htail
        cases htail
      | some crossing =>
        rw [Encoding.tail_of_crossing hcrossing, hunknown] at htail
        cases htail

end

/-! ## Blocks across a page boundary -/

namespace Block

variable {b : Block} {config : Config} {mem mem₀ : FlatMemory} {cpu cpu₀ : Cpu}
  {c c' : CompileContext} {e e' : Encoding} {page next : UInt64}

/-- A block that has been made from one encoding across a page boundary, of which another memory
    still has the bytes. -/
structure MadeAcross (b : Block) (c : CompileContext) (mem₀ : FlatMemory) (e : Encoding)
    (mem : FlatMemory) : Prop where
  block : b = c.finish (c.append (emptyDraft c.start) e)
  reads : c.Reads mem₀ (pageOf c.start) 0 e
  crossing : e.crossing ≠ none
  decides : c.Decides e
  next : mapForFetch mem₀ (nextPage c.start) c.cpu.cpl = .ok (pageOf (nextPage c.start))
  agree : ∀ j < e.length, AgreeAt mem₀ mem (e.address ((pageOf c.start).toNat + c.place 0) j)
  chunk : (nextPage c.start).toNat + fetchChunk ≤ mem.bytes.size

/-- Every cached block with a second page is such. -/
theorem Stored.madeAcross (h : b.Stored config mem) (hsecond : b.secondPage?.isSome) :
    ∃ cpu₀ mem₀ e, b.MadeAcross ⟨cpu₀, .ofCpu cpu₀ config.target config.disregardLock, config⟩
      mem₀ e mem := by
  obtain ⟨cpu₀, mem₀, s, t, hs, -, hcompile, hsame, hbytes⟩ := h
  have hwidth := ModeFlags.codeWidth_ofCpu cpu₀ config.target config.disregardLock
  obtain ⟨s₁, p, s₂, q, d, hresolve, hfirst, hok, -⟩ := compileBlock_steps hcompile
  obtain ⟨page, physPc, e, es, hpage, hphysPc, hchain, hb⟩ := compileBlock_ok hwidth hs hcompile
  obtain ⟨page', hpage', -, hs₁⟩ := FetchStream.resolve_ok hs hresolve
  rw [hpage] at hpage'
  cases hpage'
  obtain ⟨rfl, -⟩ := mapForFetch_flat_iff.1 hpage
  refine ⟨cpu₀, mem₀, e, ?_⟩
  have hstart : start ⟨cpu₀, .ofCpu cpu₀ config.target config.disregardLock, config⟩ =
    cpu₀.linearPc := start_eq hwidth
  generalize (⟨cpu₀, .ofCpu cpu₀ config.target config.disregardLock, config⟩ : CompileContext) = c
    at *
  rw [← hstart] at hphysPc hs₁ hchain
  -- A second page means that the chain is one encoding, the one across the boundary.
  obtain ⟨rfl, -, hcrossing, hdec⟩ := hchain.single_of_secondPage (hb ▸ hsecond)
  have he := hchain.2.1
  have hphysPc' : physPc = c.start := by
    rw [← UInt64.toNat_inj, hphysPc, toNat_pageOf]
    omega
  have hchunk := chunk_le_of_firstStep rfl hs₁ he hcrossing (by rw [hfirst]; exact hok)
  have hcovers := hchain.covers_iff (by rw [hphysPc, place]; rfl)
  subst hphysPc'
  exact
    { block := hb
      reads := he
      crossing := hcrossing
      decides := hdec
      next := by
        obtain ⟨⟨next, n⟩, hsome⟩ := Option.ne_none_iff_exists'.1 hcrossing
        have hnext := he.crossing_mapped hsome
        rw [hnext, (mapForFetch_flat_iff.1 hnext).1]
      agree := fun j hj => by
        obtain ⟨r, hr, hcovered⟩ := (hcovers _).2 (.inl ⟨j, hj, rfl⟩)
        exact agreeAt_of_cells (hbytes r (hb ▸ hr) _ hcovered)
      chunk := hsame ▸ hchunk }

/-- **Compiling comes upon the same encoding** wherever code starts at the same address, has the same
    width, and has its next page mapped. -/
theorem MadeAcross.append_eq (h : b.MadeAcross c mem₀ e mem) (hwidth : c'.width = c.width)
    (hchecks : c'.flags.needsLimitChecks = c.flags.needsLimitChecks) (hstart : c'.start = c.start)
    (he' : c'.Reads mem (pageOf c.start) 0 e')
    (hnext : mapForFetch mem (nextPage c'.start) c'.cpu.cpl = .ok next) :
    e'.crossing ≠ none ∧ c'.append (emptyDraft c.start) e' = c.append (emptyDraft c.start) e := by
  have hplace : c'.place 0 = c.place 0 := by rw [place, hstart, place]
  have hdec : c'.Decides e := by
    unfold Decides
    rw [hwidth]
    exact h.decides
  have hmap : mapForFetch mem (nextPage c'.start) c'.cpu.cpl =
      mapForFetch mem₀ (nextPage c'.start) c'.cpu.cpl := by
    rw [hnext, hstart, (mapForFetch_flat h.next).2 c'.cpu.cpl, ← hstart,
      (mapForFetch_flat_iff.1 hnext).1]
  obtain ⟨hbytes, hdecoded, hcrossing⟩ := (h.reads.of_start hwidth hstart).congr he' hdec
    (by rw [hplace]; exact h.agree) hmap
  have hknown : e'.knownLength = e.knownLength := by
    rw [Encoding.knownLength, hdecoded, Encoding.knownLength]
  have hlength : e'.length = e.length := by
    rw [Encoding.length, hknown, Encoding.length]
  have hcall (o : Nat) : e'.toCall o = e.toCall o := by
    unfold Encoding.toCall
    rw [hlength, hbytes, hdecoded]
  have htail : e'.tail? = e.tail? := by
    unfold Encoding.tail?
    rw [hknown, hcrossing]
  refine ⟨hcrossing ▸ h.crossing, (c'.append_congr _ hlength (hcall _) htail).trans ?_⟩
  unfold append
  rw [hchecks]

section

variable {s t : FetchStream} {b' : Block}
  (h : b.MadeAcross ⟨cpu₀, .ofCpu cpu₀ config.target config.disregardLock, config⟩ mem₀ e mem)
  (hfor : b.isFor cpu.linearPc (.ofCpu cpu config.target config.disregardLock) (.ofCpu cpu))

include h hfor

/-- A processor state that finds the block starts at the same address. -/
theorem MadeAcross.start_eq : start ⟨cpu₀, .ofCpu cpu₀ config.target config.disregardLock, config⟩ =
    cpu.linearPc := by
  obtain ⟨hphysPc, -⟩ := isFor_iff.1 hfor
  rw [h.block] at hphysPc
  exact hphysPc

/-- A block that is compiled for such a state matches, if the next page is mapped. -/
theorem MadeAcross.matches_of_compile
    (hnext : mapForFetch mem (nextPage cpu.linearPc) cpu.cpl = .ok next) (hs : s.Current mem)
    (hcompile : compileBlock cpu mem s (.ofCpu cpu config.target config.disregardLock) config =
      (.ok b', t)) : b.Matches b' := by
  have hwidth := ModeFlags.codeWidth_ofCpu cpu config.target config.disregardLock
  have hlinearPc : start ⟨cpu, .ofCpu cpu config.target config.disregardLock, config⟩ =
    cpu.linearPc := CompileContext.start_eq hwidth
  have hlinearPc₀ : start ⟨cpu₀, .ofCpu cpu₀ config.target config.disregardLock, config⟩ =
    cpu₀.linearPc := CompileContext.start_eq (ModeFlags.codeWidth_ofCpu _ _ _)
  have hstart := h.start_eq hfor
  have hfor' := isFor_of_compile hs hcompile
  have hcode := (forSameCode_of_isFor hfor).1 hfor'
  have hkey := (isFor_iff.1 hfor).2.1
  rw [h.block] at hkey
  have hlow := (ModeFlags.low_eq_of_key_eq hkey).symm
  obtain ⟨page, physPc, e', es, hpage, hphysPc, hchain, rfl⟩ := compileBlock_ok hwidth hs hcompile
  obtain ⟨rfl, -⟩ := mapForFetch_flat_iff.1 hpage
  have hphysPc' : physPc = cpu.linearPc := by
    rw [← UInt64.toNat_inj, hphysPc, toNat_pageOf]
    omega
  have he' := hchain.2.1
  rw [← hstart] at he' hphysPc'
  rw [← hlinearPc] at hnext
  obtain ⟨hcrossing, happend⟩ := h.append_eq (ModeFlags.codeWidth_congr hlow)
    (ModeFlags.needsLimitChecks_congr hlow) (hlinearPc.trans hstart.symm) he' hnext
  obtain hnear | rfl := hchain.sequence.crossing_cases
  · exact absurd (hnear e' List.mem_cons_self) hcrossing
  rw [List.foldl_cons, List.foldl_nil, hphysPc', happend] at hcode ⊢
  rw [h.block] at hcode ⊢
  exact ⟨hcode, hstart.symm.trans hlinearPc₀, rfl, rfl⟩

end

/-- **Where a cached block with a second page could be used, compiling makes a matching one.** -/
theorem Stored.recompile {pages : UInt64 → Prop} {s : FetchStream} (h : b.Stored config mem)
    (hsecond : b.secondPage?.isSome)
    (hfor : b.isFor cpu.linearPc (.ofCpu cpu config.target config.disregardLock) (.ofCpu cpu))
    (hpage : mapForFetch mem cpu.linearPc cpu.cpl = .ok page)
    (hnext : mapForFetch mem (nextPage cpu.linearPc) cpu.cpl = .ok next)
    (hsize : mem.bytes.size + 4096 ≤ 2 ^ 64) (hs : s.Shows pages mem) :
    ∃ b', (compileBlock cpu mem s (.ofCpu cpu config.target config.disregardLock) config).1 =
      .ok b' ∧ b.Matches b' := by
  have hwidth := ModeFlags.codeWidth_ofCpu cpu config.target config.disregardLock
  obtain ⟨cpu₀, mem₀, e, hb⟩ := h.madeAcross hsecond
  have hchunk := hb.chunk
  rw [hb.start_eq hfor] at hchunk
  obtain ⟨bytes, hfetchable⟩ := exists_fetchable hpage hnext hsize hchunk
  -- What the window has read does not matter, so let there be none.
  have hnone : ({} : FetchStream).Shows pages mem := FetchStream.forall_window_of_none rfl
  obtain ⟨b', t, -, -, -, hcompile, -⟩ :=
    hfetchable.exists_makes config hwidth (FetchStream.current_empty mem)
  refine ⟨b', ?_, hb.matches_of_compile hfor hnext (FetchStream.current_empty mem) hcompile⟩
  rw [hnone.compileBlock_eq hs hpage hwidth, hcompile]

end Block

end X86Replay

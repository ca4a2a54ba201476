import X86Replay.Proofs.Mode
import X86Replay.Proofs.PhysicalMemory

/-!
# The ranges of a block and what its calls depend on

A write that meets none of the ranges of a block leaves the block in the cache. That is right only
if the bytes outside the ranges could not have made another block.

* `Call.Undecided`: the raw bytes that a call has kept of an undecodable encoding could begin
  another encoding as well.
* `listing_prefix`: two memories that agree on the bytes that a chain takes list the same calls, as
  far as both lists go, unless an undecided call gives way to one of another length.
* `compile_calls_prefix_iff`: so do the blocks that are compiled from memories that agree on the
  ranges of one of them.
* `compile_calls_not_prefix`: undecided calls do give way.
-/

namespace X86Replay

open CompileContext

variable {M : Type} [GuestMemory M] {mem₁ mem₂ : M}

/-- The raw bytes of a deferred call do not decide what it is. -/
def Call.Undecided (call : Call) (width : CodeWidth) : Prop :=
  call.handler = .deferred ∧ decode width call.raw = .error .unexpectedEnd

/-- The bytes that the block has kept of its encodings decide what they are. -/
def Block.Decided (b : Block) (width : CodeWidth) : Prop :=
  ∀ call ∈ b.calls, ¬ call.Undecided width

namespace CompileContext

variable {c : CompileContext} {page : UInt64} {o : Nat} {e e' : Encoding} {es es' : List Encoding}

/-! ## Undecided encodings -/

/-- Only of an undefined encoding the bytes taken may not decide, and there is one of them. -/
theorem Reads.invalid_of_undecided (h : c.Reads mem₁ page o e) (hdec : ¬ c.Decides e) :
    e.decoded = .error .invalid ∧ e.length = 1 := by
  unfold Encoding.length Encoding.knownLength
  cases hx : e.decoded with
  | ok i => exact absurd (h.decides_of_ok hx) hdec
  | error x =>
    cases x with
    | invalid => exact ⟨rfl, rfl⟩
    | unexpectedEnd => exact absurd (h.decoded.symm.trans hx) h.shapedAt.not_unexpectedEnd
    | tooLong =>
      have hlength : e.length = maxInstructionLength := by
        unfold Encoding.length Encoding.knownLength
        rw [hx]
        rfl
      refine absurd (fun hend => ?_) hdec
      rw [hlength, decode_take_tooLong (h.decoded.symm.trans hx)] at hend
      cases hend

theorem Reads.undecided_toCall (h : c.Reads mem₁ page o e) (hdec : ¬ c.Decides e) :
    (e.toCall o).Undecided c.width := by
  obtain ⟨hx, -⟩ := h.invalid_of_undecided hdec
  obtain ⟨hdeferred, hraw⟩ := Encoding.toCall_error h.decoded hx o
  exact ⟨hdeferred, by rw [hraw]; exact not_not.1 hdec⟩

/-- An encoding begins with the bytes that are left on the first page. -/
theorem Reads.exists_near (h : c.Reads mem₁ page o e) :
    ∃ near, near.length = min (4096 - c.place o) maxInstructionLength ∧
      HoldsBytes mem₁ (page.toNat + c.place o) near ∧ near <+: e.bytes ∧
      ∀ j < near.length, e.address (page.toNat + c.place o) j = page.toNat + c.place o + j := by
  cases h with
  | near hlength hholds => exact ⟨_, hlength, hholds, List.prefix_rfl, fun _ _ => rfl⟩
  | far _ hlength hholds =>
    exact ⟨_, hlength, hholds, List.prefix_append _ _, fun _ hj => if_pos hj⟩

/-- **An undecided encoding stays the same** if its byte does and no other byte is taken. -/
theorem Reads.congr_undecided (h : c.Reads mem₁ page o e) (h' : c.Reads mem₂ page o e')
    (ho : c.place o < 4096) (hdec : ¬ c.Decides e)
    (hagree : ∀ j < e.length, AgreeAt mem₁ mem₂ (e.address (page.toNat + c.place o) j))
    (hlength : e'.length = e.length) :
    e'.bytes.take e.length = e.bytes.take e.length ∧ e'.decoded = e.decoded := by
  obtain ⟨hx, hone⟩ := h.invalid_of_undecided hdec
  obtain ⟨near, hnear, hholds, hpre, haddress⟩ := h.exists_near
  obtain ⟨near', hnear', hholds', hpre', -⟩ := h'.exists_near
  have hroom : 1 ≤ near.length := by
    rw [hnear]
    unfold maxInstructionLength
    omega
  have htake : near'.take 1 = near.take 1 :=
    take_eq_of_agree hholds hholds' (hnear'.trans hnear.symm) fun j hj => by
      rw [← haddress j (by omega)]
      exact hagree j (by omega)
  have hbytes : e'.bytes.take e.length = e.bytes.take e.length := by
    obtain ⟨t, ht⟩ := hpre
    obtain ⟨t', ht'⟩ := hpre'
    rw [hone, ← ht, ← ht', List.take_append_of_le_length hroom,
      List.take_append_of_le_length (by omega), htake]
  refine ⟨hbytes, ?_⟩
  have hdec' : ¬ c.Decides e' := by
    unfold Decides
    rwa [hlength, hbytes]
  rw [hx, (h'.invalid_of_undecided hdec').1]

/-! ## Lists of calls -/

/-- Encodings that take the same bytes and decode to the same have the same calls. -/
theorem callsOf_congr (hdecoded : e'.decoded = e.decoded)
    (hbytes : e'.bytes.take e.length = e.bytes.take e.length) :
    e'.length = e.length ∧ c.callsOf o e' = c.callsOf o e := by
  have hlength : e'.length = e.length := by
    unfold Encoding.length Encoding.knownLength
    rw [hdecoded]
  have hcall : e'.toCall o = e.toCall o := by
    unfold Encoding.toCall
    rw [hlength, hbytes, hdecoded]
  refine ⟨hlength, ?_⟩
  unfold callsOf limitCheck
  rw [hcall, hlength]

/-- Calls stand behind the offset that a chain starts from. -/
theorem Chain.le_offset (h : c.Chain mem₁ page o es) :
    ∀ call ∈ c.listing o es, o ≤ call.offset.toNat := by
  induction es generalizing o with
  | nil => exact fun _ hcall => absurd hcall List.not_mem_nil
  | cons e es ih =>
    obtain ⟨hstart, he, -, hes⟩ := h
    intro call hcall
    obtain hcall | hcall := List.mem_append.1 hcall
    · exact (he.shapedAt.of_mem_callsOf hstart.1 hcall).1.ge
    · exact (Nat.le_add_right _ _).trans (ih hes call hcall)

/-- **Calls at one offset are those of one encoding**, and have its length. -/
theorem Chain.length_unique (h : c.Chain mem₁ page o es) {call call' : Call}
    (hcall : call ∈ c.listing o es) (hcall' : call' ∈ c.listing o es)
    (hoffset : call'.offset = call.offset) : call'.length = call.length := by
  induction es generalizing o with
  | nil => exact absurd hcall List.not_mem_nil
  | cons e es ih =>
    obtain ⟨hstart, he, -, hes⟩ := h
    have hpos := Encoding.length_pos he.decoded
    obtain hhead | htail := List.mem_append.1 hcall
    · obtain ⟨ho, hlength⟩ := he.shapedAt.of_mem_callsOf hstart.1 hhead
      obtain hhead' | htail' := List.mem_append.1 hcall'
      · rw [← UInt8.toNat_inj, hlength, (he.shapedAt.of_mem_callsOf hstart.1 hhead').2]
      · have hge := hes.le_offset call' htail'
        rw [hoffset] at hge
        omega
    · obtain hhead' | htail' := List.mem_append.1 hcall'
      · have hge := hes.le_offset call htail
        rw [← hoffset, (he.shapedAt.of_mem_callsOf hstart.1 hhead').1] at hge
        omega
      · exact ih hes htail htail'

/-- **Two memories that agree on the bytes that a chain takes list the same calls**, as far as both
    lists go, unless an undecided call gives way to one of another length. -/
theorem listing_prefix (h : c.Chain mem₁ page o es) (h' : c.Chain mem₂ page o es')
    (hsame : ∀ call ∈ c.listing o es, ∀ call' ∈ c.listing o es', call.Undecided c.width →
      call'.offset = call.offset → call'.length = call.length)
    (hagree : ∀ a, c.Takes page o es a → AgreeAt mem₁ mem₂ a)
    (hmap : mapForFetch mem₂ (nextPage c.start) c.cpu.cpl =
      mapForFetch mem₁ (nextPage c.start) c.cpu.cpl) :
    c.listing o es <+: c.listing o es' ∨ c.listing o es' <+: c.listing o es := by
  induction es generalizing o es' with
  | nil => exact .inl List.nil_prefix
  | cons e es ih =>
    cases es' with
    | nil => exact .inr List.nil_prefix
    | cons e' es' =>
      obtain ⟨hstart, he, -, hes⟩ := h
      obtain ⟨-, he', -, hes'⟩ := h'
      have hhead : ∀ j < e.length, AgreeAt mem₁ mem₂ (e.address (page.toNat + c.place o) j) :=
        fun j hj => hagree _ (.inl ⟨j, hj, rfl⟩)
      have hcongr : e'.bytes.take e.length = e.bytes.take e.length ∧ e'.decoded = e.decoded := by
        by_cases hdec : c.Decides e
        · obtain ⟨hbytes, hdecoded, -⟩ := he.congr he' hdec hhead hmap
          exact ⟨hbytes, hdecoded⟩
        · refine he.congr_undecided he' hstart.1 hdec hhead ?_
          have hmem := List.mem_append_left (c.listing (o + e.length) es) (c.mem_callsOf o e)
          have hmem' := List.mem_append_left (c.listing (o + e'.length) es') (c.mem_callsOf o e')
          have hlength := hsame _ hmem _ hmem' (he.undecided_toCall hdec)
            (by rw [Encoding.offset_toCall, Encoding.offset_toCall])
          rw [← (he.shapedAt.of_mem_callsOf hstart.1 (c.mem_callsOf o e)).2,
            ← (he'.shapedAt.of_mem_callsOf hstart.1 (c.mem_callsOf o e')).2, hlength]
      obtain ⟨hlength, hcalls⟩ := callsOf_congr (c := c) (o := o) hcongr.2 hcongr.1
      rw [hlength] at hes'
      rw [listing, listing] at hsame
      rw [listing, listing, hlength, hcalls, List.prefix_append_right_inj,
        List.prefix_append_right_inj]
      rw [hlength] at hsame
      exact ih hes hes'
        (fun call hcall call' hcall' => hsame call (List.mem_append_right _ hcall) call'
          (List.mem_append_right _ hcall'))
        fun a ha => hagree a (.inr ha)

end CompileContext

/-! ## Blocks -/

variable {cpu : Cpu} {s₁ s₂ s₁' s₂' : FetchStream} {target : CpuTarget} {lock : Bool}
  {config : Config} {b₁ : Block}

/-- If the block is decided, so is its first encoding. -/
theorem CompileContext.Makes.decides {c : CompileContext} {page : UInt64} {e : Encoding}
    {es : List Encoding} (h : c.Makes mem₁ page e es b₁) (hdecided : b₁.Decided c.width) :
    c.Decides e := by
  by_contra hdec
  refine hdecided _ ?_ (h.chain.2.1.undecided_toCall hdec)
  rw [h.calls]
  exact List.mem_append_left _ (c.mem_callsOf 0 e)

theorem CompileContext.Makes.agree {c : CompileContext} {page : UInt64} {e : Encoding}
    {es : List Encoding} (h : c.Makes mem₁ page e es b₁)
    (hagree : ∀ range ∈ b₁.ranges, ∀ a, range.Covers a → AgreeAt mem₁ mem₂ a) (a : Nat)
    (ha : c.Takes page 0 (e :: es) a) : AgreeAt mem₁ mem₂ a := by
  obtain ⟨range, hrange, hcovers⟩ := (h.covers_iff a).2 ha
  exact hagree range hrange a hcovers

/-- The first encoding of a block can be fetched again unless its bytes on one of the pages cannot be
    read or, for a block that is not decided, the next page is not mapped. -/
theorem CompileContext.Makes.first_fails {c : CompileContext} {page : UInt64} {e : Encoding}
    {es : List Encoding} {x : Exception} (h : c.Makes mem₁ page e es b₁)
    (hagree : ∀ range ∈ b₁.ranges, ∀ a, range.Covers a → AgreeAt mem₁ mem₂ a)
    (hmap : mapForFetch mem₂ (nextPage c.start) c.cpu.cpl =
      mapForFetch mem₁ (nextPage c.start) c.cpu.cpl) (hfails : c.FirstFails mem₂ page x) :
    FetchWindow.ReadFails mem₂ page (min (c.place 0 + maxInstructionLength) 4096) x ∨
      (∃ next, mapForFetch mem₂ (nextPage c.start) c.cpu.cpl = .ok next ∧
        FetchWindow.ReadFails mem₂ next (c.place 0 + maxInstructionLength - 4096) x) ∨
      ¬ b₁.Decided c.width ∧ mapForFetch mem₂ (nextPage c.start) c.cpu.cpl = .error x := by
  obtain hreads | ⟨near, hlength, hholds, hcut, hnext | hreads⟩ := hfails
  · exact .inl hreads
  · refine .inr (.inr ⟨fun hdecided => ?_, hnext⟩)
    have he := h.chain.2.1
    obtain ⟨-, -, hdecode⟩ | ⟨far, next, -, -, -, -, hmapped, -⟩ :=
      he.first_page (h.decides hdecided) (fun j hj => h.agree hagree _ (.inl ⟨j, hj, rfl⟩)) hlength
        hholds
    · rw [hcut, he.decoded] at hdecode
      exact he.shapedAt.not_unexpectedEnd hdecode.symm
    · rw [hmap, hmapped] at hnext
      cases hnext
  · exact .inr (.inl hreads)

/-- **A block that is compiled again has the same calls, as far as both go**, if the other memory
    has the same translation and the same bytes in the ranges of the block, precisely if no
    undecided call of the block gives way to one of another length. It is compiled again unless the
    bytes that the longest instruction at CS:RIP could have cannot be read, on its page or on the
    next one, or, for a block that is not decided, the next page is not mapped. -/
theorem compile_calls_prefix_iff {r : Except CompileFault Block} (hs₁ : s₁.Current mem₁)
    (hs₂ : s₂.Current mem₂)
    (h₁ : compileBlock cpu mem₁ s₁ (.ofCpu cpu target lock) config = (.ok b₁, s₁'))
    (h₂ : compileBlock cpu mem₂ s₂ (.ofCpu cpu target lock) config = (r, s₂'))
    (htranslate : translate mem₂ = translate mem₁)
    (hagree : ∀ range ∈ b₁.ranges, ∀ a, range.Covers a → AgreeAt mem₁ mem₂ a) :
    match r with
    | .ok b₂ =>
      (b₁.calls <+: b₂.calls ∨ b₂.calls <+: b₁.calls) ↔
        ∀ call ∈ b₁.calls, ∀ call' ∈ b₂.calls, call.Undecided cpu.codeWidth →
          call'.offset = call.offset → call'.length = call.length
    | .error f =>
      f.pc = cpu.linearPc ∧
        ((∃ page, mapForFetch mem₂ cpu.linearPc cpu.cpl = .ok page ∧
            FetchWindow.ReadFails mem₂ page
              (min (cpu.linearPc.toNat % 4096 + maxInstructionLength) 4096) f.exception) ∨
          (∃ next, mapForFetch mem₂ (nextPage cpu.linearPc) cpu.cpl = .ok next ∧
            FetchWindow.ReadFails mem₂ next
              (cpu.linearPc.toNat % 4096 + maxInstructionLength - 4096) f.exception) ∨
          ¬ b₁.Decided cpu.codeWidth ∧
            mapForFetch mem₂ (nextPage cpu.linearPc) cpu.cpl = .error f.exception) := by
  have hwidth := ModeFlags.codeWidth_ofCpu cpu target lock
  have hmapped (pc : UInt64) (cpl : UInt8) : mapForFetch mem₂ pc cpl = mapForFetch mem₁ pc cpl := by
    rw [mapForFetch, htranslate, mapForFetch]
  obtain ⟨page, e, es, hb₁⟩ := makes_of_ok hwidth hs₁ h₁
  cases r with
  | ok b₂ =>
    obtain ⟨page', e', es', hb₂⟩ := makes_of_ok hwidth hs₂ h₂
    have hcodeWidth : width ⟨cpu, .ofCpu cpu target lock, config⟩ = cpu.codeWidth := hwidth
    generalize (⟨cpu, .ofCpu cpu target lock, config⟩ : CompileContext) = c at hb₁ hb₂ hcodeWidth
    have hpage := hb₂.mapped
    rw [hmapped, hb₁.mapped] at hpage
    cases hpage
    dsimp only
    rw [hb₁.calls, hb₂.calls, ← hcodeWidth]
    -- The longer list has all calls of the shorter one, and no two at one offset. The converse
    -- compares the chains encoding by encoding.
    constructor
    · rintro (hpre | hpre) call hcall call' hcall' - hoffset
      · exact hb₂.chain.length_unique (hpre.subset hcall) hcall' hoffset
      · exact hb₁.chain.length_unique hcall (hpre.subset hcall') hoffset
    · exact fun hsame => listing_prefix hb₁.chain hb₂.chain hsame (hb₁.agree hagree) (hmapped _ _)
  | error f =>
    obtain ⟨hpc, hfails⟩ := compileBlock_error hwidth hs₂ h₂
    have hstart : start ⟨cpu, .ofCpu cpu target lock, config⟩ = cpu.linearPc := by
      rw [start, width, hwidth, Cpu.linearPc]
    have hpage₁ := hb₁.mapped
    rw [← hmapped, hstart] at hpage₁
    obtain herror | ⟨page', hpage, hfails⟩ := hfails
    · rw [hpage₁] at herror
      cases herror
    · have hpage₂ := hpage₁
      rw [hpage] at hpage₁
      cases hpage₁
      have hfirst := hb₁.first_fails hagree (hmapped _ _) hfails
      have hplace : place ⟨cpu, .ofCpu cpu target lock, config⟩ 0 =
          cpu.linearPc.toNat % 4096 := by
        rw [place, hstart, Nat.add_zero]
      rw [hplace, hstart, width, hwidth] at hfirst
      exact ⟨hpc, hfirst.imp_left fun hreads => ⟨page, hpage₂, hreads⟩⟩

/-- The same for a block of one `HLT`, whatever follows it. -/
theorem compile_calls_prefix_iff_hlt :
    ∃ b₁ b₂ s₁ s₂,
      compileBlock Cpu.flat32 ((FlatMemory.zeros 64).load 0 [0xF4]) {}
        (.ofCpu Cpu.flat32 .current false) {} = (.ok b₁, s₁) ∧
      compileBlock Cpu.flat32 ((FlatMemory.zeros 64).load 0 [0xF4, 0x90]) {}
        (.ofCpu Cpu.flat32 .current false) {} = (.ok b₂, s₂) ∧
      (b₁.calls <+: b₂.calls ∨ b₂.calls <+: b₁.calls) := by
  obtain ⟨s₁, h₁⟩ : ∃ s₁, compileBlock Cpu.flat32 ((FlatMemory.zeros 64).load 0 [0xF4]) {}
      (.ofCpu Cpu.flat32 .current false) {} = (.ok
        { physPc := 0, pc := 0, flags := ⟨13⟩, checksLimit := false
          identity := ⟨0, 0xFFFFFFFF, 8, 0xC09B⟩, size := 1, ranges := [⟨0, 1⟩]
          calls := [{ handler := .hlt, length := 1, offset := 0 }], instructions := 1 }, s₁) :=
    ⟨_, rfl⟩
  obtain ⟨s₂, h₂⟩ : ∃ s₂, compileBlock Cpu.flat32 ((FlatMemory.zeros 64).load 0 [0xF4, 0x90]) {}
      (.ofCpu Cpu.flat32 .current false) {} = (.ok
        { physPc := 0, pc := 0, flags := ⟨13⟩, checksLimit := false
          identity := ⟨0, 0xFFFFFFFF, 8, 0xC09B⟩, size := 1, ranges := [⟨0, 1⟩]
          calls := [{ handler := .hlt, length := 1, offset := 0 }], instructions := 1 }, s₂) :=
    ⟨_, rfl⟩
  refine ⟨_, _, s₁, s₂, h₁, h₂, ?_⟩
  refine (compile_calls_prefix_iff (FetchStream.current_empty _) (FetchStream.current_empty _)
    h₁ h₂ ?_ ?_).2 ?_
  · rw [FlatMemory.translate_load, FlatMemory.translate_load]
  · intro range hrange a ha
    obtain rfl := List.mem_singleton.1 hrange
    obtain rfl : a = 0 := by
      have hlt : a < 0 + 1 := ha.2
      omega
    exact agreeAt_of_cells rfl
  · intro call hcall _ _ hundecided
    obtain rfl := List.mem_singleton.1 hcall
    cases hundecided.1

/-- **Undecided calls do give way.** `0F 04` is undefined because of its second byte, but the range
    of its block ends after the first one: memory that agrees on the range holds `CPUID` there, and
    the calls of neither block are the first calls of the other one. -/
theorem compile_calls_not_prefix :
    ∃ (mem₁ mem₂ : FlatMemory) (b₁ b₂ : Block) (s₁ s₂ : FetchStream),
      compileBlock Cpu.flat32 mem₁ {} (.ofCpu Cpu.flat32 .current false) {} = (.ok b₁, s₁) ∧
      compileBlock Cpu.flat32 mem₂ {} (.ofCpu Cpu.flat32 .current false) {} = (.ok b₂, s₂) ∧
      translate mem₂ = translate mem₁ ∧
      (∀ range ∈ b₁.ranges, ∀ a, range.Covers a → mem₂.bytes[a]? = mem₁.bytes[a]?) ∧
      ¬ (b₁.calls <+: b₂.calls ∨ b₂.calls <+: b₁.calls) := by
  refine ⟨(FlatMemory.zeros 64).load 0 [0x0F, 0x04], (FlatMemory.zeros 64).load 0 [0x0F, 0xA2],
    { physPc := 0, pc := 0, flags := ⟨13⟩, checksLimit := false
      identity := ⟨0, 0xFFFFFFFF, 8, 0xC09B⟩, size := 1, ranges := [⟨0, 1⟩]
      calls := [{ handler := .deferred, length := 1, offset := 0, p0 := 0x0F, p2 := 1 }]
      instructions := 1 },
    { physPc := 0, pc := 0, flags := ⟨13⟩, checksLimit := false
      identity := ⟨0, 0xFFFFFFFF, 8, 0xC09B⟩, size := 2, ranges := [⟨0, 2⟩]
      calls := [{ handler := .deferred, length := 2, offset := 0, p0 := 0xA20F, p2 := 2 }]
      instructions := 1 }, _, _, rfl, rfl, ?_, ?_, by decide⟩
  · rw [FlatMemory.translate_load, FlatMemory.translate_load]
  · intro range hrange a ha
    obtain rfl := List.mem_singleton.1 hrange
    obtain rfl : a = 0 := by
      have hlt : a < 0 + 1 := ha.2
      omega
    rfl

end X86Replay

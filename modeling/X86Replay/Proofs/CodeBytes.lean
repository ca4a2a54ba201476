import X86Replay.Proofs.ByteMemory
import X86Replay.Proofs.CachedBlocks

/-!
# The bytes of a block

A block records where its code is as ranges of physical memory. Byte by byte that is one address
after the other from the start of the block to the end of its page, and from the start of the second
range on.

* `Block.codeAddress`: the physical address of a byte of the code.
* `Block.LaidOut`: the ranges of the block are the addresses of its bytes.
* `Block.HasCode`: the calls of the block are those of the given bytes.
* `exists_builtFrom`: a compiled block has been built from bytes that were read from memory at these
  addresses.
* `PagePreserving`, `SparesLastPage`: what is asked of translations.
* `ShowsCode`, `LaidOut.showsCode`: where the pages of the block are mapped, translation leads from
  CS:RIP on to its bytes.
-/

namespace X86Replay

variable {M : Type} [GuestMemory M]

/-- The bytes that encodings take. -/
def codeBytes (es : List Encoding) : List UInt8 :=
  es.flatMap fun e => e.bytes.take e.length

theorem codeBytes_cons (e : Encoding) (es : List Encoding) :
    codeBytes (e :: es) = e.bytes.take e.length ++ codeBytes es :=
  rfl

namespace Block

/-- The physical address of a byte of the code: on the page that the block starts on, or on the
    second one. -/
def codeAddress (b : Block) (i : Nat) : Nat :=
  match b.secondPage? with
  | none => b.physPc.toNat + i
  | some page =>
    if b.physPc.toNat % 4096 + i < 4096 then b.physPc.toNat + i
    else page.toNat + (b.physPc.toNat % 4096 + i - 4096)

/-- The ranges of the block are the addresses of its first `n` bytes, which are on its first page if
    there is no second one. -/
structure LaidOut (b : Block) (n : Nat) : Prop where
  covers_iff : ∀ a, (∃ r ∈ b.ranges, r.Covers a) ↔ ∃ i < n, a = b.codeAddress i
  onPage : b.secondPage? = none → ∀ i < n, b.physPc.toNat % 4096 + i < 4096
  size : b.physPc.toNat % 4096 + n < 8192

/-- The calls of the block are those of encodings that take the given bytes. -/
def HasCode (b : Block) (c : CompileContext) (code : List UInt8) : Prop :=
  ∃ es, b.calls = c.listing 0 es ∧ (∀ e ∈ es, e.decoded = decode c.width e.bytes) ∧
    code = codeBytes es

/-- The pages of the block are where the code at CS:RIP is mapped. -/
structure IsAt (b : Block) (cpu : Cpu) (mem : M) : Prop where
  first : ∃ page, mapForFetch mem cpu.linearPc cpu.cpl = .ok page ∧
    b.physPc.toNat = page.toNat + cpu.linearPc.toNat % 4096
  second : ∀ page, b.secondPage? = some page →
    mapForFetch mem (nextPage cpu.linearPc) cpu.cpl = .ok page

end Block

namespace CompileContext

variable {c : CompileContext} {mem : M} {page : UInt64} {o : Nat} {e : Encoding}
  {es : List Encoding} {b : Block}

/-! ## Chains -/

theorem Chain.length_codeBytes (h : c.Chain mem page o es) :
    (codeBytes es).length = codeSize es := by
  induction es generalizing o with
  | nil => rfl
  | cons e es ih =>
    obtain ⟨hstart, he, -, hes⟩ := h
    rw [codeBytes_cons, codeSize_cons, List.length_append, List.length_take, ih hes,
      Nat.min_eq_left (he.shapedAt.length_le_bytes hstart.1)]

/-- Encodings on the first page take bytes that have been read one after the other. -/
theorem Chain.holdsBytes (h : c.Chain mem page o es) (hes : ∀ e ∈ es, e.crossing = none) :
    HoldsBytes mem (page.toNat + c.place o) (codeBytes es) := by
  induction es generalizing o with
  | nil => exact .nil mem _
  | cons e es ih =>
    obtain ⟨hstart, he, -, hrest⟩ := h
    have hlength := he.shapedAt.length_le_bytes hstart.1
    have hfirst : HoldsBytes mem (page.toNat + c.place o) (e.bytes.take e.length) := by
      intro j byte hj
      rw [List.getElem?_take] at hj
      split_ifs at hj
      have hbyte := he.readsByte hj
      unfold Encoding.address at hbyte
      rwa [hes e List.mem_cons_self] at hbyte
    have hlater := ih hrest fun e' he' => hes e' (List.mem_cons_of_mem _ he')
    rw [codeBytes_cons]
    refine hfirst.append ?_
    rw [List.length_take, Nat.min_eq_left hlength, Nat.add_assoc, place, Nat.add_assoc]
    exact hlater

/-- The next page that an encoding needs is mapped. -/
theorem Reads.crossing_mapped {next : UInt64} {n o : Nat} (he : c.Reads mem page o e)
    (h : e.crossing = some (next, n)) :
    mapForFetch mem (nextPage c.start) c.cpu.cpl = .ok next := by
  cases he with
  | near => cases h
  | far _ _ _ _ hnext =>
    cases h
    exact hnext

theorem size_foldl (c : CompileContext) (d : Draft) (es : List Encoding) :
    (es.foldl c.append d).size = d.size + codeSize es := by
  induction es generalizing d with
  | nil => rfl
  | cons e es ih =>
    rw [List.foldl_cons, ih, codeSize_cons, ← Nat.add_assoc]
    rfl

end CompileContext

/-! ## Compiled blocks -/

open CompileContext

/-- What is known of a block that has been built from the given bytes: where its pages were mapped,
    how it is laid out, and that its bytes have been read from memory. -/
structure Block.BuiltFrom (b : Block) (c : CompileContext) (mem : M) (code : List UInt8) :
    Prop where
  isAt : b.IsAt c.cpu mem
  hasCode : b.HasCode c code
  length : code.length = b.size.toNat
  laidOut : b.LaidOut code.length
  bytes : ∀ (i : Nat) (byte : UInt8), code[i]? = some byte → ReadsByte mem (b.codeAddress i) byte

section

variable {c : CompileContext} {mem : M} {page physPc : UInt64} {e : Encoding} {es : List Encoding}

theorem secondPage?_finish (c : CompileContext) (d : Draft) :
    (c.finish d).secondPage? = d.second.map fun r => pageOf r.start := by
  unfold Block.secondPage? finish
  cases d.second <;> rfl

theorem physPc_finish (c : CompileContext) (physPc : UInt64) (es : List Encoding) :
    (c.finish (es.foldl c.append (emptyDraft physPc))).physPc = physPc :=
  c.start_foldl _ _

/-- Encodings on the first page. -/
theorem codeAddress_near (hes : ∀ e ∈ es, e.crossing = none) (i : Nat) :
    (c.finish (es.foldl c.append (emptyDraft physPc))).secondPage? = none ∧
      (c.finish (es.foldl c.append (emptyDraft physPc))).codeAddress i = physPc.toNat + i := by
  have hsecond : (c.finish (es.foldl c.append (emptyDraft physPc))).secondPage? = none := by
    rw [secondPage?_finish, second_foldl hes rfl]
    rfl
  refine ⟨hsecond, ?_⟩
  unfold Block.codeAddress
  rw [hsecond, physPc_finish]

/-- A block of one encoding that needs the next page. -/
theorem codeAddress_far {next : UInt64} {n : Nat} (he : c.Reads mem page 0 e)
    (hcrossing : e.crossing = some (next, n)) (hpage : page.toNat % 4096 = 0)
    (hphysPc : physPc.toNat = page.toNat + c.place 0) {b : Block}
    (hb : b = c.finish (c.append (emptyDraft physPc) e)) :
    (∀ p, b.secondPage? = some p → p = next) ∧
      ∀ i < e.length, b.codeAddress i = e.address physPc.toNat i ∧
        (b.secondPage? = none → c.place 0 + i < 4096) := by
  have hplace := c.place_zero_lt
  obtain ⟨rfl, hmod⟩ := he.shapedAt.crossing_some hplace hcrossing
  have haddress (i : Nat) : e.address physPc.toNat i =
      if i < 4096 - c.place 0 then physPc.toNat + i
      else next.toNat + (i - (4096 - c.place 0)) := by
    unfold Encoding.address
    rw [hcrossing]
  have hstart : b.physPc = physPc := by
    rw [hb]
    rfl
  have hsecond : b.secondPage? = e.tail?.map fun r => pageOf r.start := by
    rw [hb, secondPage?_finish]
    rfl
  have htail := Encoding.tail_of_crossing hcrossing
  cases hknown : e.knownLength with
  | none =>
    have hlength := Encoding.length_of_unknown hknown
    rw [htail, hknown, Option.map_none, Option.map_none] at hsecond
    refine ⟨fun p hp => (by rw [hsecond] at hp; cases hp), fun i hi => ⟨?_, fun _ => by omega⟩⟩
    unfold Block.codeAddress
    rw [hsecond, hstart, haddress, if_pos (by omega)]
  | some k =>
    rw [htail, hknown, Option.map_some, Option.map_some, pageOf_eq_self hmod] at hsecond
    refine ⟨fun p hp => ?_, fun i hi => ⟨?_, fun hnone => ?_⟩⟩
    · rw [hsecond] at hp
      exact (Option.some.inj hp).symm
    · unfold Block.codeAddress
      rw [hsecond, hstart, haddress]
      dsimp only
      split_ifs <;> omega
    · rw [hsecond] at hnone
      cases hnone

theorem size_finish {n : Nat} (hes : codeSize es = n) (hn : n < 2 ^ 16) :
    (c.finish (es.foldl c.append (emptyDraft physPc))).size.toNat = n := by
  show (es.foldl c.append (emptyDraft physPc)).size.toUInt16.toNat = n
  have hdraft : (es.foldl c.append (emptyDraft physPc)).size = n := by
    rw [size_foldl, hes]
    exact Nat.zero_add n
  rw [hdraft, toNat_toUInt16 hn]

theorem hasCode_finish (hes : ∀ e ∈ es, e.decoded = decode c.width e.bytes) :
    (c.finish (es.foldl c.append (emptyDraft physPc))).HasCode c (codeBytes es) :=
  ⟨es, (toList_calls_foldl c _ _).trans (List.nil_append _), hes, rfl⟩

theorem covers_finish (h : c.Chain mem page 0 (e :: es))
    (hphysPc : physPc.toNat = page.toNat + c.place 0) {b : Block}
    (hb : b = c.finish ((e :: es).foldl c.append (emptyDraft physPc))) (a : Nat) :
    (∃ r ∈ b.ranges, r.Covers a) ↔ c.Takes page 0 (e :: es) a := by
  rw [hb]
  exact h.covers_iff hphysPc a

/-- Where the bytes of a block are that has been made from a chain on the first page. -/
theorem laidOut_near (h : c.Chain mem page 0 (e :: es)) (hes : ∀ e' ∈ e :: es, e'.crossing = none)
    (hphysPc : physPc.toNat = page.toNat + c.place 0) (hmod : page.toNat % 4096 = 0) {b : Block}
    (hb : b = c.finish ((e :: es).foldl c.append (emptyDraft physPc))) :
    b.secondPage? = none ∧ b.LaidOut (codeBytes (e :: es)).length ∧
      ∀ (i : Nat) (byte : UInt8), (codeBytes (e :: es))[i]? = some byte →
        ReadsByte mem (b.codeAddress i) byte := by
  have hplace := c.place_zero_lt
  have hlength := h.length_codeBytes
  have hle := h.sequence.place_le hplace.le hes
  rw [← hlength] at hle
  have hfirst : b.physPc = physPc := by
    rw [hb, physPc_finish]
  have hnear (i : Nat) : b.secondPage? = none ∧ b.codeAddress i = physPc.toNat + i := by
    rw [hb]
    exact codeAddress_near hes i
  refine ⟨(hnear 0).1, ⟨fun a => ?_, fun _ i hi => ?_, ?_⟩, fun i byte hi => ?_⟩
  · rw [covers_finish h hphysPc hb, takes_near hes, ← hphysPc, ← hlength]
    constructor
    · exact fun ha => ⟨a - physPc.toNat, by omega, by rw [(hnear _).2]; omega⟩
    · rintro ⟨i, hi, rfl⟩
      rw [(hnear i).2]
      omega
  · rw [hfirst]
    omega
  · rw [hfirst]
    omega
  · rw [(hnear i).2, hphysPc]
    exact h.holdsBytes hes i byte hi

/-- Where the bytes of a block are that has been made from an encoding that needs the next page. -/
theorem laidOut_far {next : UInt64} {n : Nat} (h : c.Chain mem page 0 [e])
    (hcrossing : e.crossing = some (next, n)) (hphysPc : physPc.toNat = page.toNat + c.place 0)
    (hmod : page.toNat % 4096 = 0) {b : Block}
    (hb : b = c.finish ([e].foldl c.append (emptyDraft physPc))) :
    (∀ p, b.secondPage? = some p → mapForFetch mem (nextPage c.start) c.cpu.cpl = .ok p) ∧
      b.LaidOut (codeBytes [e]).length ∧
      ∀ (i : Nat) (byte : UInt8), (codeBytes [e])[i]? = some byte →
        ReadsByte mem (b.codeAddress i) byte := by
  have hplace := c.place_zero_lt
  have hsize := h.sequence.size_lt hplace
  unfold maxInstructionLength at hsize
  have hlength : (codeBytes [e]).length = e.length := h.length_codeBytes
  have hsum : codeSize [e] = e.length := rfl
  have hfirst : b.physPc = physPc := by
    rw [hb, physPc_finish]
  have hcovers := covers_finish h hphysPc hb
  obtain ⟨-, he, -, -⟩ := h
  obtain ⟨hsecond, hwhere⟩ := codeAddress_far he hcrossing hmod hphysPc hb
  refine ⟨fun p hp => ?_, ⟨fun a => ?_, fun hnone i hi => ?_, ?_⟩, fun i byte hi => ?_⟩
  · rw [hsecond p hp]
    exact he.crossing_mapped hcrossing
  · rw [hcovers, Takes, Takes, or_false, hlength, ← hphysPc]
    refine exists_congr fun i => and_congr_right fun hi => ?_
    rw [(hwhere i hi).1]
  · rw [hlength] at hi
    have hinside := (hwhere i hi).2 hnone
    rw [hfirst]
    omega
  · rw [hfirst]
    omega
  · have hbytes : codeBytes [e] = e.bytes.take e.length := List.append_nil _
    rw [hbytes, List.getElem?_take] at hi
    split_ifs at hi with hlt
    rw [(hwhere i hlt).1, hphysPc]
    exact he.readsByte hi

/-- A block that has been made from a chain of encodings. -/
theorem builtFrom_of_chain (h : c.Chain mem page 0 (e :: es)) (hstart : c.start = c.cpu.linearPc)
    (hpage : mapForFetch mem c.start c.cpu.cpl = .ok page)
    (hphysPc : physPc.toNat = page.toNat + c.place 0) {b : Block}
    (hb : b = c.finish ((e :: es).foldl c.append (emptyDraft physPc))) :
    b.BuiltFrom c mem (codeBytes (e :: es)) := by
  have hplace := c.place_zero_lt
  have hmod := mapForFetch_mod hpage
  have hlength := h.length_codeBytes
  have hsize := h.sequence.size_lt hplace
  unfold maxInstructionLength at hsize
  have hcode : b.HasCode c (codeBytes (e :: es)) := by
    rw [hb]
    exact hasCode_finish h.sequence.decoded
  have hnat : (codeBytes (e :: es)).length = b.size.toNat := by
    rw [hb, size_finish hlength.symm (by omega)]
  obtain ⟨hsecond, hlaidOut, hbytes⟩ : (∀ p, b.secondPage? = some p →
      mapForFetch mem (nextPage c.start) c.cpu.cpl = .ok p) ∧
      b.LaidOut (codeBytes (e :: es)).length ∧
      ∀ (i : Nat) (byte : UInt8), (codeBytes (e :: es))[i]? = some byte →
        ReadsByte mem (b.codeAddress i) byte := by
    by_cases hes : ∀ e' ∈ e :: es, e'.crossing = none
    · obtain ⟨hnone, hnear⟩ := laidOut_near h hes hphysPc hmod hb
      refine ⟨fun p hp => ?_, hnear⟩
      rw [hnone] at hp
      cases hp
    · obtain hes' | rfl := h.sequence.crossing_cases
      · exact absurd hes' hes
      · obtain ⟨⟨next, n⟩, hcrossing⟩ := Option.ne_none_iff_exists'.1 fun hnone =>
          hes fun e' he' => List.mem_singleton.1 he' ▸ hnone
        exact laidOut_far h hcrossing hphysPc hmod hb
  have hfirst : b.physPc = physPc := by
    rw [hb, physPc_finish]
  rw [hstart] at hpage hsecond
  refine ⟨⟨⟨page, hpage, ?_⟩, hsecond⟩, hcode, hnat, hlaidOut, hbytes⟩
  rw [hfirst, hphysPc, place, hstart, Nat.add_zero]

end

/-- **A compiled block has been built from bytes of memory.** -/
theorem exists_builtFrom {cpu : Cpu} {mem : M} {s s' : FetchStream} {flags : ModeFlags}
    {config : Config} {b : Block} (hwidth : flags.codeWidth = cpu.codeWidth) (hs : s.Current mem)
    (h : compileBlock cpu mem s flags config = (.ok b, s')) :
    ∃ code, b.BuiltFrom ⟨cpu, flags, config⟩ mem code := by
  obtain ⟨page, physPc, e, es, hpage, hphysPc, hchain, hb⟩ := compileBlock_ok hwidth hs h
  have hstart : start ⟨cpu, flags, config⟩ = cpu.linearPc := start_eq hwidth
  refine ⟨_, builtFrom_of_chain hchain hstart ?_ ?_ hb⟩
  · rw [hstart]
    exact hpage
  · rw [hphysPc, place, hstart, Nat.add_zero]

/-- A block of a single call has been made from one encoding. -/
theorem Block.HasCode.exists_encoding {b : Block} {c : CompileContext} {code : List UInt8}
    {call : Call} (h : b.HasCode c code) (hcalls : b.calls = [call])
    (hchecks : c.flags.needsLimitChecks = false) :
    ∃ e : Encoding, e.decoded = decode c.width e.bytes ∧ code = e.bytes.take e.length ∧
      call = e.toCall 0 := by
  obtain ⟨es, hlisting, hdecoded, rfl⟩ := h
  rw [hcalls] at hlisting
  obtain _ | ⟨e, es⟩ := es
  · cases hlisting
  · rw [listing, callsOf, hchecks, if_neg Bool.false_ne_true, List.singleton_append] at hlisting
    obtain ⟨hcall, hrest⟩ := List.cons.inj hlisting
    obtain rfl : es = [] := by
      by_contra hne
      have := isEmpty_listing (c := c) (o := 0 + e.length) hne
      rw [← hrest] at this
      cases this
    exact ⟨e, hdecoded e List.mem_cons_self, List.append_nil _, hcall⟩

/-- Replaying a block logs its writes. -/
theorem Block.HasCode.logs_replay {b : Block} {c : CompileContext} {code : List UInt8}
    (h : b.HasCode c code) : Logs (b.replay (M := M)) := by
  obtain ⟨es, hcalls, hdecoded, -⟩ := h
  refine logs_replayCalls b ?_ 0
  rw [hcalls]
  exact logs_listing 0 hdecoded

/-! ## Where code is mapped -/

/-- A byte of the code is on the page of the first one or on the next page, each of which is mapped
    as a whole. -/
theorem Block.LaidOut.exists_page {b : Block} {cpu : Cpu} {mem : M} {n i : Nat} (h : b.LaidOut n)
    (hb : b.IsAt cpu mem) (hi : i < n) :
    ∃ page, mapForFetch mem (cpu.linearPc + i.toUInt64) cpu.cpl = .ok page ∧
      b.codeAddress i = page.toNat + (cpu.linearPc + i.toUInt64).toNat % 4096 := by
  obtain ⟨⟨page, hpage, hphysPc⟩, hsecond⟩ := hb
  have hmod := mapForFetch_mod hpage
  have hplace : b.physPc.toNat % 4096 = cpu.linearPc.toNat % 4096 := by omega
  have hsize := h.size
  have htop := cpu.linearPc.toNat_lt
  have hpc : (cpu.linearPc + i.toUInt64).toNat = (cpu.linearPc.toNat + i) % 2 ^ 64 := by
    rw [UInt64.toNat_add, toNat_toUInt64 (by omega)]
  -- Behind the last page `cpu.linearPc + i` wraps, as the next page does.
  by_cases hfirst : cpu.linearPc.toNat % 4096 + i < 4096
  · have hsame : pageOf (cpu.linearPc + i.toUInt64) = pageOf cpu.linearPc := by
      rw [pageOf_eq_iff]
      omega
    refine ⟨page, by rw [mapForFetch_congr hsame, hpage], ?_⟩
    unfold codeAddress
    cases b.secondPage? with
    | none =>
      dsimp only
      omega
    | some p =>
      dsimp only
      rw [if_pos (by omega)]
      omega
  · have hnext : pageOf (cpu.linearPc + i.toUInt64) = pageOf (nextPage cpu.linearPc) := by
      rw [pageOf_eq_iff, toNat_nextPage]
      omega
    obtain ⟨p, hp⟩ := Option.ne_none_iff_exists'.1 fun hnone => by
      have := h.onPage hnone i hi
      omega
    refine ⟨p, by rw [mapForFetch_congr hnext, hsecond p hp], ?_⟩
    unfold codeAddress
    rw [hp]
    dsimp only
    rw [if_neg (by omega)]
    omega

section

variable {mem : M} {cpu : Cpu} {b : Block} {code : List UInt8}

theorem pageOffset_pageOf (a : UInt64) : pageOffset (pageOf a) = 0 := by
  rw [← UInt64.toNat_inj, toNat_pageOffset]
  exact pageOf_mod a

/-- Translation moves whole pages: where there is a byte, an address leads to its place on the page
    that its own page leads to. -/
def PagePreserving (mem : M) : Prop :=
  ∀ (pc : UInt64) (cpl : UInt8) (page : UInt64), mapForFetch mem pc cpl = .ok page →
    byteAt mem (page + pageOffset pc) ≠ none →
    translate mem pc .execute cpl = .ok (page + pageOffset pc)

/-- No code page is mapped to the last page of physical memory. -/
def SparesLastPage (mem : M) : Prop :=
  ∀ (pc : UInt64) (cpl : UInt8) (page : UInt64), mapForFetch mem pc cpl = .ok page →
    page.toNat + 4096 < 2 ^ 64

theorem FlatMemory.translate_execute (mem : FlatMemory) (a : UInt64) (cpl : UInt8) :
    translate mem a .execute cpl =
      if mem.unmapped.contains (pageOf a) || mem.bytes.size ≤ a.toNat then
        .error (.pageFault a (pageFaultCode .execute cpl))
      else .ok a :=
  rfl

theorem FlatMemory.pagePreserving (mem : FlatMemory) : PagePreserving mem := by
  intro pc cpl page hpage hbyte
  rw [mapForFetch, translate_execute, pageOf_pageOf] at hpage
  split_ifs at hpage with hmissing
  · cases hpage
  · rw [Except.map, pageOf_pageOf] at hpage
    obtain rfl := Except.ok.inj hpage
    rw [pageOf_add_pageOffset, byteAt_eq, ne_eq, Array.getElem?_eq_none_iff] at hbyte
    simp only [Bool.or_eq_true, decide_eq_true_eq, not_or] at hmissing
    rw [translate_execute, pageOf_add_pageOffset, if_neg]
    simp only [Bool.or_eq_true, decide_eq_true_eq, not_or]
    exact ⟨hmissing.1, hbyte⟩

/-- Remapped memory is such, if its pages lead to pages. -/
theorem RemappedMemory.pagePreserving {mem : RemappedMemory}
    (h : ∀ e ∈ mem.table, e.2.toNat % 4096 = 0) : PagePreserving mem := by
  intro pc cpl page hpage hbyte
  change (translateRemapped mem (pageOf pc) .execute cpl).map pageOf = .ok page at hpage
  show translateRemapped mem pc .execute cpl = _
  unfold translateRemapped at hpage ⊢
  rw [pageOf_pageOf] at hpage
  cases hlookup : mem.table.lookup (pageOf pc) with
  | none =>
    rw [hlookup] at hpage
    exact mem.flat.pagePreserving pc cpl page hpage hbyte
  | some p =>
    obtain ⟨_, _, htable, -⟩ := List.lookup_eq_some_iff.1 hlookup
    have hmod : p.toNat % 4096 = 0 := h (pageOf pc, p) (by simp [htable])
    rw [hlookup] at hpage
    dsimp only at hpage ⊢
    rw [Except.map, pageOffset_pageOf, UInt64.or_zero, pageOf_eq_self hmod] at hpage
    rw [← Except.ok.inj hpage, or_pageOffset hmod]

/-- Where the code pages of sparse memory lead. -/
theorem SparseMemory.mapForFetch_eq {mem : SparseMemory} (h : ∀ e ∈ mem.table, e.2.toNat % 4096 = 0)
    (pc : UInt64) (cpl : UInt8) :
    (mapForFetch mem pc cpl = .ok ((mem.table.lookup (pageOf pc)).getD (pageOf pc))) ∧
      ((mem.table.lookup (pageOf pc)).getD (pageOf pc)).toNat % 4096 = 0 := by
  have hmod : ((mem.table.lookup (pageOf pc)).getD (pageOf pc)).toNat % 4096 = 0 := by
    cases hlookup : mem.table.lookup (pageOf pc) with
    | none => exact pageOf_mod pc
    | some p =>
      obtain ⟨_, _, htable, -⟩ := List.lookup_eq_some_iff.1 hlookup
      exact h (pageOf pc, p) (by simp [htable])
  refine ⟨?_, hmod⟩
  show Except.ok (pageOf ((mem.table.lookup (pageOf (pageOf pc))).getD (pageOf (pageOf pc)) |||
    pageOffset (pageOf pc))) = _
  rw [pageOf_pageOf, pageOffset_pageOf, UInt64.or_zero, pageOf_eq_self hmod]

/-- So is sparse memory. -/
theorem SparseMemory.pagePreserving {mem : SparseMemory}
    (h : ∀ e ∈ mem.table, e.2.toNat % 4096 = 0) : PagePreserving mem := by
  intro pc cpl page hpage _
  obtain ⟨hmapped, hmod⟩ := mapForFetch_eq h pc cpl
  rw [hmapped] at hpage
  rw [← Except.ok.inj hpage, ← or_pageOffset hmod]
  rfl

/-- Sparse memory leads nothing to the last page, if its table leads the last page elsewhere and
    nothing there. -/
theorem SparseMemory.sparesLastPage {mem : SparseMemory}
    (h : ∀ e ∈ mem.table, e.2.toNat % 4096 = 0) (hlow : ∀ e ∈ mem.table, e.2.toNat + 4096 < 2 ^ 64)
    (hlast : mem.table.lookup 0xFFFFFFFFFFFFF000 ≠ none) : SparesLastPage mem := by
  intro pc cpl page hpage
  rw [(mapForFetch_eq h pc cpl).1] at hpage
  rw [← Except.ok.inj hpage]
  cases hlookup : mem.table.lookup (pageOf pc) with
  | none =>
    have hne : (pageOf pc).toNat ≠ 0xFFFFFFFFFFFFF000 := fun heq => by
      rw [show pageOf pc = 0xFFFFFFFFFFFFF000 from UInt64.toNat_inj.1 heq] at hlookup
      exact hlast hlookup
    have hmod := pageOf_mod pc
    have htop := (pageOf pc).toNat_lt
    rw [Option.getD_none]
    omega
  | some p =>
    obtain ⟨_, _, htable, -⟩ := List.lookup_eq_some_iff.1 hlookup
    exact hlow (pageOf pc, p) (by simp [htable])

theorem FlatMemory.sparesLastPage {mem : FlatMemory} (h : mem.bytes.size + 4096 ≤ 2 ^ 64) :
    SparesLastPage mem := by
  intro pc cpl page hpage
  rw [mapForFetch, translate_execute, pageOf_pageOf] at hpage
  split_ifs at hpage with hmissing
  · cases hpage
  · rw [Except.map, pageOf_pageOf] at hpage
    rw [← Except.ok.inj hpage]
    simp only [Bool.or_eq_true, decide_eq_true_eq, not_or] at hmissing
    omega

theorem RemappedMemory.sparesLastPage {mem : RemappedMemory}
    (hsize : mem.flat.bytes.size + 4096 ≤ 2 ^ 64)
    (h : ∀ e ∈ mem.table, e.2.toNat % 4096 = 0 ∧ e.2.toNat + 4096 < 2 ^ 64) :
    SparesLastPage mem := by
  intro pc cpl page hpage
  change (translateRemapped mem (pageOf pc) .execute cpl).map pageOf = .ok page at hpage
  unfold translateRemapped at hpage
  rw [pageOf_pageOf] at hpage
  cases hlookup : mem.table.lookup (pageOf pc) with
  | none =>
    rw [hlookup] at hpage
    exact FlatMemory.sparesLastPage hsize pc cpl page hpage
  | some p =>
    obtain ⟨_, _, htable, -⟩ := List.lookup_eq_some_iff.1 hlookup
    obtain ⟨hmod, hlow⟩ := h (pageOf pc, p) (by simp [htable])
    rw [hlookup] at hpage
    dsimp only at hpage
    rw [Except.map, pageOffset_pageOf, UInt64.or_zero, pageOf_eq_self hmod] at hpage
    rwa [← Except.ok.inj hpage]

/-- The linear addresses from CS:RIP on are translated to the addresses of the given bytes. -/
def ShowsCode (cpu : Cpu) (mem : M) (code : List UInt8) : Prop :=
  ∀ (i : Nat) (byte : UInt8), code[i]? = some byte →
    ∃ a, translate mem (cpu.linearPc + i.toUInt64) .execute cpu.cpl = .ok a ∧
      byteAt mem a = some byte

/-- The byte at CS:RIP, if there is one. -/
def byteAtPc (cpu : Cpu) (mem : M) : Option UInt8 :=
  (translate mem cpu.linearPc .execute cpu.cpl).toOption.bind (byteAt mem)

theorem ShowsCode.head? (h : ShowsCode cpu mem code) (hpos : 0 < code.length) :
    code.head? = byteAtPc cpu mem := by
  obtain ⟨a, ha, hbyte⟩ := h 0 _ (List.getElem?_eq_getElem hpos)
  have hpc : cpu.linearPc + (0 : Nat).toUInt64 = cpu.linearPc := UInt64.add_zero _
  rw [hpc] at ha
  rw [byteAtPc, ha, List.head?_eq_getElem?, List.getElem?_eq_getElem hpos, ← hbyte]
  rfl

/-- **Where its pages are mapped, translation leads to the bytes of a block.** -/
theorem Block.LaidOut.showsCode (h : b.LaidOut code.length) (hpages : PagePreserving mem)
    (hb : b.IsAt cpu mem)
    (hbytes : ∀ i byte, code[i]? = some byte →
      byteAt mem (b.codeAddress i).toUInt64 = some byte) :
    ShowsCode cpu mem code := by
  intro i byte hi
  have hbyte := hbytes i byte hi
  obtain ⟨p, hp, haddress⟩ := h.exists_page hb (List.getElem?_eq_some_iff.1 hi).1
  have hoffset := toNat_page_add_pageOffset (mapForFetch_mod hp) (cpu.linearPc + i.toUInt64)
  have ha : (b.codeAddress i).toUInt64 = p + pageOffset (cpu.linearPc + i.toUInt64) := by
    have htop := (p + pageOffset (cpu.linearPc + i.toUInt64)).toNat_lt
    rw [← UInt64.toNat_inj, toNat_toUInt64 (by omega), hoffset, haddress]
  rw [ha] at hbyte
  exact ⟨_, hpages _ _ _ hp (by rw [hbyte]; exact Option.some_ne_none byte), hbyte⟩

/-- A block whose pages are mapped, none of them to the last page, is below that page. -/
theorem Block.LaidOut.ranges_lt {n : Nat} (h : b.LaidOut n) (hb : b.IsAt cpu mem)
    (hspares : SparesLastPage mem) :
    ∀ r ∈ b.ranges, r.start.toNat + r.length.toNat < 2 ^ 64 := by
  refine toNat_ranges_lt (n := 2 ^ 64 - 1) (fun a ha => ?_) (by decide)
  obtain ⟨i, hi, rfl⟩ := (h.covers_iff a).1 ha
  obtain ⟨p, hp, haddress⟩ := h.exists_page hb hi
  have hlow := hspares _ _ _ hp
  omega

end

end X86Replay

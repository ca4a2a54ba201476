import X86Replay.Proofs.Bounds
import X86Replay.Proofs.CodeBytes

/-!
# Compiled blocks are well-formed

* `Block.WellFormed`: what the parts of a block say about each other and about the caps.
* `Sequence.getElem?_listing`: where a call stands in the block, and which instruction it is of.
* `Sequence.ranges_cases`: the ranges of a block, with and without a second page.
* `compileBlock_wellFormed`: compiling never gives up, and makes well-formed blocks only.
-/

namespace X86Replay

variable {M : Type} [GuestMemory M]

/-! ## Well-formed blocks -/

namespace Block

/-- The number of calls that each instruction takes. -/
def callsPerInstruction (b : Block) : Nat :=
  if b.checksLimit then 2 else 1

/-- The first of instructions of the given lengths reaches past the end of its page. -/
def Straddles (b : Block) (lengths : List Nat) : Prop :=
  ∃ n, lengths.head? = some n ∧ 4096 < b.pc.toNat % 4096 + n

/-- A block whose instructions have the given lengths, one after the other. -/
structure WellFormed (b : Block) (config : Config) (lengths : List Nat) : Prop where
  nonempty : lengths ≠ []
  bounds : ∀ n ∈ lengths, 0 < n ∧ n ≤ maxInstructionLength
  instructions : b.instructions.toNat = lengths.length
  instructions_le : lengths.length ≤ min config.maxCalls config.maxOpcodeBytes
  calls : b.calls.length = b.instructions.toNat * b.callsPerInstruction
  calls_le : b.calls.length ≤ config.maxCalls
  /-- The calls of an instruction have its length and the offset that the lengths before it add up
      to. -/
  call : ∀ k call, b.calls[k]? = some call →
    lengths[k / b.callsPerInstruction]? = some call.length.toNat ∧
      call.offset.toNat = (lengths.take (k / b.callsPerInstruction)).sum
  size : b.size.toNat = lengths.sum
  size_le : b.size.toNat ≤ config.maxOpcodeBytes
  ranges : (b.ranges.map fun r => r.length.toNat).sum = b.size.toNat
  /-- The first range starts where the block does, and ends on the same page. -/
  first : ∃ r, b.ranges[0]? = some r ∧ r.start = b.physPc ∧ 0 < r.length.toNat ∧
    r.start.toNat % 4096 + r.length.toNat ≤ 4096
  /-- There is a second range if and only if the first instruction straddles pages. -/
  length_ranges : b.ranges.length = 1 ∧ ¬b.Straddles lengths ∨
    b.ranges.length = 2 ∧ b.Straddles lengths
  /-- The second range starts a page, and then the instruction is the only one. -/
  second : ∀ r, b.ranges[1]? = some r →
    0 < r.length.toNat ∧ r.start.toNat % 4096 = 0 ∧ b.instructions = 1

end Block

/-! ## Calls -/

namespace CompileContext

variable {c : CompileContext} {e : Encoding} {es : List Encoding} {o : Nat} {d : Draft}
  {physPc : UInt64}

theorem length_callsOf (c : CompileContext) (o : Nat) (e : Encoding) :
    (c.callsOf o e).length = c.callsPerInstruction := by
  unfold callsOf callsPerInstruction
  split_ifs <;> rfl

theorem callsPerInstruction_pos (c : CompileContext) : 0 < c.callsPerInstruction := by
  unfold callsPerInstruction
  split_ifs <;> decide

theorem length_listing (c : CompileContext) (o : Nat) (es : List Encoding) :
    (c.listing o es).length = es.length * c.callsPerInstruction := by
  induction es generalizing o with
  | nil => exact (Nat.zero_mul _).symm
  | cons e es ih =>
    rw [listing, List.length_append, length_callsOf, ih, List.length_cons, Nat.succ_mul,
      Nat.add_comm]

/-- **Every call stands at the offset of its instruction** and has its length. -/
theorem Sequence.getElem?_listing (h : c.Sequence o es) {k : Nat} {call : Call}
    (hcall : (c.listing o es)[k]? = some call) :
    ∃ e, es[k / c.callsPerInstruction]? = some e ∧ call.length.toNat = e.length ∧
      call.offset.toNat = o + codeSize (es.take (k / c.callsPerInstruction)) := by
  have hpos := c.callsPerInstruction_pos
  induction es generalizing o k with
  | nil => cases hcall
  | cons e es ih =>
    obtain ⟨ho, he, -, hes⟩ := h
    rw [listing] at hcall
    by_cases hk : k < c.callsPerInstruction
    · rw [List.getElem?_append_left (by rwa [length_callsOf])] at hcall
      obtain ⟨hoffset, hlength⟩ := he.of_mem_callsOf ho (List.mem_of_getElem? hcall)
      rw [Nat.div_eq_of_lt hk]
      exact ⟨e, rfl, hlength, hoffset⟩
    · have hle := Nat.le_of_not_lt hk
      rw [List.getElem?_append_right (by rwa [length_callsOf]), length_callsOf] at hcall
      obtain ⟨e', he', hlength, hoffset⟩ := ih hes hcall
      have hdiv : k / c.callsPerInstruction =
          (k - c.callsPerInstruction) / c.callsPerInstruction + 1 := by
        rw [← Nat.add_div_right _ hpos, Nat.sub_add_cancel hle]
      rw [hdiv]
      refine ⟨e', he', hlength, ?_⟩
      rw [List.take_succ_cons, codeSize_cons, hoffset, Nat.add_assoc]

theorem instructions_foldl (c : CompileContext) (d : Draft) (es : List Encoding) :
    (es.foldl c.append d).instructions = d.instructions + es.length := by
  induction es generalizing d with
  | nil => rfl
  | cons e es ih =>
    rw [List.foldl_cons, ih, List.length_cons]
    show d.instructions + 1 + es.length = _
    omega

theorem Sequence.length_le_codeSize (h : c.Sequence o es) : es.length ≤ codeSize es := by
  induction es generalizing o with
  | nil => exact Nat.le_refl 0
  | cons e es ih =>
    obtain ⟨-, he, -, hes⟩ := h
    have hpos := Encoding.length_pos he.decoded
    have hlater := ih hes
    rw [List.length_cons, codeSize_cons]
    omega

/-! ## Ranges -/

/-- Encodings that stay on their page are in one range. -/
theorem Sequence.ranges_near (physPc : UInt64) (h : c.Sequence 0 (e :: es))
    (hnear : ∀ e' ∈ e :: es, e'.crossing = none) :
    ∃ n : UInt32, n.toNat = codeSize (e :: es) ∧ c.place 0 + n.toNat ≤ 4096 ∧
      ((e :: es).foldl c.append (emptyDraft physPc)).ranges = [⟨physPc, n⟩] := by
  have hplace := c.place_zero_lt
  have hle := h.place_le hplace.le hnear
  have hlength := length_foldl (c := c) (d := emptyDraft physPc) hnear (by
    show 0 + _ < _
    omega)
  rw [show (emptyDraft physPc).first.length.toNat = 0 from rfl, Nat.zero_add] at hlength
  refine ⟨_, hlength, by omega, ?_⟩
  have hstart : ((e :: es).foldl c.append (emptyDraft physPc)).first.start = physPc :=
    c.start_foldl _ _
  rw [Draft.ranges, second_foldl hnear rfl]
  generalize ((e :: es).foldl c.append (emptyDraft physPc)).first = r at hstart
  subst hstart
  rfl

/-- An encoding whose fetch has gone on to another page has a second range there, unless it was
    decoded without a byte of it. -/
theorem Sequence.ranges_crossing (physPc : UInt64) (h : c.Sequence 0 [e]) {next : UInt64}
    {near : Nat} (hcrossing : e.crossing = some (next, near)) :
    (∃ n : UInt32, n.toNat = e.length ∧ c.place 0 + n.toNat ≤ 4096 ∧
        (c.append (emptyDraft physPc) e).ranges = [⟨physPc, n⟩]) ∨
      ∃ n k : UInt32, c.place 0 + n.toNat = 4096 ∧ 0 < n.toNat ∧
        0 < k.toNat ∧ n.toNat + k.toNat = e.length ∧ next.toNat % 4096 = 0 ∧
        (c.append (emptyDraft physPc) e).ranges = [⟨physPc, n⟩, ⟨next, k⟩] := by
  have hplace := c.place_zero_lt
  have he := h.2.1
  have hle := Encoding.length_le he.decoded
  have htail := Encoding.tail_of_crossing hcrossing
  obtain ⟨rfl, hmod⟩ := he.crossing_some hplace hcrossing
  rw [ranges_single]
  cases hknown : e.knownLength with
  | none =>
    have hlength := Encoding.length_of_unknown hknown
    rw [hknown, Option.map_none] at htail
    refine .inl ⟨e.length.toUInt32, toNat_toUInt32 hle, ?_, ?_⟩
    · rw [toNat_toUInt32 hle]
      omega
    · rw [htail, Option.elim_none, UInt32.sub_zero]
      rfl
  | some k =>
    have hlt := he.lt_knownLength hcrossing hknown
    have hlength := Encoding.length_of_known hknown
    rw [hknown, Option.map_some, ← hlength] at htail
    have hfirst := toNat_sub_tail (n := 4096 - c.place 0) hle
    have hrest := toNat_toUInt32 (n := e.length - (4096 - c.place 0)) (by omega)
    rw [htail, Option.elim_some]
    refine .inr ⟨e.length.toUInt32 - (e.length - (4096 - c.place 0)).toUInt32,
      (e.length - (4096 - c.place 0)).toUInt32, ?_⟩
    exact ⟨by omega, by omega, by omega, by omega, hmod, rfl⟩

/-- The ranges of a block: one on its page, or one to the end of the page and one from the start of
    the next. -/
theorem Sequence.ranges_cases (physPc : UInt64) (h : c.Sequence 0 (e :: es)) :
    (∃ n : UInt32, n.toNat = codeSize (e :: es) ∧ c.place 0 + n.toNat ≤ 4096 ∧
        ((e :: es).foldl c.append (emptyDraft physPc)).ranges = [⟨physPc, n⟩]) ∨
      es = [] ∧ ∃ (n k : UInt32) (next : UInt64), c.place 0 + n.toNat = 4096 ∧ 0 < n.toNat ∧
        0 < k.toNat ∧ n.toNat + k.toNat = e.length ∧ next.toNat % 4096 = 0 ∧
        ((e :: es).foldl c.append (emptyDraft physPc)).ranges = [⟨physPc, n⟩, ⟨next, k⟩] := by
  by_cases hnear : ∀ e' ∈ e :: es, e'.crossing = none
  · exact .inl (h.ranges_near physPc hnear)
  · -- Nothing is appended behind an encoding that has crossed.
    obtain rfl := h.crossing_cases.resolve_left hnear
    obtain ⟨next, near, hcrossing⟩ : ∃ next near, e.crossing = some (next, near) := by
      cases hcrossing : e.crossing with
      | none => exact absurd (by simpa using hcrossing) hnear
      | some crossing => exact ⟨crossing.1, crossing.2, rfl⟩
    obtain hone | ⟨n, k, htwo⟩ := h.ranges_crossing physPc hcrossing
    · exact .inl hone
    · exact .inr ⟨rfl, n, k, next, htwo⟩

/-! ## Blocks -/

/-- The lengths of encodings up to one of them add up to its offset. -/
theorem sum_take_lengths (es : List Encoding) (j : Nat) :
    ((es.map Encoding.length).take j).sum = codeSize (es.take j) := by
  rw [codeSize, List.map_take]

variable {config : Config}

/-- What the ranges of a block made of encodings say. -/
theorem Sequence.ranges_finish (h : c.Sequence 0 (e :: es))
    (hphysPc : physPc.toNat % 4096 = c.place 0) {b : Block}
    (hb : b = c.finish ((e :: es).foldl c.append (emptyDraft physPc))) :
    (b.ranges.map fun r => r.length.toNat).sum = codeSize (e :: es) ∧
      (∃ r, b.ranges[0]? = some r ∧ r.start = b.physPc ∧ 0 < r.length.toNat ∧
        r.start.toNat % 4096 + r.length.toNat ≤ 4096) ∧
      (b.ranges.length = 1 ∧ ¬4096 < c.place 0 + e.length ∨
        b.ranges.length = 2 ∧ 4096 < c.place 0 + e.length) ∧
      ∀ r, b.ranges[1]? = some r →
        0 < r.length.toNat ∧ r.start.toNat % 4096 = 0 ∧ b.instructions = 1 := by
  have hpos := Encoding.length_pos h.2.1.decoded
  have hsum := codeSize_cons e es
  have hstart : b.physPc = physPc := by rw [hb, physPc_finish]
  have hranges : b.ranges = ((e :: es).foldl c.append (emptyDraft physPc)).ranges := by
    rw [hb]
    rfl
  obtain ⟨n, hn, hpage, hone⟩ | ⟨rfl, n, k, next, hpage, hn, hk, hlength, hmod, htwo⟩ :=
    h.ranges_cases physPc
  · rw [hranges, hone, hstart]
    refine ⟨by simpa using hn, ⟨_, rfl, rfl, ?_, ?_⟩, .inl ⟨rfl, ?_⟩, ?_⟩
    · dsimp only
      omega
    · dsimp only
      omega
    · omega
    · rintro r ⟨⟩
  · have hcode : codeSize [e] = e.length := rfl
    rw [hranges, htwo, hstart]
    refine ⟨?_, ⟨_, rfl, rfl, hn, ?_⟩, .inr ⟨rfl, ?_⟩, ?_⟩
    · simpa [hcode] using hlength
    · dsimp only
      omega
    · omega
    · rintro r ⟨⟩
      refine ⟨hk, hmod, ?_⟩
      rw [hb]
      rfl

/-- A first encoding past the end of its page is a first instruction that straddles it. -/
theorem straddles_finish (hstart : c.start = c.cpu.linearPc) {b : Block} (hb : b = c.finish d) :
    b.Straddles ((e :: es).map Encoding.length) ↔ 4096 < c.place 0 + e.length := by
  have hpc : b.pc = c.start := by
    rw [hb, hstart]
    rfl
  unfold Block.Straddles place
  rw [hpc]
  simp

/-- The calls of a block made of encodings. -/
theorem calls_finish {b : Block} (hb : b = c.finish (es.foldl c.append (emptyDraft physPc))) :
    b.calls = c.listing 0 es := by
  rw [hb]
  exact (toList_calls_foldl c _ _).trans (List.nil_append _)

/-- The instructions of a block made of encodings. -/
theorem instructions_finish (hlt : es.length < 65536) {b : Block}
    (hb : b = c.finish (es.foldl c.append (emptyDraft physPc))) :
    b.instructions.toNat = es.length := by
  have hdraft : b.instructions = (es.foldl c.append (emptyDraft physPc)).instructions.toUInt16 := by
    rw [hb]
    rfl
  have hcount : (es.foldl c.append (emptyDraft physPc)).instructions = es.length :=
    (instructions_foldl c _ es).trans (Nat.zero_add _)
  rw [hdraft, hcount, toNat_toUInt16 hlt]

/-- **A block of encodings that follow each other, within the caps, is well-formed.** -/
theorem Sequence.wellFormed (h : c.Sequence 0 (e :: es)) (hconfig : c.config.validate = .ok ())
    (hwithin : c.Within ((e :: es).foldl c.append (emptyDraft physPc)))
    (hphysPc : physPc.toNat % 4096 = c.place 0) (hstart : c.start = c.cpu.linearPc) {b : Block}
    (hb : b = c.finish ((e :: es).foldl c.append (emptyDraft physPc))) :
    b.WellFormed c.config ((e :: es).map Encoding.length) := by
  obtain ⟨-, -, hbytes⟩ := c.config.caps_of_validate hconfig
  have hcaps : codeSize (e :: es) ≤ c.config.maxOpcodeBytes := by
    have hsize := hwithin.size
    rw [size_foldl] at hsize
    exact (Nat.zero_add _).symm.trans_le hsize
  have hle := h.length_le_codeSize
  have hsize : b.size.toNat = codeSize (e :: es) := by
    rw [hb]
    exact size_finish rfl (by omega)
  have hinstructions := instructions_finish (by omega) hb
  have hcount : b.callsPerInstruction = c.callsPerInstruction := by
    rw [hb]
    rfl
  have hcalls := calls_finish hb
  have hlength : b.calls.length = (e :: es).length * c.callsPerInstruction := by
    rw [hcalls, length_listing]
  have hlimit : b.calls.length ≤ c.config.maxCalls := by
    rw [hb]
    exact Array.length_toList.trans_le hwithin.calls
  obtain ⟨hranges, hfirst, hcases, hsecond⟩ := h.ranges_finish hphysPc hb
  exact
    { nonempty := List.cons_ne_nil _ _
      bounds := fun n hn => by
        obtain ⟨e', he', rfl⟩ := List.mem_map.1 hn
        have hdecoded := h.decoded e' he'
        exact ⟨Encoding.length_pos hdecoded, Encoding.length_le hdecoded⟩
      instructions := by rw [hinstructions, List.length_map]
      instructions_le := by
        -- An instruction takes a byte and a call at least, so both caps bound their number.
        rw [List.length_map, Nat.le_min]
        refine ⟨?_, hle.trans hcaps⟩
        rw [hlength] at hlimit
        exact (Nat.le_mul_of_pos_right _ c.callsPerInstruction_pos).trans hlimit
      calls := by rw [hlength, hinstructions, hcount]
      calls_le := hlimit
      call := fun k call hcall => by
        rw [hcalls] at hcall
        obtain ⟨e', he', hlen, hoffset⟩ := h.getElem?_listing hcall
        rw [hcount, List.getElem?_map, he', sum_take_lengths]
        exact ⟨congrArg some hlen.symm, hoffset.trans (Nat.zero_add _)⟩
      size := hsize
      size_le := by
        rw [hsize]
        exact hcaps
      ranges := by rw [hsize, hranges]
      first := hfirst
      length_ranges := by rwa [straddles_finish hstart hb]
      second := hsecond }

end CompileContext

open CompileContext

variable {s : FetchStream}

/-- **Compiling makes well-formed blocks only**, whatever processor, memory and fetch stream it is
    given, and never takes a slice out of range, a negative difference or more rounds than the caps
    allow instructions. -/
theorem compileBlock_wellFormed (cpu : Cpu) (mem : M) (target : CpuTarget) (lock : Bool)
    (config : Config) (hconfig : config.validate = .ok ()) (hs : s.Reachable) :
    compileBlock? cpu mem s (.ofCpu cpu target lock) config =
        some (compileBlock cpu mem s (.ofCpu cpu target lock) config) ∧
      ∀ b s', compileBlock cpu mem s (.ofCpu cpu target lock) config = (.ok b, s') →
        ∃ lengths, b.WellFormed config lengths := by
  have hwidth := ModeFlags.codeWidth_ofCpu cpu target lock
  obtain ⟨hchecked, hblock⟩ := compileBlock_succeeds mem hconfig hwidth hs.wellFormed
  refine ⟨hchecked, fun b s' h => ?_⟩
  rw [h] at hblock
  obtain ⟨physPc, e, es, hphysPc, hsequence, hwithin, hb⟩ := hblock b rfl
  exact ⟨_, hsequence.wellFormed hconfig hwithin hphysPc (start_eq hwidth) hb⟩

/-- An exclusive-or of AX with itself and a halt in real mode, as four calls. -/
theorem compileBlock_wellFormed_realMode :
    Config.validate {} = .ok () ∧ FetchStream.Reachable {} ∧
      ∃ b s', compileBlock .realMode ((FlatMemory.zeros 64).load 0 [0x31, 0xC0, 0xF4]) {}
          (.ofCpu .realMode .current false) {} = (.ok b, s') ∧
        b.calls.map Call.handler = [.checkLimit, .aluRegReg, .checkLimit, .hlt] ∧
        ∃ lengths, b.WellFormed {} lengths := by
  have hcalls : (compileBlock .realMode ((FlatMemory.zeros 64).load 0 [0x31, 0xC0, 0xF4]) {}
      (.ofCpu .realMode .current false) {}).1.toOption.map (·.calls.map Call.handler) =
        some [.checkLimit, .aluRegReg, .checkLimit, .hlt] := by
    decide +kernel
  obtain ⟨-, hwell⟩ := compileBlock_wellFormed .realMode
    ((FlatMemory.zeros 64).load 0 [0x31, 0xC0, 0xF4]) .current false {} rfl .new
  rcases hcompile : compileBlock .realMode ((FlatMemory.zeros 64).load 0 [0x31, 0xC0, 0xF4]) {}
      (.ofCpu .realMode .current false) {} with ⟨x | b, s'⟩
  · rw [hcompile] at hcalls
    cases hcalls
  · rw [hcompile] at hcalls
    exact ⟨rfl, .new, b, s', rfl, Option.some.inj hcalls, hwell b s' hcompile⟩

end X86Replay

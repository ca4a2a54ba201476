import X86Replay.Proofs.Fetchable
import X86Replay.Proofs.Replaying

/-!
# Code above the code limit

The code limit is checked in two places: by a step, for the instruction that it has decoded, and by
the calls of a block, before each encoding. Both fault on an encoding above the limit, from whatever
memory it is fetched, but for two gaps.

* `Cpu.ExceedsLimit`: a byte at CS:RIP lies above the code limit.
* `step_of_exceedsLimit`: a step raises a protection fault, unless the encoding is invalid.
* `replay_of_exceedsLimit`: a block that checks the limit raises a protection fault.
* `replay_of_flat`: a block for flat segments does not check it, and runs an instruction that
  reaches past the first 4 GiB.
* `exceedsLimit_step_replay`: the two side by side.
* `exceedsLimit_not_enforced`: both gaps.
-/

namespace X86Replay

open CompileContext

variable {M : Type} [GuestMemory M]

/-! ## Bytes above the limit -/

/-- The bytes of an encoding that have to lie inside the code segment: those of an instruction, and
    the first one if it cannot be decoded. -/
def limitedLength : Except DecodeError Instruction → Nat
  | .ok i => i.length.toNat
  | .error _ => 1

/-- A byte of the encoding at CS:RIP, which begins the given bytes, lies above the code limit. -/
def Cpu.ExceedsLimit (cpu : Cpu) (bytes : List UInt8) : Prop :=
  ∃ k < limitedLength (decode cpu.codeWidth bytes),
    (cpu.seg .cs).limit.toNat < cpu.rip.toNat + k

/-- A block takes at least these bytes of an encoding. -/
theorem limitedLength_le (e : Encoding) : limitedLength e.decoded ≤ e.length := by
  unfold limitedLength Encoding.length Encoding.knownLength
  cases e.decoded with
  | ok i => exact Nat.le_refl _
  | error x =>
    cases x with
    | tooLong => decide
    | unexpectedEnd | invalid => exact Nat.le_refl _

namespace Cpu

variable {cpu : Cpu} {bytes : List UInt8} {n : Nat}

/-- Outside 64-bit code the instruction pointer has 32 bits. -/
theorem toNat_rip_lt (h64 : cpu.is64Bit = false) (hrip : cpu.rip ≤ cpu.ripMask) :
    cpu.rip.toNat < 2 ^ 32 := by
  have hmask : cpu.ripMask.toNat < 2 ^ 32 := by
    unfold ripMask
    cases hwidth : cpu.codeWidth with
    | bits64 =>
      rw [is64Bit, hwidth] at h64
      cases h64
    | bits16 | bits32 => decide
  exact (UInt64.le_iff_toNat_le.1 hrip).trans_lt hmask

/-- The check of `n` bytes is about the last one. -/
theorem codeInLimit_iff (hrip : cpu.rip.toNat < 2 ^ 32) (hpos : 0 < n)
    (hn : n ≤ maxInstructionLength) :
    cpu.codeInLimit n.toUInt64 ↔ cpu.rip.toNat + (n - 1) ≤ (cpu.seg .cs).limit.toNat := by
  unfold maxInstructionLength at hn
  have hn' : n.toUInt64.toNat = n := toNat_toUInt64 (by omega)
  have hone : (1 : UInt64) ≤ n.toUInt64 := by
    rw [UInt64.le_iff_toNat_le, hn']
    exact hpos
  have hlast : (cpu.rip + (n.toUInt64 - 1)).toNat = cpu.rip.toNat + (n - 1) := by
    rw [UInt64.toNat_add, UInt64.toNat_sub_of_le _ _ hone, hn', UInt64.toNat_one]
    omega
  rw [codeInLimit, decide_eq_true_eq, UInt64.le_iff_toNat_le, hlast, UInt32.toNat_toUInt64]

/-- The check fails for an encoding that exceeds the limit. -/
theorem ExceedsLimit.not_codeInLimit (h : cpu.ExceedsLimit bytes) (hrip : cpu.rip.toNat < 2 ^ 32)
    (hle : limitedLength (decode cpu.codeWidth bytes) ≤ n) (hn : n ≤ maxInstructionLength) :
    cpu.codeInLimit n.toUInt64 = false := by
  obtain ⟨k, hk, hlimit⟩ := h
  rw [← Bool.not_eq_true, codeInLimit_iff hrip (by omega) hn]
  omega

end Cpu

/-! ## Steps -/

/-- The exception that a step raises for an encoding above the limit: it decodes before it checks
    the limit, so an invalid encoding is found first. -/
def exceptionAboveLimit : Except DecodeError Instruction → Exception
  | .error .invalid => .invalidOpcode
  | _ => .generalProtection 0

/-- **A step faults on an encoding above the limit**, but not with a protection fault if the
    encoding is invalid. -/
theorem step_of_exceedsLimit {m : Machine M} {bytes : List UInt8} (h64 : m.cpu.is64Bit = false)
    (hrip : m.cpu.rip ≤ m.cpu.ripMask) (hfetch : Fetchable m.cpu m.mem bytes)
    (hlimit : m.cpu.ExceedsLimit bytes) :
    Exec.step m = (.error (exceptionAboveLimit (decode m.cpu.codeWidth bytes)), m) := by
  have hinstruction := hfetch.fetchInstruction_eq
  unfold decodeOrFault at hinstruction
  -- Only an instruction that has been decoded gets as far as the check.
  cases hdecode : decode m.cpu.codeWidth bytes with
  | ok i =>
    rw [hdecode] at hinstruction
    obtain ⟨-, hle, -⟩ := length_bounds hdecode
    have hstep : i.step = i.length.toNat.toUInt64 := by
      rw [← UInt64.toNat_inj, toNat_toUInt64 (by unfold maxInstructionLength at hle; omega)]
      exact UInt8.toNat_toUInt64 i.length
    have hbeyond := hlimit.not_codeInLimit (Cpu.toNat_rip_lt h64 hrip) (n := i.length.toNat)
      (by rw [hdecode]; exact Nat.le_refl _) hle
    rw [Exec.step_of_fetch hinstruction, h64, hstep, hbeyond]
    rfl
  | error x =>
    rw [hdecode] at hinstruction
    unfold Exec.step
    rw [Exec.bind_apply, Exec.check_apply, hinstruction]
    cases x with
    | unexpectedEnd => exact absurd hdecode hfetch.not_unexpectedEnd
    | invalid | tooLong => rfl

/-! ## Blocks -/

section Block

variable {m : Machine M} {c : CompileContext} {b : Block} {page : UInt64} {e : Encoding}
  {es : List Encoding}

/-- **A block that checks the limit raises a protection fault** on its first encoding, before it has
    changed anything. -/
theorem replay_of_exceedsLimit (hrip : m.cpu.rip.toNat < 2 ^ 32)
    (hlimit : m.cpu.ExceedsLimit e.bytes) (hwidth : c.width = m.cpu.codeWidth)
    (hb : c.Makes m.mem page e es b) (hchecks : c.flags.needsLimitChecks = true) :
    b.replay m = (.error ⟨.generalProtection 0, c.start, e.length.toUInt8, 0⟩, m) := by
  have hdecoded := hb.chain.2.1.decoded
  have hle := Encoding.length_le hdecoded
  -- The check is made for all bytes that the block takes, which may be more than have to be inside.
  have hbeyond : m.cpu.codeInLimit e.length.toUInt64 = false := by
    refine hlimit.not_codeInLimit hrip ?_ hle
    rw [← hwidth, ← hdecoded]
    exact limitedLength_le e
  have hzero : c.start + (0 : Nat).toUInt16.toUInt64 = c.start := UInt64.add_zero _
  rw [Block.replay, hb.calls, listing, callsOf, if_pos hchecks, List.cons_append, List.cons_append,
    replayCalls_limitCheck (Encoding.length_pos hdecoded) hle (Encoding.offset_toCall e 0), hbeyond,
    hb.pc, hzero]
  rfl

/-- A block whose first instruction ends on the next page has no other one. -/
theorem eq_nil_of_crosses {i : Instruction} (hb : c.Makes m.mem page e es b)
    (hi : e.decoded = .ok i) (hend : 4096 < c.place 0 + i.length.toNat) : es = [] := by
  by_contra hne
  obtain ⟨⟨hplace, -⟩, he, hgoes, -⟩ := hb.chain
  have hcrossing := (hgoes hne).crossing
  have hbytes := he.shapedAt.length_le_bytes hplace
  rw [Encoding.length_ok hi] at hbytes
  -- An encoding that has been read from the first page alone ends there.
  cases he with
  | near hlength =>
    rw [hlength] at hbytes
    omega
  | far => cases hcrossing

/-- **A block that does not check the limit runs the instruction**, here one that reaches the next
    page. -/
theorem replay_of_unchecked {i : Instruction} (hwidth : c.width = m.cpu.codeWidth)
    (hb : c.Makes m.mem page e es b) (hi : e.decoded = .ok i)
    (hend : 4096 < c.place 0 + i.length.toNat) (hchecks : c.flags.needsLimitChecks = false) :
    b.replay m = b.afterInstruction 0 i.length [] 0 m.log.size (Exec.execute i m) := by
  obtain rfl := eq_nil_of_crosses hb hi hend
  have he := hb.chain.2.1
  have hdecoded := he.decoded
  have hlength := Encoding.length_toCall hdecoded (he.shapedAt.length_le_bytes hb.chain.1.1) 0
  have hi' : e.length.toUInt8 = i.length := by
    rw [← UInt8.toNat_inj, toNat_toUInt8 (Encoding.length_le hdecoded), Encoding.length_ok hi]
  rw [Block.replay, hb.calls, listing, listing, callsOf, hchecks, if_neg Bool.false_ne_true,
    List.append_nil, replayCalls_last, Encoding.offset_toCall, hlength, hi',
    Encoding.run_toCall_ok hdecoded hi hwidth.symm]
  · rfl
  · rintro next ⟨⟩

end Block

/-! ## Flat segments -/

/-- In a segment that covers the first 4 GiB, only an instruction that reaches past them exceeds the
    limit. -/
theorem Cpu.ExceedsLimit.crosses {cpu : Cpu} {bytes : List UInt8} (h : cpu.ExceedsLimit bytes)
    (hrip : cpu.rip.toNat < 2 ^ 32) (hlimit : (cpu.seg .cs).limit = 0xFFFFFFFF) :
    ∃ i, decode cpu.codeWidth bytes = .ok i ∧ 4096 < cpu.rip.toNat % 4096 + i.length.toNat := by
  obtain ⟨k, hk, habove⟩ := h
  have htop : (0xFFFFFFFF : UInt32).toNat = 2 ^ 32 - 1 := rfl
  rw [hlimit, htop] at habove
  unfold limitedLength at hk
  cases hdecode : decode cpu.codeWidth bytes with
  | ok i =>
    rw [hdecode] at hk
    exact ⟨i, rfl, by dsimp only at hk; omega⟩
  | error x =>
    rw [hdecode] at hk
    dsimp only at hk
    omega

/-- **A block for flat segments runs an instruction that reaches past the limit.** -/
theorem replay_of_flat {m : Machine M} {b : Block} {page : UInt64} {e : Encoding}
    {es : List Encoding} {target : CpuTarget} {lock : Bool} {config : Config}
    (h64 : m.cpu.is64Bit = false) (hrip : m.cpu.rip ≤ m.cpu.ripMask)
    (hlimit : m.cpu.ExceedsLimit e.bytes)
    (hb : Makes ⟨m.cpu, .ofCpu m.cpu target lock, config⟩ m.mem page e es b)
    (hchecks : (ModeFlags.ofCpu m.cpu target lock).needsLimitChecks = false) :
    ∃ i, decode m.cpu.codeWidth e.bytes = .ok i ∧
      b.replay m = b.afterInstruction 0 i.length [] 0 m.log.size (Exec.execute i m) := by
  have hwidth : width ⟨m.cpu, .ofCpu m.cpu target lock, config⟩ = m.cpu.codeWidth :=
    ModeFlags.codeWidth_ofCpu m.cpu target lock
  obtain h64' | ⟨hbase, hcovers⟩ := ModeFlags.unlimited_ofCpu m.cpu target lock hchecks
  · rw [h64] at h64'
    cases h64'
  · obtain ⟨i, hi, hend⟩ := hlimit.crosses (Cpu.toNat_rip_lt h64 hrip) hcovers
    have hdecoded : e.decoded = .ok i := by rw [hb.chain.2.1.decoded, hwidth, hi]
    refine ⟨i, hi, replay_of_unchecked hwidth hb hdecoded ?_ hchecks⟩
    have hstart : start ⟨m.cpu, .ofCpu m.cpu target lock, config⟩ = m.cpu.rip := by
      rw [start, hwidth]
      exact Cpu.linearIp_of_base_zero hbase hrip
    rwa [place, hstart, Nat.add_zero]

/-! ## Both paths -/

/-- The limit is checked in all code but 64-bit code and 32-bit code with flat segments. -/
theorem needsLimitChecks_ofCpu {cpu : Cpu} (h64 : cpu.is64Bit = false) (target : CpuTarget)
    (lock : Bool) :
    (ModeFlags.ofCpu cpu target lock).needsLimitChecks = false ↔
      cpu.codeWidth = .bits32 ∧ ModeFlags.hasFlatSegments cpu = true := by
  rw [ModeFlags.needsLimitChecks, ModeFlags.isFlat_ofCpu, h64]
  simp

/-- **Code above the code limit.** If a byte of the encoding at CS:RIP lies above the limit, for an
    encoding that cannot be decoded its first one, a step and the block compiled there both raise a
    protection fault on it and change nothing, with two exceptions: a step raises an invalid opcode
    exception for an invalid encoding, and a block for flat segments runs the instruction. -/
theorem exceedsLimit_step_replay {m : Machine M} {s : FetchStream} {bytes : List UInt8}
    (target : CpuTarget) (lock : Bool) (config : Config) (h64 : m.cpu.is64Bit = false)
    (hrip : m.cpu.rip ≤ m.cpu.ripMask) (hs : s.Current m.mem) (hfetch : Fetchable m.cpu m.mem bytes)
    (hlimit : m.cpu.ExceedsLimit bytes) :
    Exec.step m = (.error (exceptionAboveLimit (decode m.cpu.codeWidth bytes)), m) ∧
      ∃ b s', compileBlock m.cpu m.mem s (.ofCpu m.cpu target lock) config = (.ok b, s') ∧
        if m.cpu.codeWidth = .bits32 ∧ ModeFlags.hasFlatSegments m.cpu then
          ∃ i, decode m.cpu.codeWidth bytes = .ok i ∧
            b.replay m = b.afterInstruction 0 i.length [] 0 m.log.size (Exec.execute i m)
        else
          ∃ length, b.replay m = (.error ⟨.generalProtection 0, m.cpu.linearPc, length, 0⟩, m) := by
  refine ⟨step_of_exceedsLimit h64 hrip hfetch hlimit, ?_⟩
  have hwidth := ModeFlags.codeWidth_ofCpu m.cpu target lock
  obtain ⟨b, s', page, e, es, hok, hmakes, rfl⟩ := hfetch.exists_makes config hwidth hs
  refine ⟨b, s', hok, ?_⟩
  split_ifs with hflat
  · exact replay_of_flat h64 hrip hlimit hmakes ((needsLimitChecks_ofCpu h64 target lock).2 hflat)
  · have hchecks : (ModeFlags.ofCpu m.cpu target lock).needsLimitChecks = true := by
      rwa [← needsLimitChecks_ofCpu h64 target lock, Bool.not_eq_false] at hflat
    have hstart : start ⟨m.cpu, .ofCpu m.cpu target lock, config⟩ = m.cpu.linearPc :=
      start_eq hwidth
    refine ⟨e.length.toUInt8, ?_⟩
    rw [← hstart]
    exact replay_of_exceedsLimit (Cpu.toNat_rip_lt h64 hrip) hlimit hwidth hmakes hchecks

/-- Real mode with a code limit. -/
def Cpu.limitedTo (limit : UInt32) (rip : UInt64) : Cpu :=
  { realMode with
    rip, segments := realMode.segments.set .cs { SegmentRegister.realCode 0 with limit } }

/-- The same for zero bytes in real mode, of which the second one lies above the limit. -/
theorem exceedsLimit_step_replay_zeros :
    Exec.step ⟨.limitedTo 0x10 0x10, FlatMemory.zeros 64, #[]⟩ =
        (.error (.generalProtection 0), ⟨.limitedTo 0x10 0x10, FlatMemory.zeros 64, #[]⟩) ∧
      ∃ b s' length, compileBlock (.limitedTo 0x10 0x10) (FlatMemory.zeros 64) {}
          (.ofCpu (.limitedTo 0x10 0x10) .current false) {} = (.ok b, s') ∧
        b.replay ⟨.limitedTo 0x10 0x10, FlatMemory.zeros 64, #[]⟩ =
          (.error ⟨.generalProtection 0, 0x10, length, 0⟩,
            ⟨.limitedTo 0x10 0x10, FlatMemory.zeros 64, #[]⟩) := by
  have hnear : NearCode (.limitedTo 0x10 0x10) (FlatMemory.zeros 64) 0 (List.replicate 15 0) :=
    nearCode_cells rfl rfl (by decide) rfl
  have hfetch : Fetchable (.limitedTo 0x10 0x10) (FlatMemory.zeros 64) (List.replicate 15 0) :=
    .near hnear (by decide)
  obtain ⟨hstep, b, s', hok, hreplay⟩ := exceedsLimit_step_replay
    (m := ⟨.limitedTo 0x10 0x10, FlatMemory.zeros 64, #[]⟩) .current false {} (by decide)
    (by decide) (FetchStream.current_empty _) hfetch ⟨1, by decide, by decide⟩
  rw [if_neg (by decide)] at hreplay
  obtain ⟨length, hreplay⟩ := hreplay
  exact ⟨hstep, b, s', length, hok, hreplay⟩

/-- An invalid encoding at address one. -/
def invalidCode : FlatMemory :=
  (FlatMemory.zeros 64).load 1 [0x0F, 0x04]

/-- An exclusive-or of EAX with itself that begins at the last linear address below 4 GiB, and a
    page behind that address for its second byte. -/
def wrappingCode : RemappedMemory where
  flat := ((FlatMemory.zeros 4096).load 0xFFF [0x31]).load 0 [0xC0]
  table := [(0xFFFFF000, 0), (0x100000000, 0)]

/-- Flat 32-bit code at the last address below 4 GiB. -/
def Cpu.lastOfFlat32 : Cpu :=
  { flat32 with rip := 0xFFFFFFFF }

theorem fetchable_invalidCode :
    Fetchable (.limitedTo 0 1) invalidCode (0x0F :: 0x04 :: List.replicate 13 0) := by
  have hnear : NearCode (.limitedTo 0 1) invalidCode 0 (0x0F :: 0x04 :: List.replicate 13 0) :=
    nearCode_cells rfl rfl (by decide) (by decide)
  exact .near hnear (by decide)

theorem fetchable_wrappingCode :
    Fetchable .lastOfFlat32 wrappingCode ([0x31] ++ 0xC0 :: List.replicate 13 0) := by
  have hnear : NearCode .lastOfFlat32 wrappingCode 0 [0x31] :=
    nearCode_cells rfl rfl (by decide +kernel) (by decide +kernel)
  have hfar : PageShows wrappingCode 0 0 (0xC0 :: List.replicate 13 0) :=
    pageShows_cells rfl (by decide) (by decide) (by decide +kernel) (by decide +kernel)
  exact .far hnear (by decide) rfl rfl hfar

theorem exceedsLimit_invalidCode :
    (Cpu.limitedTo 0 1).ExceedsLimit (0x0F :: 0x04 :: List.replicate 13 0) :=
  ⟨0, by decide, by decide⟩

theorem exceedsLimit_wrappingCode :
    Cpu.lastOfFlat32.ExceedsLimit ([0x31] ++ 0xC0 :: List.replicate 13 0) :=
  ⟨1, by decide, by decide⟩

/-- The block of the exclusive-or completes it. -/
theorem replay_wrappingCode :
    ∃ b s' m', compileBlock .lastOfFlat32 wrappingCode {}
        (.ofCpu .lastOfFlat32 .current false) {} = (.ok b, s') ∧
      b.replay ⟨.lastOfFlat32, wrappingCode, #[]⟩ = (.ok ⟨.completed, 1⟩, m') := by
  obtain ⟨b, s', page, e, es, hok, hmakes, hbytes⟩ := fetchable_wrappingCode.exists_makes {}
    (ModeFlags.codeWidth_ofCpu _ .current false) (FetchStream.current_empty _)
  obtain ⟨i, hi, hreplay⟩ := replay_of_flat (m := ⟨.lastOfFlat32, wrappingCode, #[]⟩) (by decide)
    (by decide) (hbytes ▸ exceedsLimit_wrappingCode) hmakes (by decide)
  rw [hbytes] at hi
  have hexecute : (Exec.executeBytes ([0x31] ++ 0xC0 :: List.replicate 13 0)
      ⟨.lastOfFlat32, wrappingCode, #[]⟩).1.toOption = some .proceed := by
    decide
  rw [executeBytes_ok hi] at hexecute
  rcases hrun : Exec.execute i ⟨.lastOfFlat32, wrappingCode, #[]⟩ with ⟨x | o, m'⟩
  · rw [hrun] at hexecute
    cases hexecute
  · rw [hrun] at hexecute hreplay
    cases hexecute
    exact ⟨b, s', m', hok, hreplay⟩

/-- **The limit is not enforced everywhere.** A step raises an invalid opcode exception for an
    invalid encoding above the limit, and the block for flat segments completes an instruction that
    reaches past the limit, for which a step raises a protection fault. -/
theorem exceedsLimit_not_enforced :
    ((Cpu.limitedTo 0 1).is64Bit = false ∧ (Cpu.limitedTo 0 1).rip ≤ (Cpu.limitedTo 0 1).ripMask ∧
      ∃ bytes, Fetchable (.limitedTo 0 1) invalidCode bytes ∧
        (Cpu.limitedTo 0 1).ExceedsLimit bytes ∧
        Exec.step ⟨.limitedTo 0 1, invalidCode, #[]⟩ =
          (.error .invalidOpcode, ⟨.limitedTo 0 1, invalidCode, #[]⟩)) ∧
    (Cpu.lastOfFlat32.is64Bit = false ∧ Cpu.lastOfFlat32.rip ≤ Cpu.lastOfFlat32.ripMask ∧
      ∃ bytes, Fetchable .lastOfFlat32 wrappingCode bytes ∧ Cpu.lastOfFlat32.ExceedsLimit bytes ∧
        Exec.step ⟨.lastOfFlat32, wrappingCode, #[]⟩ =
          (.error (.generalProtection 0), ⟨.lastOfFlat32, wrappingCode, #[]⟩) ∧
        ∃ b s' m', compileBlock .lastOfFlat32 wrappingCode {}
            (.ofCpu .lastOfFlat32 .current false) {} = (.ok b, s') ∧
          b.replay ⟨.lastOfFlat32, wrappingCode, #[]⟩ = (.ok ⟨.completed, 1⟩, m')) := by
  refine ⟨⟨by decide, by decide, _, fetchable_invalidCode, exceedsLimit_invalidCode, ?_⟩,
    by decide, by decide, _, fetchable_wrappingCode, exceedsLimit_wrappingCode, ?_,
    replay_wrappingCode⟩
  · have hinvalid : exceptionAboveLimit (decode (Cpu.limitedTo 0 1).codeWidth
        (0x0F :: 0x04 :: List.replicate 13 0)) = .invalidOpcode := by
      decide
    have hstep := step_of_exceedsLimit (m := ⟨.limitedTo 0 1, invalidCode, #[]⟩) (by decide)
      (by decide) fetchable_invalidCode exceedsLimit_invalidCode
    refine hstep.trans ?_
    rw [hinvalid]
  · have hvalid : exceptionAboveLimit (decode Cpu.lastOfFlat32.codeWidth
        ([0x31] ++ 0xC0 :: List.replicate 13 0)) = .generalProtection 0 := by
      decide
    have hstep := step_of_exceedsLimit (m := ⟨.lastOfFlat32, wrappingCode, #[]⟩) (by decide)
      (by decide) fetchable_wrappingCode exceedsLimit_wrappingCode
    refine hstep.trans ?_
    rw [hvalid]

end X86Replay

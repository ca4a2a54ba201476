import X86Replay.Proofs.CodeLimit

/-!
# Encodings that cannot be decoded

A block takes an encoding that cannot be decoded over as a deferred call, which carries fewer bytes
than were read: a single one, unless the encoding is too long. Decoding these again could go another
way than decoding all of them.

* `Encoding.length_error`: the bytes that a block takes of such an encoding.
* `replayCalls_callsOf_error`: its calls raise the exception of the decoder, unless it lies above the
  code limit.
* `step_of_undecodable`: so does a step.
* `undecodable_faults`: the deferred call, the step and the block side by side.
-/

namespace X86Replay

open CompileContext

variable {M : Type} [GuestMemory M]

/-- The number of bytes that a block takes of an encoding that cannot be decoded. -/
def DecodeError.taken (x : DecodeError) : Nat :=
  if x = .tooLong then maxInstructionLength else 1

theorem Encoding.length_error {e : Encoding} {x : DecodeError} (h : e.decoded = .error x) :
    e.length = x.taken := by
  unfold length knownLength
  rw [h]
  cases x <;> rfl

/-- An encoding past the length limit is a protection fault, any other an invalid opcode. -/
theorem DecodeError.exception_eq (x : DecodeError) :
    x.exception = if x = .tooLong then .generalProtection 0 else .invalidOpcode := by
  cases x <;> rfl

/-! ## Steps -/

/-- A step whose bytes cannot be decoded raises their exception and changes nothing. -/
theorem step_of_undecodable {m : Machine M} {bytes : List UInt8} {x : DecodeError}
    (hfetch : Fetchable m.cpu m.mem bytes) (h : decode m.cpu.codeWidth bytes = .error x) :
    Exec.step m = (.error x.exception, m) := by
  have hfault : fetchInstruction m.cpu m.mem m.cpu.linearPc = .error x.exception := by
    rw [hfetch.fetchInstruction_eq, decodeOrFault, h]
    rfl
  unfold Exec.step
  rw [Exec.bind_apply, Exec.check_apply, hfault]

/-! ## Blocks -/

section Block

variable {m : Machine M} {c : CompileContext} {b : Block} {page : UInt64} {e : Encoding}
  {es : List Encoding} {x : DecodeError}

/-- The calls of an encoding that cannot be decoded raise its exception, if the bytes that the block
    takes lie inside the code segment or are not checked. -/
theorem replayCalls_callsOf_error (hdecoded : e.decoded = decode c.width e.bytes)
    (hx : e.decoded = .error x) (hwidth : m.cpu.codeWidth = c.width)
    (hlimit : c.flags.needsLimitChecks = true → m.cpu.codeInLimit e.length.toUInt64 = true)
    (hbytes : e.length ≤ e.bytes.length) (o : Nat) (rest : List Call) (n : Nat) :
    b.replayCalls (c.callsOf o e ++ rest) n m =
      (.error ⟨x.exception, b.pc + o.toUInt16.toUInt64, e.length.toUInt8, n⟩, m) := by
  have hrun : b.replayCalls (e.toCall o :: rest) n m =
      (.error ⟨x.exception, b.pc + o.toUInt16.toUInt64, e.length.toUInt8, n⟩, m) := by
    rw [Block.replayCalls, Encoding.run_toCall_error hdecoded hx hwidth, Encoding.offset_toCall,
      Encoding.length_toCall hdecoded hbytes]
  unfold callsOf
  split_ifs with hchecks
  · rw [List.cons_append, List.cons_append, List.nil_append,
      replayCalls_limitCheck (Encoding.length_pos hdecoded) (Encoding.length_le hdecoded)
        (Encoding.offset_toCall e o), if_pos (hlimit hchecks), hrun]
  · rw [List.cons_append, List.nil_append, hrun]

/-- An encoding that cannot be decoded is the last one of its block. -/
theorem CompileContext.Chain.eq_nil_of_error {mem : M} {o : Nat}
    (h : c.Chain mem page o (e :: es)) (hx : e.decoded = .error x) : es = [] := by
  by_contra hne
  obtain ⟨i, hi, -⟩ := (h.2.2.1 hne).decoded
  rw [hx] at hi
  cases hi

/-- **A block that starts with an encoding that cannot be decoded raises its exception** and changes
    nothing. -/
theorem replay_of_undecodable (hb : c.Makes m.mem page e es b) (hx : e.decoded = .error x)
    (hwidth : m.cpu.codeWidth = c.width)
    (hlimit : c.flags.needsLimitChecks = true → m.cpu.codeInLimit e.length.toUInt64 = true) :
    b.calls = c.callsOf 0 e ∧
      b.replay m = (.error ⟨x.exception, c.start, e.length.toUInt8, 0⟩, m) := by
  obtain rfl := hb.chain.eq_nil_of_error hx
  have he := hb.chain.2.1
  have hcalls : b.calls = c.callsOf 0 e := by
    rw [hb.calls, listing, listing, List.append_nil]
  have hzero : b.pc + (0 : Nat).toUInt16.toUInt64 = c.start := by
    rw [hb.pc]
    exact UInt64.add_zero _
  refine ⟨hcalls, ?_⟩
  rw [Block.replay, hcalls, ← List.append_nil (c.callsOf 0 e),
    replayCalls_callsOf_error he.decoded hx hwidth hlimit
      (he.shapedAt.length_le_bytes hb.chain.1.1), hzero]

end Block

/-! ## Deferred, stepped and replayed -/

/-- **Undecodable bytes fault the same way on every path.** Of an encoding that cannot be decoded a
    block takes fifteen bytes if it is too long and one otherwise. Wherever the deferred call with
    these bytes runs, it raises a protection fault in the first case and an invalid opcode exception
    in the second, and changes nothing. If the encoding is at CS:RIP, so does a step, and so does the
    block that is compiled there, unless it checks the code limit and the bytes lie above it. -/
theorem undecodable_faults {width : CodeWidth} {bytes : List UInt8} {x : DecodeError}
    (h : decode width bytes = .error x) (crossing : Option (UInt64 × Nat)) (o : Nat) :
    let e : Encoding := ⟨bytes, decode width bytes, crossing⟩
    x.exception = (if x = .tooLong then .generalProtection 0 else .invalidOpcode) ∧
      (e.toCall o).handler = .deferred ∧
      (e.toCall o).raw = bytes.take (if x = .tooLong then 15 else 1) ∧
      ∀ m : Machine M, m.cpu.codeWidth = width →
        (e.toCall o).run m = (.error x.exception, m) ∧
        (Fetchable m.cpu m.mem bytes →
          Exec.step m = (.error x.exception, m) ∧
          ∀ (s : FetchStream) (flags : ModeFlags) (config : Config), flags.codeWidth = width →
            s.Current m.mem →
            (flags.needsLimitChecks = true →
              m.cpu.codeInLimit (if x = .tooLong then 15 else 1) = true) →
            ∃ b s' e', compileBlock m.cpu m.mem s flags config = (.ok b, s') ∧
              e'.bytes = bytes ∧ e'.decoded = decode width bytes ∧
              b.calls = callsOf ⟨m.cpu, flags, config⟩ 0 e' ∧
              ∃ length, b.replay m =
                (.error ⟨x.exception, m.cpu.linearPc, length, 0⟩, m)) := by
  intro e
  have hx : e.decoded = .error x := h
  have hdecode : e.decoded = decode width e.bytes := rfl
  obtain ⟨hhandler, hraw⟩ := Encoding.toCall_error hdecode hx o
  rw [Encoding.length_error hx] at hraw
  refine ⟨x.exception_eq, hhandler, hraw, fun m hwidth => ?_⟩
  refine ⟨Encoding.run_toCall_error hdecode hx hwidth o, fun hfetch => ?_⟩
  refine ⟨step_of_undecodable hfetch (hwidth ▸ h), fun s flags config hflags hs hlimit => ?_⟩
  rw [← hwidth] at hflags
  obtain ⟨b, s', page, e', es, hok, hmakes, rfl⟩ := hfetch.exists_makes config hflags hs
  have hdecoded : e'.decoded = decode width e'.bytes := by
    rw [hmakes.chain.2.1.decoded, ← hwidth, ← hflags]
    rfl
  have hx' := hdecoded.trans h
  have htaken : e'.length.toUInt64 = if x = .tooLong then 15 else 1 := by
    rw [Encoding.length_error hx']
    cases x <;> rfl
  obtain ⟨hcalls, hreplay⟩ := replay_of_undecodable hmakes hx' hflags.symm fun hchecks =>
    htaken ▸ hlimit hchecks
  have hstart : start ⟨m.cpu, flags, config⟩ = m.cpu.linearPc := start_eq hflags
  rw [hstart] at hreplay
  exact ⟨b, s', e', hok, rfl, hdecoded, hcalls, _, hreplay⟩

/-- Fifteen prefixes at address zero. -/
def prefixesOnly : FlatMemory :=
  (FlatMemory.zeros 64).load 0 (List.replicate 15 0x66)

/-- The same for fifteen prefixes in real mode, which are too long, and for the deferred call of an
    invalid opcode of two bytes, of which a block takes the first one. -/
theorem undecodable_faults_real :
    (Exec.step ⟨.realMode, prefixesOnly, #[]⟩ =
        (.error (.generalProtection 0), ⟨.realMode, prefixesOnly, #[]⟩) ∧
      ∃ b s' length, compileBlock .realMode prefixesOnly {} (.ofCpu .realMode .current false) {} =
          (.ok b, s') ∧
        b.replay ⟨.realMode, prefixesOnly, #[]⟩ =
          (.error ⟨.generalProtection 0, 0, length, 0⟩, ⟨.realMode, prefixesOnly, #[]⟩)) ∧
    ∃ call : Call, call.handler = .deferred ∧ call.raw = [0x0F] ∧
      call.run ⟨.realMode, prefixesOnly, #[]⟩ =
        (.error .invalidOpcode, ⟨.realMode, prefixesOnly, #[]⟩) := by
  have hlong : decode .bits16 (List.replicate 15 0x66) = .error .tooLong := rfl
  have hinvalid : decode .bits16 (0x0F :: 0x04 :: List.replicate 13 0) = .error .invalid := by
    decide
  have hnear : NearCode .realMode prefixesOnly 0 (List.replicate 15 0x66) :=
    nearCode_cells (by decide +kernel) rfl (by decide +kernel) (by decide +kernel)
  have hfetch : Fetchable .realMode prefixesOnly (List.replicate 15 0x66) :=
    .near hnear (by decide)
  obtain ⟨-, -, -, hrun⟩ := undecodable_faults (M := FlatMemory) hlong none 0
  obtain ⟨-, hpaths⟩ := hrun ⟨.realMode, prefixesOnly, #[]⟩ rfl
  obtain ⟨hstep, hblock⟩ := hpaths hfetch
  obtain ⟨b, s', -, hok, -, -, -, length, hreplay⟩ := hblock {} (.ofCpu .realMode .current false) {}
    rfl (FetchStream.current_empty _) fun _ => by decide
  obtain ⟨-, hhandler, hraw, hdeferred⟩ := undecodable_faults (M := FlatMemory) hinvalid none 0
  obtain ⟨hcall, -⟩ := hdeferred ⟨.realMode, prefixesOnly, #[]⟩ rfl
  exact ⟨⟨hstep, b, s', length, hok, hreplay⟩, _, hhandler, hraw, hcall⟩

end X86Replay

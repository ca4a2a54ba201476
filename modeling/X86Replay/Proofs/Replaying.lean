import X86Replay.Block.Replay
import X86Replay.Proofs.FastPath
import X86Replay.Proofs.Mode
import X86Replay.Proofs.Refetching
import X86Replay.Proofs.Stepping

/-!
# Replaying a block is executing its instructions one at a time

* `SingleSteps`: the end of a replay, in terms of instructions executed one at a time.
* `replayCalls_callsOf`: the calls of one instruction do what a step does.
* `replayCalls_listing`: the calls of a chain do what as many steps do, stores into the block
  included.
-/

namespace X86Replay

open CompileContext

variable {M : Type} [GuestMemory M]

/-! ## Calls of one instruction -/

namespace Encoding

variable {e : Encoding} {width : CodeWidth}

/-- The call of an encoding that can be decoded does what its instruction does. -/
theorem run_toCall_ok {i : Instruction} {m : Machine M} (h : e.decoded = decode width e.bytes)
    (hi : e.decoded = .ok i) (hwidth : m.cpu.codeWidth = width) (o : Nat) :
    (e.toCall o).run m = Exec.execute i m := by
  have hdecode := h.symm.trans hi
  have hlength := length_ok hi
  unfold toCall
  rw [hi]
  refine run_toCall ?_ ?_ o
  · rw [hwidth, hlength]
    have htake := decode_take hdecode []
    rwa [List.append_nil] at htake
  · rw [List.length_take, hlength, Nat.min_eq_left (length_bounds hdecode).2.2]

/-- The bytes taken of an encoding that cannot be decoded raise the same exception as all of them. -/
theorem decode_taken_error {x : DecodeError} (h : e.decoded = decode width e.bytes)
    (hx : e.decoded = .error x) :
    ∃ x', decode width (e.bytes.take e.length) = .error x' ∧ x'.exception = x.exception := by
  have hdecode := h.symm.trans hx
  cases x with
  | tooLong =>
    have hlength : e.length = maxInstructionLength := by
      rw [length, knownLength, hx]
      rfl
    rw [hlength]
    exact ⟨_, decode_take_tooLong hdecode, rfl⟩
  | unexpectedEnd | invalid =>
    have hlength : e.length = 1 := by
      rw [length, knownLength, hx]
      rfl
    -- A single byte may also end too early, which is the same exception, but is never too long.
    obtain ⟨x', hx'⟩ := decode_take_error hdecode e.length
    refine ⟨x', hx', ?_⟩
    cases x' with
    | tooLong =>
      have hlong := le_length_of_tooLong hx'
      rw [List.length_take, hlength] at hlong
      unfold maxInstructionLength at hlong
      omega
    | unexpectedEnd | invalid => rfl

/-- The call of an encoding that cannot be decoded raises its exception and changes nothing. -/
theorem run_toCall_error {x : DecodeError} {m : Machine M} (h : e.decoded = decode width e.bytes)
    (hx : e.decoded = .error x) (hwidth : m.cpu.codeWidth = width) (o : Nat) :
    (e.toCall o).run m = (.error x.exception, m) := by
  obtain ⟨x', hx', hexception⟩ := decode_taken_error h hx
  rw [← hwidth] at hx'
  unfold toCall
  rw [hx]
  dsimp only
  rw [run_deferredCall, executeBytes_error hx', hexception]
  rw [List.length_take]
  exact (Nat.min_le_left _ _).trans (length_le h)

end Encoding

/-- The check before an encoding is the one that a step makes. -/
theorem run_limitCheck {e : Encoding} (hpos : 0 < e.length) (hle : e.length ≤ maxInstructionLength)
    (o : Nat) (m : Machine M) :
    (limitCheck o e).run m =
      if m.cpu.codeInLimit e.length.toUInt64 then (.ok .proceed, m)
      else (.error (.generalProtection 0), m) := by
  have hne : e.length.toUInt64 ≠ 0 := by
    intro hzero
    have hnat := toNat_toUInt64 (n := e.length) (by unfold maxInstructionLength at hle; omega)
    rw [hzero, UInt64.toNat_zero] at hnat
    omega
  show Call.runCheckLimit (limitCheck o e) m = _
  unfold Call.runCheckLimit
  rw [Exec.bind_apply, Exec.require_apply]
  rw [show (limitCheck o e).p0 = e.length.toUInt64 from rfl, if_neg hne]
  by_cases h : m.cpu.codeInLimit e.length.toUInt64
  · rw [if_pos h, if_pos h]
    rfl
  · rw [if_neg h, if_neg h]

/-- The code limit does not have to be checked for `n` bytes at an offset of the block. -/
def CompileContext.Unlimited (c : CompileContext) (o n : Nat) : Prop :=
  c.cpu.is64Bit = true ∨
    (c.cpu.seg .cs).base = 0 ∧ (c.cpu.seg .cs).limit = 0xFFFFFFFF ∧
      c.start.toNat + o + n ≤ 2 ^ 32

/-- The processor is about to execute what stands at an offset of the block. The instruction pointer
    of the block may be another one that leads to the same address. -/
structure CompileContext.At (c : CompileContext) (o : Nat) (cpu : Cpu) : Prop where
  mode : c.cpu.SameMode cpu
  inRange : cpu.InRange
  linearPc : cpu.linearPc = c.pcAt o

/-- Where it does not have to be checked, the code limit holds. -/
theorem CompileContext.Unlimited.codeInLimit {c : CompileContext} {o n : Nat} {cpu : Cpu}
    (h : c.Unlimited o n) (hcpu : c.At o cpu) (ho : c.place o < 4096) (hn : 0 < n) :
    (cpu.is64Bit || cpu.codeInLimit n.toUInt64) = true := by
  cases h64 : cpu.is64Bit with
  | true => rfl
  | false =>
    obtain h64' | ⟨hbase, hlimit, hend⟩ := h
    · rw [hcpu.mode.is64Bit_eq, h64'] at h64
      cases h64
    · rw [← hcpu.mode.seg_eq] at hbase hlimit
      have hrip : cpu.rip.toNat = c.start.toNat + o := by
        rw [← Cpu.linearIp_of_base_zero hbase hcpu.inRange, ← Cpu.linearPc, hcpu.linearPc,
          c.toNat_pcAt ho]
      have hn' : n.toUInt64.toNat = n := toNat_toUInt64 (by omega)
      have hone : (1 : UInt64) ≤ n.toUInt64 := by
        rw [UInt64.le_iff_toNat_le, hn']
        exact hn
      rw [Bool.false_or, Cpu.codeInLimit, hlimit, decide_eq_true_eq, UInt64.le_iff_toNat_le,
        UInt64.toNat_add, UInt64.toNat_sub_of_le _ _ hone, hrip, hn']
      show _ ≤ 2 ^ 32 - 1
      rw [UInt64.toNat_one]
      omega

/-- How a replay goes on after the last call of an instruction, before which there were `logged`
    spans in the log. -/
def Block.afterInstruction (b : Block) (offset : UInt16) (length : UInt8) (rest : List Call)
    (n logged : Nat) :
    Except Exception Outcome × Machine M → Except ReplayFault ReplayEnd × Machine M
  | (.error x, m) => (.error ⟨x, b.pc + offset.toUInt64, length, n⟩, m)
  | (.ok .leave, m) => (.ok ⟨.left, n + 1⟩, m)
  | (.ok (.stop s), m) => (.ok ⟨.stop s, if s.retires then n + 1 else n⟩, m)
  | (.ok .proceed, m) =>
    if !rest.isEmpty && b.hitBy m.log logged then (.ok ⟨.selfModified, n + 1⟩, m)
    else b.replayCalls rest (n + 1) m

theorem replayCalls_last {b : Block} {call : Call} {rest : List Call}
    (h : ∀ next ∈ rest.head?, next.offset ≠ call.offset) (n : Nat) (m : Machine M) :
    b.replayCalls (call :: rest) n m =
      b.afterInstruction call.offset call.length rest n m.log.size (call.run m) := by
  have hlast : Block.isLastOfInstruction call rest = true := by
    unfold Block.isLastOfInstruction
    rw [Option.all_eq_true]
    exact fun next hnext => bne_iff_ne.2 (h next hnext)
  rw [Block.replayCalls, hlast]
  rcases call.run m with ⟨x | _ | _ | s, m'⟩ <;> rfl

/-- A check whose instruction follows lets it run, or ends the replay. -/
theorem replayCalls_limitCheck {b : Block} {e : Encoding} (hpos : 0 < e.length)
    (hle : e.length ≤ maxInstructionLength) {o : Nat} {call : Call}
    (hcall : call.offset = o.toUInt16) (rest : List Call) (n : Nat) (m : Machine M) :
    b.replayCalls (limitCheck o e :: call :: rest) n m =
      if m.cpu.codeInLimit e.length.toUInt64 then b.replayCalls (call :: rest) n m
      else (.error ⟨.generalProtection 0, b.pc + o.toUInt16.toUInt64, e.length.toUInt8, n⟩, m) := by
  have hlast : Block.isLastOfInstruction (limitCheck o e) (call :: rest) = false := by
    show (call.offset != o.toUInt16) = false
    rw [hcall, bne_self_eq_false]
  have hhit : b.hitBy m.log m.log.size = false := by
    unfold Block.hitBy
    rw [Array.extract_eq_empty_of_le (by omega), Array.any_empty]
  rw [Block.replayCalls, run_limitCheck hpos hle]
  by_cases h : m.cpu.codeInLimit e.length.toUInt64
  · rw [if_pos h, if_pos h]
    dsimp only
    rw [hlast, hhit, Bool.and_false]
    rfl
  · rw [if_neg h, if_neg h]
    rfl

/-- **The calls of one instruction do what a step does.** -/
theorem replayCalls_callsOf {c : CompileContext} {b : Block} {m : Machine M} {e : Encoding}
    {i : Instruction} {o n : Nat} {rest : List Call} (hdecoded : e.decoded = decode c.width e.bytes)
    (hi : e.decoded = .ok i) (hwidth : m.cpu.codeWidth = c.width)
    (hfetch : fetchInstruction m.cpu m.mem m.cpu.linearPc = .ok i)
    (hlimited : c.flags.needsLimitChecks = true → m.cpu.is64Bit = false)
    (hunlimited : c.flags.needsLimitChecks = false →
      (m.cpu.is64Bit || m.cpu.codeInLimit e.length.toUInt64) = true)
    (hrest : ∀ next ∈ rest.head?, next.offset ≠ o.toUInt16) :
    b.replayCalls (c.callsOf o e ++ rest) n m =
      b.afterInstruction o.toUInt16 i.length rest n m.log.size (Exec.step m) := by
  have hdecode := hdecoded.symm.trans hi
  obtain ⟨hpos, hle, hbytes⟩ := length_bounds hdecode
  have hlength := Encoding.length_ok hi
  rw [← hlength] at hpos hle hbytes
  have hlength' : e.length.toUInt8 = i.length := by
    rw [← UInt8.toNat_inj, toNat_toUInt8 hle, hlength]
  have hstep : i.step = e.length.toUInt64 := by
    rw [← UInt64.toNat_inj, toNat_toUInt64 (by unfold maxInstructionLength at hle; omega), hlength]
    exact UInt8.toNat_toUInt64 i.length
  have hrun : b.replayCalls (e.toCall o :: rest) n m =
      b.afterInstruction o.toUInt16 i.length rest n m.log.size (Exec.execute i m) := by
    rw [replayCalls_last (by rwa [Encoding.offset_toCall]),
      Encoding.run_toCall_ok hdecoded hi hwidth, Encoding.offset_toCall,
      Encoding.length_toCall hdecoded hbytes, hlength']
  rw [Exec.step_of_fetch hfetch, hstep]
  unfold callsOf
  by_cases hchecks : c.flags.needsLimitChecks = true
  · rw [if_pos hchecks, hlimited hchecks, Bool.false_or, List.cons_append, List.cons_append,
      List.nil_append, replayCalls_limitCheck hpos hle (Encoding.offset_toCall e o), hrun, hlength']
    by_cases hlimit : m.cpu.codeInLimit e.length.toUInt64
    · rw [if_pos hlimit, if_pos hlimit]
    · rw [if_neg hlimit, if_neg hlimit]
      rfl
  · rw [if_neg hchecks, if_pos (hunlimited (by simpa using hchecks)), List.cons_append,
      List.nil_append, hrun]

/-! ## Stores into the block -/

/-- Whether new spans in the log meet the code of the block. -/
theorem hitBy_append (b : Block) (log : Array PhysSpan) (new : List PhysSpan) :
    b.hitBy (log ++ new) log.size = new.any fun s => b.meets s.start s.length.toUInt64 := by
  have hsize : (log ++ new).size = log.size + new.length := by
    rw [← Array.length_toList, Array.toList_appendList, List.length_append, Array.length_toList]
  have hextract : (log ++ new).extract log.size (log ++ new).size = new.toArray := by
    rw [← Array.toList_inj, hsize]
    simp
  rw [Block.hitBy, hextract, List.any_toArray]

/-- A step that does not store into the block leaves its code alone. -/
theorem sameCode_step [PhysicalMemory M] {b : Block} {m m' : Machine M} {o : Outcome}
    (hranges : ∀ r ∈ b.ranges, r.start.toNat + r.length.toNat < 2 ^ 64)
    (hstep : Exec.step m = (.ok o, m')) (hhit : b.hitBy m'.log m.log.size = false) :
    SameCode b.ranges m.mem m'.mem := by
  obtain ⟨r, cpu', mem', new, hwrites, hlog⟩ :=
    Exec.conduct_step.transaction.writes m.cpu m.mem
  rw [show m = ⟨m.cpu, m.mem, m.log⟩ from rfl, hlog m.log] at hstep
  cases hstep
  rw [hitBy_append, List.any_eq_false] at hhit
  refine hwrites.frame.1.sameCode hwrites.length_lt hranges fun s hs => ?_
  exact Bool.eq_false_iff.2 (hhit s hs)

/-! ## The calls of a chain -/

/-- The end of a replay that has started from machine `m`, in terms of instructions executed one at
    a time: as many of them as the replay has counted, the last of which has left the block or
    stopped the machine if the replay says so, and one more if it has faulted or has not been
    completed. -/
def SingleSteps (m : Machine M) : Except ReplayFault ReplayEnd × Machine M → Prop
  | (.ok ⟨.completed, n⟩, m') => Proceeds n m m'
  | (.ok ⟨.selfModified, n⟩, m') => Proceeds n m m'
  | (.ok ⟨.left, n⟩, m') =>
    ∃ k m₁, n = k + 1 ∧ Proceeds k m m₁ ∧ Exec.step m₁ = (.ok .leave, m')
  | (.ok ⟨.stop s, n⟩, m') =>
    ∃ k m₁, n = (if s.retires then k + 1 else k) ∧ Proceeds k m m₁ ∧
      Exec.step m₁ = (.ok (.stop s), m')
  | (.error f, m') =>
    ∃ m₁ i, Proceeds f.instructions m m₁ ∧ Exec.step m₁ = (.error f.exception, m') ∧
      f.pc = m'.cpu.linearPc ∧ fetchInstruction m₁.cpu m₁.mem f.pc = .ok i ∧ f.length = i.length

/-- A block that has been compiled from memory in a context. -/
structure CompileContext.Compiled (c : CompileContext) (mem : M) (page : UInt64) (b : Block) :
    Prop where
  width : c.width = c.cpu.codeWidth
  limited : c.flags.needsLimitChecks = true → c.cpu.is64Bit = false
  mapped : mapForFetch mem c.start c.cpu.cpl = .ok page
  pc : b.pc = c.start
  ranges : ∀ r ∈ b.ranges, r.start.toNat + r.length.toNat < 2 ^ 64

theorem head_listing {c : CompileContext} {o : Nat} {es : List Encoding} :
    ∀ call ∈ (c.listing o es).head?, call.offset = o.toUInt16 := by
  intro call hcall
  cases es with
  | nil => cases hcall
  | cons e es =>
    unfold listing callsOf at hcall
    split_ifs at hcall <;> cases hcall
    · rfl
    · exact Encoding.offset_toCall e o

theorem isEmpty_listing {c : CompileContext} {o : Nat} {es : List Encoding} (h : es ≠ []) :
    (c.listing o es).isEmpty = false := by
  cases es with
  | nil => exact absurd rfl h
  | cons e es =>
    unfold listing callsOf
    split_ifs <;> rfl

/-- The calls of an encoding that cannot be decoded fault. -/
theorem replayCalls_undecodable {c : CompileContext} {b : Block} {m : Machine M} {e : Encoding}
    {x : DecodeError} (hdecoded : e.decoded = decode c.width e.bytes) (hx : e.decoded = .error x)
    (hwidth : m.cpu.codeWidth = c.width) (o : Nat) (rest : List Call) (n : Nat) :
    ∃ f m', b.replayCalls (c.callsOf o e ++ rest) n m = (.error f, m') := by
  have hrun : ∃ f m', b.replayCalls (e.toCall o :: rest) n m = (.error f, m') := by
    rw [Block.replayCalls, Encoding.run_toCall_error hdecoded hx hwidth o]
    exact ⟨_, _, rfl⟩
  unfold callsOf
  split_ifs
  · rw [List.cons_append, List.cons_append, List.nil_append,
      replayCalls_limitCheck (Encoding.length_pos hdecoded) (Encoding.length_le hdecoded)
        (Encoding.offset_toCall e o)]
    split_ifs
    · exact hrun
    · exact ⟨_, _, rfl⟩
  · exact hrun

variable [PhysicalMemory M] {c : CompileContext} {mem : M} {page : UInt64} {b : Block}

/-- The linear address of an offset, as it is found from the offset of a call. -/
theorem start_add {o : Nat} (ho : c.place o < 4096) :
    c.start + o.toUInt16.toUInt64 = c.pcAt o := by
  have hoffset : o.toUInt16.toUInt64.toNat = o := by
    rw [UInt16.toNat_toUInt64, toNat_toUInt16 (by unfold place at ho; omega)]
  have htop := (c.pcAt o).toNat_lt
  rw [c.toNat_pcAt ho] at htop
  rw [← UInt64.toNat_inj, c.toNat_pcAt ho, UInt64.toNat_add, hoffset, Nat.mod_eq_of_lt htop]

/-- What is known of the machine when the calls of an encoding are about to run. -/
structure CompileContext.Reached (c : CompileContext) (mem : M) (b : Block) (o : Nat)
    (m : Machine M) : Prop where
  cpu : c.At o m.cpu
  code : SameCode b.ranges mem m.mem

/-- The instruction that is fetched is the one that the calls were made from. -/
theorem fetch_of_reached {m : Machine M} {o : Nat} {e : Encoding} {i : Instruction}
    (hb : c.Compiled mem page b) (hm : c.Reached mem b o m) (ho : c.place o < 4096)
    (he : c.Reads mem page o e) (hi : e.decoded = .ok i)
    (hcovers : ∀ j < e.length, ∃ r ∈ b.ranges, r.Covers (e.address (page.toNat + c.place o) j)) :
    fetchInstruction m.cpu m.mem m.cpu.linearPc = .ok i := by
  rw [hm.cpu.linearPc, fetchInstruction_eq hm.cpu.mode hb.width hb.mapped ho he
    (he.decides_of_ok hi) hm.code hcovers, hi]
  rfl

/-- After an instruction that goes on, without a store into the block, the next one is reached. -/
theorem reached_next {m m' : Machine M} {o : Nat} {e : Encoding} {i : Instruction}
    (hb : c.Compiled mem page b) (hm : c.Reached mem b o m)
    (he : c.Reads mem page o e) (hi : e.decoded = .ok i) (hstraight : i.blockEffect = .straight)
    (hfetch : fetchInstruction m.cpu m.mem m.cpu.linearPc = .ok i)
    (hstart : c.CanStart (o + e.length)) (hstep : Exec.step m = (.ok .proceed, m'))
    (hhit : b.hitBy m'.log m.log.size = false) : c.Reached mem b (o + e.length) m' := by
  have hexecute : Exec.execute i m = (.ok .proceed, m') := by
    rw [Exec.step_of_fetch hfetch] at hstep
    split_ifs at hstep
    · exact hstep
    · cases hstep
  have hpasses := ((Exec.execute_conduct i).1.post hexecute).passes hstraight rfl
  refine ⟨⟨hm.cpu.mode.trans hpasses.mode, hpasses.inRange, ?_⟩,
    hm.code.trans (sameCode_step hb.ranges hstep hhit)⟩
  have hpos := Encoding.length_pos he.decoded
  obtain ⟨hplace, hzero | hlimit⟩ := hstart
  · omega
  have hnext : c.cpu.rip + o.toUInt64 + i.step = c.cpu.rip + (o + e.length).toUInt64 := by
    have ho : o.toUInt64.toNat = o := toNat_toUInt64 (by unfold place at hplace; omega)
    have hsum : (o + e.length).toUInt64.toNat = o + e.length :=
      toNat_toUInt64 (by unfold place at hplace; omega)
    have hstep' : i.step.toNat = e.length := by
      rw [Encoding.length_ok hi]
      exact UInt8.toNat_toUInt64 i.length
    rw [UInt64.add_assoc, ← UInt64.toNat_inj, UInt64.toNat_add, UInt64.toNat_add, ho,
      hstep', UInt64.toNat_add, hsum]
    omega
  have hwidth : m.cpu.codeWidth = c.width := by rw [hm.cpu.mode.codeWidth_eq, hb.width]
  have hlinear : c.cpu.linearIp c.width m.cpu.rip =
      c.cpu.linearIp c.width (c.cpu.rip + o.toUInt64) := by
    rw [← hm.cpu.mode.linearIp_eq, ← hwidth, ← Cpu.linearPc, hm.cpu.linearPc, pcAt, hwidth]
  have hrip : m'.cpu.rip = c.cpu.rip + (o + e.length).toUInt64 := by
    rw [hpasses.rip, hwidth, Cpu.add_and_ipLimit_of_linearIp_eq hlinear, hnext,
      Cpu.and_ipLimit_of_le hlimit]
  rw [Cpu.linearPc, hpasses.mode.codeWidth_eq, hwidth, hrip, hpasses.mode.linearIp_eq,
    hm.cpu.mode.linearIp_eq, pcAt]

/-- The calls of an instruction that has been reached do what a step does. -/
theorem replayCalls_reached {m : Machine M} {o : Nat} {e : Encoding} {i : Instruction}
    (hb : c.Compiled mem page b) (hm : c.Reached mem b o m) (hstart : c.CanStart o)
    (he : c.Reads mem page o e) (hi : e.decoded = .ok i)
    (hfetch : fetchInstruction m.cpu m.mem m.cpu.linearPc = .ok i)
    (hunlimited : c.flags.needsLimitChecks = false →
      ∀ call ∈ c.callsOf o e, c.Unlimited call.offset.toNat call.length.toNat)
    (es : List Encoding) (n : Nat) :
    b.replayCalls (c.listing o (e :: es)) n m =
      b.afterInstruction o.toUInt16 i.length (c.listing (o + e.length) es) n m.log.size
        (Exec.step m) := by
  have hcodeWidth : m.cpu.codeWidth = c.width := by rw [hm.cpu.mode.codeWidth_eq, hb.width]
  have hle := Encoding.length_le he.decoded
  have hpos := Encoding.length_pos he.decoded
  have hplace := hstart.1
  unfold place at hplace
  unfold maxInstructionLength at hle
  have ho : o.toUInt16.toNat = o := toNat_toUInt16 (by omega)
  have hrest : ∀ next ∈ (c.listing (o + e.length) es).head?, next.offset ≠ o.toUInt16 := by
    intro next hnext heq
    have hnat := toNat_toUInt16 (n := o + e.length) (by omega)
    rw [← head_listing next hnext, heq, ho] at hnat
    omega
  have hlimit (hchecks : c.flags.needsLimitChecks = false) :
      (m.cpu.is64Bit || m.cpu.codeInLimit e.length.toUInt64) = true := by
    have hcall := hunlimited hchecks (e.toCall o) (c.mem_callsOf o e)
    rw [Encoding.offset_toCall, ho, Encoding.length_toCall he.decoded
      (he.shapedAt.length_le_bytes hstart.1), toNat_toUInt8 hle] at hcall
    exact hcall.codeInLimit hm.cpu hstart.1 hpos
  exact replayCalls_callsOf he.decoded hi hcodeWidth hfetch
    (fun hchecks => hm.cpu.mode.is64Bit_eq.trans (hb.limited hchecks)) hlimit hrest

/-- **The calls of a chain do what as many steps do**, unless they fault because one of the
    encodings cannot be decoded. -/
theorem replayCalls_listing (hb : c.Compiled mem page b) {es : List Encoding} {o n : Nat}
    {m₀ m : Machine M} (hchain : c.Chain mem page o es)
    (hcovers : ∀ a, c.Takes page o es a → ∃ r ∈ b.ranges, r.Covers a)
    (hunlimited : c.flags.needsLimitChecks = false →
      ∀ call ∈ c.listing o es, c.Unlimited call.offset.toNat call.length.toNat)
    (hsteps : Proceeds n m₀ m) (hm : es ≠ [] → c.Reached mem b o m) :
    SingleSteps m₀ (b.replayCalls (c.listing o es) n m) ∨
      (∃ f m', b.replayCalls (c.listing o es) n m = (.error f, m')) ∧
        ∃ e ∈ es, ∃ x, e.decoded = .error x := by
  induction es generalizing o n m with
  | nil => exact .inl hsteps
  | cons e es ih =>
    obtain ⟨hstart, he, hgoes, hes⟩ := hchain
    have hm := hm (List.cons_ne_nil _ _)
    -- The calls of an encoding that cannot be decoded fault; those of any other do one step.
    cases hi : e.decoded with
    | error x =>
      have hcodeWidth : m.cpu.codeWidth = c.width := by rw [hm.cpu.mode.codeWidth_eq, hb.width]
      exact .inr ⟨replayCalls_undecodable he.decoded hi hcodeWidth o _ n, e,
        List.mem_cons_self, x, hi⟩
    | ok i =>
      have hfetch := fetch_of_reached hb hm hstart.1 he hi fun j hj =>
        hcovers _ (.inl ⟨j, hj, rfl⟩)
      rw [replayCalls_reached hb hm hstart he hi hfetch fun hchecks call hcall =>
        hunlimited hchecks call (List.mem_append_left _ hcall)]
      rcases hstep : Exec.step m with ⟨x | o', m'⟩
      · have hpc : b.pc + o.toUInt16.toUInt64 = m.cpu.linearPc := by
          rw [hb.pc, start_add hstart.1, hm.cpu.linearPc]
        refine .inl ⟨m, i, hsteps, hstep, ?_, hpc ▸ hfetch, rfl⟩
        rw [Exec.conduct_step.transaction.fault hstep]
        exact hpc
      · cases o' with
        | leave => exact .inl ⟨n, m, rfl, hsteps, hstep⟩
        | stop s => exact .inl ⟨n, m, rfl, hsteps, hstep⟩
        | proceed =>
          -- A write to the block ends it here. If there was none, the next encoding is still what
          -- memory holds, and the calls behind it are replayed from its place on.
          rw [Block.afterInstruction]
          split_ifs with hhit
          · exact .inl (hsteps.snoc hstep)
          · obtain h | ⟨hfault, e', he', hx⟩ := ih hes (fun a ha => hcovers a (.inr ha))
              (fun hchecks call hcall =>
                hunlimited hchecks call (List.mem_append_right _ hcall))
              (hsteps.snoc hstep) fun hne => by
                obtain ⟨i', hi', hstraight⟩ := (hgoes hne).decoded
                rw [hi] at hi'
                cases hi'
                rw [isEmpty_listing hne, Bool.not_false, Bool.true_and, Bool.not_eq_true] at hhit
                have hnext : c.CanStart (o + e.length) := by
                  cases es with
                  | nil => exact absurd rfl hne
                  | cons e' es => exact hes.1
                exact reached_next hb hm he hi hstraight hfetch hnext hstep hhit
            · exact .inl h
            · exact .inr ⟨hfault, e', List.mem_cons_of_mem _ he', hx⟩

/-! ## Blocks -/

theorem toNat_ranges_lt {ranges : List CodeRange} {n : Nat}
    (h : ∀ a, (∃ r ∈ ranges, r.Covers a) → a < n) (hn : n < 2 ^ 64) :
    ∀ r ∈ ranges, r.start.toNat + r.length.toNat < 2 ^ 64 := by
  intro r hr
  by_cases hzero : r.length.toNat = 0
  · have := r.start.toNat_lt
    omega
  · have hlast := h (r.start.toNat + r.length.toNat - 1) ⟨r, hr, by unfold CodeRange.Covers; omega⟩
    omega

/-- The ranges of a block that has been compiled do not wrap. -/
theorem CompileContext.Makes.ranges_lt {e : Encoding} {es : List Encoding}
    (h : c.Makes mem page e es b) (hsize : (cells mem).size < 2 ^ 64) :
    ∀ r ∈ b.ranges, r.start.toNat + r.length.toNat < 2 ^ 64 := by
  refine toNat_ranges_lt (n := (cells mem).size) (fun a ha => ?_) hsize
  obtain ⟨_, hb⟩ := h.chain.readsByte_of_takes ((h.covers_iff a).1 ha)
  exact hb.lt_size

/-- A compiled block can be replayed as it has been compiled. -/
theorem CompileContext.Makes.compiled {cpu : Cpu} {target : CpuTarget} {lock : Bool}
    {config : Config} {e : Encoding} {es : List Encoding} (hsize : (cells mem).size < 2 ^ 64)
    (h : Makes ⟨cpu, .ofCpu cpu target lock, config⟩ mem page e es b) :
    Compiled ⟨cpu, .ofCpu cpu target lock, config⟩ mem page b where
  width := ModeFlags.codeWidth_ofCpu cpu target lock
  limited := ModeFlags.limited_ofCpu cpu target lock
  mapped := h.mapped
  pc := h.pc
  ranges := h.ranges_lt hsize

/-- Every instruction of the block could be decoded. -/
def Block.Decoded (b : Block) (width : CodeWidth) : Prop :=
  ∀ call ∈ b.calls, call.handler = .deferred → ∃ i, decode width call.raw = .ok i

/-- **Replaying a block is executing its instructions one at a time.** A block that has been
    compiled at the processor state from a new fetch window ends with the same processor, memory
    and log as single steps, faults and stores into the block itself included. Its instructions
    have to be decodable, and outside 64-bit code they have to end below 4 GiB. -/
theorem replay_singleSteps {m : Machine M} {target : CpuTarget} {lock : Bool} {config : Config}
    {s' : FetchStream} (hsize : (cells m.mem).size < 2 ^ 64) (hrip : m.cpu.rip ≤ m.cpu.ripMask)
    (hcompile : compileBlock m.cpu m.mem {} (.ofCpu m.cpu target lock) config = (.ok b, s'))
    (hdecoded : b.Decoded m.cpu.codeWidth)
    (hend : m.cpu.is64Bit = false → ∀ call ∈ b.calls,
      b.pc.toNat + call.offset.toNat + call.length.toNat ≤ 2 ^ 32) :
    SingleSteps m (b.replay m) := by
  obtain ⟨page, e₀, es, hmakes⟩ := makes_of_ok (ModeFlags.codeWidth_ofCpu _ _ _)
    (FetchStream.current_empty m.mem) hcompile
  have hb := hmakes.compiled hsize
  obtain ⟨-, hchain, hcalls, hcovers, -⟩ := hmakes
  generalize e₀ :: es = es at hchain hcalls hcovers
  generalize hc : (⟨m.cpu, .ofCpu m.cpu target lock, config⟩ : CompileContext) = c at *
  have hcpu : c.cpu = m.cpu := by rw [← hc]
  have hunlimited (hchecks : c.flags.needsLimitChecks = false) (call : Call)
      (hcall : call ∈ c.listing 0 es) : c.Unlimited call.offset.toNat call.length.toNat := by
    unfold Unlimited
    rw [hcpu]
    rw [← hc] at hchecks
    obtain h64 | ⟨hbase, hlimit⟩ := ModeFlags.unlimited_ofCpu m.cpu target lock hchecks
    · exact .inl h64
    · cases h64 : m.cpu.is64Bit with
      | true => exact .inl rfl
      | false =>
        have hcall := hend h64 call (hcalls ▸ hcall)
        rw [hb.pc] at hcall
        exact .inr ⟨hbase, hlimit, hcall⟩
  have hpc : m.cpu.linearPc = c.pcAt 0 := by
    rw [c.pcAt_zero, start, hb.width, hcpu, Cpu.linearPc]
  rw [Block.replay, hcalls]
  obtain h | ⟨-, e, he, x, hx⟩ := replayCalls_listing hb hchain (fun a => (hcovers a).2)
    hunlimited (.zero m) fun _ => ⟨⟨hcpu ▸ .refl _, hrip, hpc⟩, .refl _ _⟩
  · exact h
  · obtain ⟨call, hcall, hdeferred, hraw⟩ := hchain.exists_deferred he hx
    obtain ⟨i, hi⟩ := hdecoded call (hcalls ▸ hcall) hdeferred
    obtain ⟨x', hx'⟩ := decode_take_error ((hchain.sequence.decoded e he).symm.trans hx) e.length
    rw [hraw, ← hcpu, ← hb.width, hx'] at hi
    cases hi

/-- The same for zero bytes in real mode, of which every two store a byte over the first one: the
    replay ends after the first store, with the second instruction of the block not run. -/
theorem replay_singleSteps_over_itself :
    ∃ b s', compileBlock Cpu.realMode (FlatMemory.zeros 64) {} (.ofCpu Cpu.realMode .current false)
        { maxCalls := 4 } = (.ok b, s') ∧
      (b.replay ⟨Cpu.realMode, FlatMemory.zeros 64, #[]⟩).1.toOption = some ⟨.selfModified, 1⟩ ∧
      SingleSteps ⟨Cpu.realMode, FlatMemory.zeros 64, #[]⟩
        (b.replay ⟨Cpu.realMode, FlatMemory.zeros 64, #[]⟩) := by
  obtain ⟨s', hcompile⟩ : ∃ s', compileBlock Cpu.realMode (FlatMemory.zeros 64) {}
      (.ofCpu Cpu.realMode .current false) { maxCalls := 4 } = (.ok
        { physPc := 0, pc := 0, flags := ⟨0⟩, checksLimit := true, identity := ⟨0, 65535, 0, 155⟩
          size := 4, ranges := [⟨0, 4⟩]
          calls := [
            { handler := .checkLimit, length := 2, offset := 0, p0 := 2 },
            { handler := .deferred, length := 2, offset := 0, p2 := 2 },
            { handler := .checkLimit, length := 2, offset := 2, p0 := 2 },
            { handler := .deferred, length := 2, offset := 2, p2 := 2 }]
          instructions := 2 }, s') := ⟨_, rfl⟩
  refine ⟨_, s', hcompile, by decide +kernel, ?_⟩
  refine replay_singleSteps ?_ (by decide) hcompile ?_ fun _ => by decide
  · show (Array.replicate 64 (0 : UInt8)).size < 2 ^ 64
    rw [Array.size_replicate]
    decide
  · simp only [Block.Decoded, List.forall_mem_cons]
    refine ⟨fun h => ?_, fun _ => ⟨_, rfl⟩, fun h => ?_, fun _ => ⟨_, rfl⟩, ?_⟩
    · cases h
    · cases h
    · exact fun _ h => absurd h List.not_mem_nil

end X86Replay

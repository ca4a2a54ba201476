import X86Replay.Proofs.FastPath
import X86Replay.Proofs.PrefixRuns

/-!
# Operands of calls

A call carries its operands packed into words whose fields have no room for everything: a register
field of an address has five bits, one number of which stands for no register. What decoding answers
fits, so handlers find in the words what was decoded.

* `Instruction.LaidOut.registersBelow`, `Instruction.LaidOut.ripRelative`: what an encoding can
  name.
* `Call.operands`, `Call.run_congr`: what a handler unpacks, which is all that it looks at.
* `Instruction.fastOperands?_eq`, `operands_toCall`: the operands of the call of an instruction.
* `Instruction.inRange_fastOperands`: they name registers that exist.
* `operands_call`: all of it for what was decoded.
-/

namespace X86Replay

/-! ## Register numbers -/

/-- The number of registers that prefixes let an instruction name: the upper eight need REX. -/
def Prefixes.registerCount (p : Prefixes) : Nat :=
  if p.rex.isSome then 16 else 8

theorem Prefixes.toNat_extend_lt_registerCount (p : Prefixes) (f : Rex → Bool) {n : UInt8}
    (h : n.toNat < 8) : (p.extend f n).toNat < p.registerCount := by
  unfold registerCount
  split_ifs with hrex
  · exact p.toNat_extend_lt f h
  · rw [extend, rexBit, Option.not_isSome_iff_eq_none.1 hrex]
    simpa using h

theorem Prefixes.registerCount_le (p : Prefixes) : p.registerCount ≤ 16 := by
  unfold registerCount
  split_ifs <;> decide

theorem Prefixes.le_registerCount (p : Prefixes) : 8 ≤ p.registerCount := by
  unfold registerCount
  split_ifs <;> decide

/-- The registers of a memory operand are among the first `n`. -/
structure MemoryOperand.RegistersBelow (m : MemoryOperand) (n : Nat) : Prop where
  base : ∀ r ∈ m.base, r.toNat < n
  index : ∀ r ∈ m.index, r.toNat < n

/-- All registers that an encoding can number are among the first `n`. -/
structure Instruction.RegistersBelow (i : Instruction) (n : Nat) : Prop where
  reg : i.reg.toNat < n
  opcodeReg : i.opcodeReg.toNat < n
  register : ∀ r, i.rm = some (.reg r) → r.toNat < n
  memory : ∀ m, i.rm = some (.mem m) → m.RegistersBelow n

theorem Instruction.RegistersBelow.mono {i : Instruction} {n k : Nat} (h : i.RegistersBelow n)
    (hk : n ≤ k) : i.RegistersBelow k where
  reg := h.reg.trans_le hk
  opcodeReg := h.opcodeReg.trans_le hk
  register r hr := (h.register r hr).trans_le hk
  memory m hm := ⟨fun r hr => ((h.memory m hm).base r hr).trans_le hk,
    fun r hr => ((h.memory m hm).index r hr).trans_le hk⟩

theorem registers16_lt (rm : UInt8) :
    (registers16 rm).1.toNat < 8 ∧ ∀ r ∈ (registers16 rm).2, r.toNat < 8 := by
  unfold registers16
  split <;> simp

theorem registersBelow_ofFields (width : CodeWidth) (p : Prefixes) (size : AddressSize) {m : ModRM}
    (hm : m.rm.toNat < 8) (sib : Option UInt8) (displacement : Int64) :
    (MemoryOperand.ofFields width p size m sib displacement).RegistersBelow p.registerCount := by
  have h32 : (∀ r ∈ (registers32 p m sib).1, r.toNat < p.registerCount) ∧
      ∀ r ∈ (registers32 p m sib).2.1, r.toNat < p.registerCount := by
    have hbase : (baseField m sib).toNat < 8 := by
      cases sib with
      | none => exact hm
      | some b => exact toNat_and_seven_lt b
    constructor
    · intro r hr
      unfold registers32 at hr
      dsimp only at hr
      split_ifs at hr <;> cases hr
      exact p.toNat_extend_lt_registerCount _ hbase
    · intro r hr
      cases sib with
      | none => cases hr
      | some b =>
        unfold registers32 at hr
        simp only [Option.bind_some] at hr
        split_ifs at hr <;> cases hr
        exact p.toNat_extend_lt_registerCount _ (toNat_and_seven_lt _)
  cases size with
  | bits16 =>
    obtain ⟨hbase, hindex⟩ := registers16_lt m.rm
    have hcount := p.le_registerCount
    unfold MemoryOperand.ofFields
    dsimp only
    by_cases hdirect : m.mode = 0 ∧ m.rm = 6
    · rw [if_pos hdirect]
      exact ⟨by simp, by simp⟩
    · rw [if_neg hdirect]
      refine ⟨?_, fun r hr => ?_⟩
      · rintro _ ⟨⟩
        show (registers16 m.rm).1.toNat < _
        omega
      · have := hindex r hr
        omega
  | bits32 => exact ⟨h32.1, h32.2⟩
  | bits64 => exact ⟨h32.1, h32.2⟩

namespace Instruction.LaidOut

variable {i : Instruction} {width : CodeWidth} {l : Layout}

theorem rm_lt (h : i.LaidOut width l) {m : ModRM} (hm : m ∈ i.modRM) : m.rm.toNat < 8 := by
  rw [h.modRM] at hm
  obtain ⟨b, -, rfl⟩ := Option.mem_map.1 hm
  exact toNat_and_seven_lt b

theorem modReg_lt (h : i.LaidOut width l) : i.modReg.toNat < 8 := by
  rw [modReg, h.modRM]
  cases l.modRM with
  | none => decide
  | some b => exact toNat_and_seven_lt (b >>> 3)

/-- An encoding numbers the registers that its prefixes let it number. -/
theorem registersBelow (h : i.LaidOut width l) :
    i.RegistersBelow i.prefixes.registerCount where
  reg := i.prefixes.toNat_extend_lt_registerCount _ h.modReg_lt
  opcodeReg := i.prefixes.toNat_extend_lt_registerCount _ (toNat_and_seven_lt _)
  register r hr := by
    obtain ⟨m, hm, rfl⟩ := h.operand.register r hr
    exact i.prefixes.toNat_extend_lt_registerCount _ (h.rm_lt hm)
  memory o ho := by
    obtain ⟨-, m, hm, heq⟩ := h.operand.memory o ho
    rw [heq]
    exact registersBelow_ofFields width i.prefixes i.addressSize (h.rm_lt hm) l.sib _

/-- An address that counts from the end of the instruction has no registers, and 64-bit code around
    it. -/
theorem ripRelative (h : i.LaidOut width l) {o : MemoryOperand} (ho : i.rm = some (.mem o))
    (hrip : o.ripRelative = true) : width = .bits64 ∧ o.base = none ∧ o.index = none := by
  obtain ⟨-, m, hm, heq⟩ := h.operand.memory o ho
  have hfields : i.addressSize ≠ .bits16 ∧ width = .bits64 ∧ m.rm = 5 ∧ m.mode = 0 := by
    rw [heq] at hrip
    unfold MemoryOperand.ofFields at hrip
    cases hsize : i.addressSize <;> rw [hsize] at hrip
    · dsimp only at hrip
      split_ifs at hrip
    · simpa [and_assoc] using hrip
    · simpa [and_assoc] using hrip
  obtain ⟨hsize, hwidth, hrm, hmode⟩ := hfields
  have hsib : l.sib = none := by
    rw [← Option.not_isSome_iff_eq_none, h.operand.sib_iff]
    rintro ⟨-, -, m', hm', hfour⟩
    cases Option.mem_unique hm hm'
    rw [hrm] at hfour
    cases hfour
  have hregs : (registers32 i.prefixes m none).1 = none := if_pos ⟨hrm, hmode⟩
  rw [heq, hsib]
  refine ⟨hwidth, ?_⟩
  cases hsize' : i.addressSize with
  | bits16 => exact absurd hsize' hsize
  | bits32 => exact ⟨hregs, rfl⟩
  | bits64 => exact ⟨hregs, rfl⟩

end Instruction.LaidOut

/-- A REX prefix exists in 64-bit code only. -/
theorem Prefixes.SaidBy.rex_eq_none {p : Prefixes} {width : CodeWidth} {run : List UInt8}
    (h : p.SaidBy width run) (hwidth : width ≠ .bits64) : p.rex = none := by
  rw [h.rex, lastRex, Option.map_eq_none_iff]
  simp [hwidth]

/-! ## What handlers read -/

/-- An operand that a handler takes from the words of its call. -/
inductive CallOperand where
  | register (r : RegisterOperand)
  | operation (op : AluOp)
  | address (form : AddressForm) (displacement : Int64)
  | value (v : UInt64)
  | flag (b : Bool)
  | displacement (d : Int64)
  | size (s : OperandSize)
  | condition (c : Cond)
  | bytes (bytes : List UInt8)

/-- The operands of a call, as its handler unpacks them. -/
def Call.operands (c : Call) : List CallOperand :=
  match c.handler with
  | .nop | .hlt => []
  | .checkLimit => [.value c.p0]
  | .movRegImm => [.register (.unpack c.p0), .value c.p1]
  | .movRegReg => [.register (.unpack c.p0), .register (.unpack c.p1)]
  | .loadReg | .storeReg =>
    [.register (.unpack c.p0), .address (.unpack c.p1) c.p2.toInt64]
  | .aluRegReg =>
    let (dest, n) := RegisterOperand.unpackWith c.p0
    [.register dest, .operation (.ofIndex n), .register (.unpack c.p1)]
  | .aluRegImm =>
    let (dest, n) := RegisterOperand.unpackWith c.p0
    [.register dest, .operation (.ofIndex n), .value c.p1]
  | .incDecReg => [.register (.unpack c.p0), .flag (c.p1 != 0)]
  | .pushReg | .popReg => [.register (.unpack c.p0)]
  | .jmpRel | .callRel => [.displacement c.p0.toInt64, .size (sizeOfWord c.p1)]
  | .jccRel =>
    [.displacement c.p0.toInt64, .size (sizeOfWord c.p1), .condition (.ofIndex c.p2.toUInt8)]
  | .ret => [.size (sizeOfWord c.p0), .value c.p1]
  | .deferred => [.bytes ((unpackBytes c.p0 c.p1).take c.p2.toNat)]

theorem toInt64_inj {x y : UInt64} : x.toInt64 = y.toInt64 ↔ x = y :=
  ⟨congrArg Int64.toUInt64, congrArg UInt64.toInt64⟩

/-- A handler looks at nothing in the words of its call but the operands in them. -/
theorem Call.run_congr {M : Type} [GuestMemory M] {c c' : Call} (hhandler : c'.handler = c.handler)
    (hlength : c'.length = c.length) (hoperands : c'.operands = c.operands) :
    (c'.run : Exec M Outcome) = c.run := by
  obtain ⟨handler, length, offset, range, p0, p1, p2⟩ := c
  obtain ⟨handler', length', offset', range', p0', p1', p2'⟩ := c'
  dsimp only at hhandler hlength
  subst hhandler hlength
  cases handler' <;>
    simp only [operands, List.cons.injEq, CallOperand.register.injEq, CallOperand.operation.injEq,
      CallOperand.address.injEq, CallOperand.value.injEq, CallOperand.flag.injEq,
      CallOperand.displacement.injEq, CallOperand.size.injEq, CallOperand.condition.injEq,
      CallOperand.bytes.injEq, and_true, toInt64_inj] at hoperands
  -- What is left of the words is the length, which is the same, and what the operands say.
  all_goals
    simp only [run, runLoad, runStore, runAlu, runIncDec, runJump, runCheckLimit, addressed,
      hoperands] <;>
    rfl

/-! ## What instructions hand over -/

namespace Instruction

/-- The handler made for an instruction, if there is one, and the operands that it has to be
    given. -/
def fastOperands? (i : Instruction) : Option (Handler × List CallOperand) :=
  let register (n : UInt8) : CallOperand := .register (i.registerOperand n)
  let address (m : MemoryOperand) : CallOperand :=
    .address (.ofOperand m i.addressSize) m.displacement
  let op : CallOperand := .operation i.aluOp
  let target : CallOperand := .displacement i.immSigned
  let size : CallOperand := .size i.operandSize
  match i.operation, i.rm with
  | .nop, _ => some (.nop, [])
  | .movRegImm, _ => some (.movRegImm, [register i.opcodeReg, .value i.imm])
  | .movRmReg, some (.reg r) => some (.movRegReg, [register r, register i.reg])
  | .movRegRm, some (.reg r) => some (.movRegReg, [register i.reg, register r])
  | .movRegRm, some (.mem m) => some (.loadReg, [register i.reg, address m])
  | .movRmReg, some (.mem m) => some (.storeReg, [register i.reg, address m])
  | .aluRmReg, some (.reg r) => some (.aluRegReg, [register r, op, register i.reg])
  | .aluRegRm, some (.reg r) => some (.aluRegReg, [register i.reg, op, register r])
  | .aluAccImm, _ =>
    some (.aluRegImm, [.register ⟨0, i.operandSize⟩, op, .value i.immSigned.toUInt64])
  | .aluRmImm, some (.reg r) =>
    some (.aluRegImm, [register r, op, .value i.immSigned.toUInt64])
  | .incDecReg, _ =>
    some (.incDecReg, [.register ⟨i.opcode &&& 7, i.operandSize⟩, .flag (i.opcode &&& 8 != 0)])
  | .incDecRm, some (.reg r) => some (.incDecReg, [register r, .flag (i.modReg == 1)])
  | .pushReg, _ => some (.pushReg, [.register i.opcodeOperand])
  | .popReg, _ => some (.popReg, [.register i.opcodeOperand])
  | .jmpRel, _ => some (.jmpRel, [target, size])
  | .jcc, _ => some (.jccRel, [target, size, .condition i.cond])
  | .callRel, _ => some (.callRel, [target, size])
  | .ret, _ => some (.ret, [size, .value 0])
  | .retImm, _ => some (.ret, [size, .value i.imm])
  | .hlt, _ => some (.hlt, [])
  | _, _ => none

/-- The words made for a handler hold its operands. -/
theorem fastOperands?_eq {i : Instruction} (hm : ∀ m, i.rm = some (.mem m) → m.Encodable)
    (length : UInt8) (offset : UInt16) :
    i.fastOperands? = i.fastCall?.map fun (handler, p0, p1, p2) =>
      (handler, Call.operands { handler, length, offset, p0, p1, p2 }) := by
  have hform (m : MemoryOperand) (h : i.rm = some (.mem m)) :=
    AddressForm.unpack_pack (hm m h) i.addressSize
  unfold fastOperands? fastCall?
  dsimp only
  -- The two tables have the same cases, so the second is in the case of the first.
  split
  case h_21 => grind
  all_goals
    simp only [*, Option.map_some, Call.operands, RegisterOperand.unpack_pack,
      RegisterOperand.unpackWith_packWith, AluOp.ofIndex_index, toUInt64_bne_zero, sizeOfWord_step,
      ofIndex_low_opcode] <;>
    rfl

end Instruction

/-! ## Registers in range -/

/-- The number of the register that a reference is to a part of. -/
def registerNumber (ref : UInt8) : UInt8 :=
  if ref &&& highByteMark != 0 then ref &&& 3 else ref

/-- The operand names registers that exist. -/
def CallOperand.InRange : CallOperand → Prop
  | .register r => (registerNumber r.ref).toNat < 16
  | .address form _ => (∀ r ∈ form.base, r.toNat < 16) ∧ ∀ r ∈ form.index, r.toNat < 16
  | _ => True

theorem exists_fin_of_lt {n : UInt8} (h : n.toNat < 16) : ∃ k : Fin 16, UInt8.ofNat k = n :=
  ⟨⟨n.toNat, h⟩, UInt8.ofNat_toNat⟩

theorem toNat_registerNumber_lt {n : UInt8} (h : n.toNat < 16) : (registerNumber n).toNat < 16 := by
  obtain ⟨k, rfl⟩ := exists_fin_of_lt h
  have hall : ∀ k : Fin 16, (registerNumber (UInt8.ofNat k)).toNat < 16 := by decide
  exact hall k

/-- A register number refers to a register that exists, or to a high byte of one. -/
theorem toNat_registerNumber_registerRef_lt {n : UInt8} (h : n.toNat < 16) (size : OperandSize)
    (rexPresent : Bool) : (registerNumber (registerRef n size rexPresent)).toNat < 16 := by
  obtain ⟨k, rfl⟩ := exists_fin_of_lt h
  have hall : ∀ k : Fin 16,
      (registerNumber (registerRef (UInt8.ofNat k) size rexPresent)).toNat < 16 := by
    cases size <;> cases rexPresent <;> decide
  exact hall k

/-- The operands of an instruction name registers that exist. -/
theorem Instruction.inRange_fastOperands {i : Instruction} (hi : i.RegistersBelow 16)
    {handler : Handler} {operands : List CallOperand}
    (h : i.fastOperands? = some (handler, operands)) : ∀ o ∈ operands, o.InRange := by
  have href {n : UInt8} (hn : n.toNat < 16) :
      (registerNumber (i.registerOperand n).ref).toNat < 16 :=
    toNat_registerNumber_registerRef_lt hn _ _
  have hreg := href hi.reg
  have hopcodeReg := href hi.opcodeReg
  have hopcode : (registerNumber i.opcodeOperand.ref).toNat < 16 :=
    toNat_registerNumber_lt hi.opcodeReg
  have hlow : (registerNumber (i.opcode &&& 7)).toNat < 16 :=
    toNat_registerNumber_lt ((toNat_and_seven_lt _).trans (by decide))
  have hzero : (registerNumber 0).toNat < 16 := by decide
  have hrm (r : UInt8) (hr : i.rm = some (.reg r)) := href (hi.register r hr)
  unfold fastOperands? at h
  dsimp only at h
  split at h <;> cases h
  case h_5 m _ hm | h_6 m _ hm =>
    have haddress : (CallOperand.address (.ofOperand m i.addressSize) m.displacement).InRange :=
      ⟨(hi.memory m hm).base, (hi.memory m hm).index⟩
    exact List.forall_mem_cons.2 ⟨hreg, List.forall_mem_singleton.2 haddress⟩
  all_goals simp [CallOperand.InRange, *]

/-! ## The call of an instruction -/

theorem operands_deferredCall {bytes : List UInt8} (h : bytes.length ≤ maxInstructionLength)
    (offset : Nat) : (deferredCall bytes offset).operands = [.bytes bytes] :=
  congrArg (fun raw => [CallOperand.bytes raw]) (unpackBytes_deferredCall h offset)

/-- The handler of an instruction and the operands that it has to be given: its own ones if there is
    a handler made for it and no lock to check, its bytes otherwise. -/
def Instruction.callOperands (i : Instruction) (bytes : List UInt8) : Handler × List CallOperand :=
  (if i.prefixes.lock then none else i.fastOperands?).getD (.deferred, [.bytes bytes])

theorem operands_toCall {i : Instruction} (hm : ∀ m, i.rm = some (.mem m) → m.Encodable)
    {bytes : List UInt8} (h : bytes.length ≤ maxInstructionLength) (offset : Nat) :
    ((i.toCall bytes offset).handler, (i.toCall bytes offset).operands) = i.callOperands bytes := by
  unfold Instruction.toCall Instruction.callOperands
  rw [Instruction.fastOperands?_eq hm i.length offset.toUInt16]
  split_ifs
  · exact Prod.ext rfl (operands_deferredCall h offset)
  · cases i.fastCall? with
    | none => exact Prod.ext rfl (operands_deferredCall h offset)
    | some call => rfl

theorem inRange_callOperands {i : Instruction} (hi : i.RegistersBelow 16) (bytes : List UInt8) :
    ∀ o ∈ (i.callOperands bytes).2, o.InRange := by
  have hbytes : ∀ o ∈ [CallOperand.bytes bytes], o.InRange :=
    List.forall_mem_singleton.2 trivial
  unfold Instruction.callOperands
  split_ifs
  · exact hbytes
  · cases hfast : i.fastOperands? with
    | none => exact hbytes
    | some call => exact Instruction.inRange_fastOperands hi hfast

/-- **Calls lose nothing of their operands.** The registers of an instruction exist, the upper eight
    of them only with a REX prefix and so in 64-bit code. The scale of an address is a power of two
    up to eight, and only 64-bit code counts addresses from the instruction pointer, without
    registers. So packing keeps the form of every address; the call made for the instruction holds
    exactly what was decoded, all of it within the registers that exist, and whatever call holds the
    same does the same. -/
theorem operands_call (M : Type) [GuestMemory M] {width : CodeWidth} {bytes : List UInt8}
    {i : Instruction} (h : decode width bytes = .ok i) (offset : Nat) :
    (i.RegistersBelow 16 ∧ (i.prefixes.rex = none → i.RegistersBelow 8) ∧
      (width ≠ .bits64 → i.prefixes.rex = none)) ∧
    (∀ m, i.rm = some (.mem m) →
      (m.scale = 1 ∨ m.scale = 2 ∨ m.scale = 4 ∨ m.scale = 8) ∧
      (m.ripRelative = true → width = .bits64 ∧ m.base = none ∧ m.index = none) ∧
      AddressForm.unpack (AddressForm.ofOperand m i.addressSize).pack = .ofOperand m i.addressSize ∧
      m.displacement.toUInt64.toInt64 = m.displacement) ∧
    ∃ call, call = i.toCall (bytes.take i.length.toNat) offset ∧
      (call.handler, call.operands) = i.callOperands (bytes.take i.length.toNat) ∧
      (∀ o ∈ call.operands, o.InRange) ∧
      ∀ call' : Call, call'.handler = call.handler → call'.length = call.length →
        call'.operands = call.operands → (call'.run : Exec M Outcome) = call.run := by
  have hencodable (m : MemoryOperand) (hm : i.rm = some (.mem m)) := decode_encodable h hm
  have hlength : (bytes.take i.length.toNat).length ≤ maxInstructionLength := by
    rw [List.length_take]
    exact (Nat.min_le_left _ _).trans (length_bounds h).2.1
  obtain ⟨pre, rest, rfl, hpre, hrest⟩ := exists_prefixes width bytes
  obtain ⟨l, -, -, -, hprefixes, hl, -⟩ := exists_layout hpre hrest h
  have hsaid : i.prefixes.SaidBy width pre :=
    hprefixes ▸ .foldl fun b hb => (isPrefixByte_iff width b).1 (hpre b hb)
  have hbelow := hl.registersBelow.mono i.prefixes.registerCount_le
  have hcall := operands_toCall hencodable hlength offset
  have hoperands : (i.toCall ((pre ++ rest).take i.length.toNat) offset).operands =
      (i.callOperands ((pre ++ rest).take i.length.toNat)).2 := congrArg Prod.snd hcall
  refine ⟨⟨hbelow, ?_, hsaid.rex_eq_none⟩, fun m hm => ⟨(hencodable m hm).scale, hl.ripRelative hm,
    AddressForm.unpack_pack (hencodable m hm) _, rfl⟩, _, rfl, hcall, ?_, ?_⟩
  · intro hrex
    have hcount : i.prefixes.registerCount = 8 := by
      rw [Prefixes.registerCount, hrex]
      rfl
    exact hcount ▸ hl.registersBelow
  · rw [hoperands]
    exact inRange_callOperands hbelow _
  · exact fun call' hhandler hlength hoperands => Call.run_congr hhandler hlength hoperands

/-- The same for a 64-bit load from an address with a base, an extended index and a displacement. -/
theorem operands_call_load :
    ∃ bytes i call, bytes = [0x4A, 0x8B, 0x84, 0xCB, 0x44, 0x33, 0x22, 0x91] ∧
      decode .bits64 bytes = .ok i ∧ i.RegistersBelow 16 ∧ call = i.toCall bytes 0 ∧
      call.handler = .loadReg ∧
      call.operands = [.register ⟨0, .bits64⟩,
        .address ⟨some 3, some 9, 8, .ds, .bits64, false⟩ (-0x6EDDCCBC)] ∧
      ∀ o ∈ call.operands, o.InRange := by
  obtain ⟨bytes, hbytes⟩ : ∃ bytes : List UInt8,
      bytes = [0x4A, 0x8B, 0x84, 0xCB, 0x44, 0x33, 0x22, 0x91] := ⟨_, rfl⟩
  obtain ⟨i, hi, hlength, hfast⟩ : ∃ i, decode .bits64 bytes = .ok i ∧ i.length = 8 ∧
      i.callOperands bytes = (.loadReg, [.register ⟨0, .bits64⟩,
        .address ⟨some 3, some 9, 8, .ds, .bits64, false⟩ (-0x6EDDCCBC)]) := by
    rw [hbytes]
    exact ⟨_, rfl, rfl, rfl⟩
  obtain ⟨⟨hbelow, -, -⟩, -, call, hcall, hoperands, hrange, -⟩ :=
    operands_call FlatMemory hi 0
  rw [hlength, List.take_of_length_le (by rw [hbytes]; decide)] at hcall hoperands
  rw [hfast] at hoperands
  exact ⟨bytes, i, call, hbytes, hi, hbelow, hcall, congrArg Prod.fst hoperands,
    congrArg Prod.snd hoperands, hrange⟩

end X86Replay

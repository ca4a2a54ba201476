import X86Replay.Memory.Flat
import X86Replay.Proofs.Computation
import X86Replay.Proofs.Packing

/-!
# A call does what its instruction does

An instruction reaches a block as one call: of a handler made for it, or of the handler that decodes
its raw bytes again. Either way the call ends as the instruction does, and leaves the same machine.

* `run_fastCall`: the handlers made for an instruction, with packed operands.
* `run_deferredCall`: the handler that is given raw bytes.
* `run_toCall`: the call of an instruction, given exactly its bytes.
-/

namespace X86Replay

open Exec

variable {M : Type}

/-! ## Words and locks -/

theorem sizeOfWord_step (s : OperandSize) : Call.sizeOfWord s.step = s := by
  cases s <;> rfl

theorem ofIndex_low_opcode (i : Instruction) :
    Cond.ofIndex (i.opcode &&& 15).toUInt64.toUInt8 = i.cond := by
  rw [toUInt8_toUInt64, Cond.ofIndex, UInt8.and_assoc]
  rfl

theorem toUInt64_bne_zero (b : Bool) : (b.toUInt64 != 0) = b := by
  cases b <;> rfl

theorem ite_lock {α : Type} {i : Instruction} (hlock : i.prefixes.lock = false) (x y : α) :
    (if i.prefixes.lock && !i.lockIsValid then x else y) = y := by
  rw [hlock, Bool.false_and]
  rfl

/-! ## Arithmetic on registers -/

namespace Cpu

/-- The state behind a two-operand operation on a register. -/
def afterAlu (cpu : Cpu) (op : AluOp) (r : RegisterOperand) (src : UInt64) : Cpu :=
  let out := alu op r.size cpu.rflags (cpu.readGpr r.ref r.size) src
  (if op.writesResult then cpu.writeGpr r.ref r.size out.1 else cpu).setRflags out.2

/-- The state behind an increment or a decrement of a register. -/
def afterIncDec (cpu : Cpu) (decrement : Bool) (r : RegisterOperand) : Cpu :=
  let out := incDec decrement r.size cpu.rflags (cpu.readGpr r.ref r.size)
  (cpu.writeGpr r.ref r.size out.1).setRflags out.2

end Cpu

section Calls

variable (handler : Handler) (length : UInt8) (offset : UInt16) (range : UInt8)
  (r : RegisterOperand)

theorem runAlu_packWith (op : AluOp) (p1 p2 src : UInt64) :
    Call.runAlu ⟨handler, length, offset, range, r.packWith op.index, p1, p2⟩ src = (do
      modifyCpu (·.afterAlu op r src)
      modifyCpu (·.advanceRip length.toUInt64)
      return .proceed : Exec M Outcome) := by
  simp only [Call.runAlu, RegisterOperand.unpackWith_packWith, AluOp.ofIndex_index]
  funext m
  simp only [bind_apply, cpu_apply, Cpu.afterAlu]
  cases op.writesResult
  · rfl
  · rfl

theorem runIncDec_pack (decrement : Bool) (p2 : UInt64) :
    Call.runIncDec ⟨handler, length, offset, range, r.pack, decrement.toUInt64, p2⟩ = (do
      modifyCpu (·.afterIncDec decrement r)
      modifyCpu (·.advanceRip length.toUInt64)
      return .proceed : Exec M Outcome) := by
  simp only [Call.runIncDec, RegisterOperand.unpack_pack, toUInt64_bne_zero]
  rfl

end Calls

variable [GuestMemory M]

section Instructions

variable {i : Instruction} {n : UInt8}

theorem executeAlu_regReg (hop : i.operation = .aluRmReg) (hrm : i.rm = some (.reg n)) :
    executeAlu i = (do
      modifyCpu fun cpu =>
        cpu.afterAlu i.aluOp (i.registerOperand n) (i.readReg cpu i.reg i.operandSize)
      retire i : Exec M Outcome) := by
  funext m
  simp only [executeAlu, hop, readRm, writeRm, hrm, reduceCtorEq, ↓reduceIte, bind_apply, cpu_apply,
    pure_apply, withFlags, Exec.readReg]
  dsimp only [modifyCpu, Cpu.afterAlu]
  cases i.aluOp.writesResult
  · rfl
  · rfl

theorem executeAlu_regRm (hop : i.operation = .aluRegRm) (hrm : i.rm = some (.reg n)) :
    executeAlu i = (do
      modifyCpu fun cpu =>
        cpu.afterAlu i.aluOp (i.registerOperand i.reg) (i.readReg cpu n i.operandSize)
      retire i : Exec M Outcome) := by
  funext m
  simp only [executeAlu, hop, readRm, hrm, bind_apply, cpu_apply, pure_apply, withFlags,
    Exec.readReg]
  dsimp only [modifyCpu, Cpu.afterAlu]
  cases i.aluOp.writesResult
  · rfl
  · rfl

theorem executeAlu_accImm (hop : i.operation = .aluAccImm) :
    executeAlu i = (do
      modifyCpu (·.afterAlu i.aluOp ⟨0, i.operandSize⟩ i.immSigned.toUInt64)
      retire i : Exec M Outcome) := by
  funext m
  simp only [executeAlu, hop, bind_apply, cpu_apply, pure_apply, withFlags]
  dsimp only [modifyCpu, Cpu.afterAlu]
  cases i.aluOp.writesResult
  · rfl
  · rfl

theorem executeAlu_regImm (hop : i.operation = .aluRmImm) (hrm : i.rm = some (.reg n)) :
    executeAlu i = (do
      modifyCpu (·.afterAlu i.aluOp (i.registerOperand n) i.immSigned.toUInt64)
      retire i : Exec M Outcome) := by
  funext m
  simp only [executeAlu, hop, readRm, writeRm, hrm, ↓reduceIte, bind_apply, cpu_apply, pure_apply,
    withFlags, Exec.readReg]
  dsimp only [modifyCpu, Cpu.afterAlu]
  cases i.aluOp.writesResult
  · rfl
  · rfl

theorem executeIncDecRm_reg (hrm : i.rm = some (.reg n)) :
    executeIncDecRm i = (do
      modifyCpu (·.afterIncDec (i.modReg == 1) (i.registerOperand n))
      retire i : Exec M Outcome) := by
  simp only [executeIncDecRm, readRm, writeRm, hrm]
  rfl

end Instructions

/-! ## Handlers

Without a lock only the operation decides what is executed, as it decides the handler. Registers and
the form of an address come back from their words. -/

section Handlers

variable {i : Instruction} {n : UInt8} {m : MemoryOperand} (hlock : i.prefixes.lock = false)
  (offset : UInt16)

include hlock

theorem run_nop (hop : i.operation = .nop) :
    Call.run ⟨.nop, i.length, offset, 0, 0, 0, 0⟩ = (execute i : Exec M Outcome) := by
  simp only [execute, ite_lock hlock, hop, Call.run]
  rfl

theorem run_movRegImm (hop : i.operation = .movRegImm) :
    Call.run ⟨.movRegImm, i.length, offset, 0, (i.registerOperand i.opcodeReg).pack, i.imm, 0⟩ =
      (execute i : Exec M Outcome) := by
  simp only [execute, ite_lock hlock, hop, Call.run, RegisterOperand.unpack_pack]
  rfl

theorem run_movRegReg_rm (hop : i.operation = .movRmReg) (hrm : i.rm = some (.reg n)) :
    Call.run ⟨.movRegReg, i.length, offset, 0, (i.registerOperand n).pack,
      (i.registerOperand i.reg).pack, 0⟩ = (execute i : Exec M Outcome) := by
  simp only [execute, ite_lock hlock, hop, Call.run, RegisterOperand.unpack_pack, writeRm, hrm]
  rfl

theorem run_movRegReg_reg (hop : i.operation = .movRegRm) (hrm : i.rm = some (.reg n)) :
    Call.run ⟨.movRegReg, i.length, offset, 0, (i.registerOperand i.reg).pack,
      (i.registerOperand n).pack, 0⟩ = (execute i : Exec M Outcome) := by
  simp only [execute, ite_lock hlock, hop, Call.run, RegisterOperand.unpack_pack, readRm, hrm]
  rfl

theorem run_loadReg (hop : i.operation = .movRegRm) (hrm : i.rm = some (.mem m))
    (hm : m.Encodable) :
    Call.run ⟨.loadReg, i.length, offset, 0, (i.registerOperand i.reg).pack,
      (AddressForm.ofOperand m i.addressSize).pack, m.displacement.toUInt64⟩ =
      (execute i : Exec M Outcome) := by
  simp only [execute, ite_lock hlock, hop, Call.run, Call.runLoad, Call.addressed,
    RegisterOperand.unpack_pack, AddressForm.unpack_pack hm, readRm, hrm]
  rfl

theorem run_storeReg (hop : i.operation = .movRmReg) (hrm : i.rm = some (.mem m))
    (hm : m.Encodable) :
    Call.run ⟨.storeReg, i.length, offset, 0, (i.registerOperand i.reg).pack,
      (AddressForm.ofOperand m i.addressSize).pack, m.displacement.toUInt64⟩ =
      (execute i : Exec M Outcome) := by
  simp only [execute, ite_lock hlock, hop, Call.run, Call.runStore, Call.addressed,
    RegisterOperand.unpack_pack, AddressForm.unpack_pack hm, writeRm, hrm]
  -- The handler looks at the processor once, the instruction for the register and the address.
  funext machine
  simp only [bind_apply, cpu_apply, pure_apply, Exec.readReg]
  rfl

theorem run_aluRegReg_rm (hop : i.operation = .aluRmReg) (hrm : i.rm = some (.reg n)) :
    Call.run ⟨.aluRegReg, i.length, offset, 0, (i.registerOperand n).packWith i.aluOp.index,
      (i.registerOperand i.reg).pack, 0⟩ = (execute i : Exec M Outcome) := by
  simp only [execute, ite_lock hlock, hop, Call.run, executeAlu_regReg hop hrm, runAlu_packWith,
    RegisterOperand.unpack_pack]
  rfl

theorem run_aluRegReg_reg (hop : i.operation = .aluRegRm) (hrm : i.rm = some (.reg n)) :
    Call.run ⟨.aluRegReg, i.length, offset, 0, (i.registerOperand i.reg).packWith i.aluOp.index,
      (i.registerOperand n).pack, 0⟩ = (execute i : Exec M Outcome) := by
  simp only [execute, ite_lock hlock, hop, Call.run, executeAlu_regRm hop hrm, runAlu_packWith,
    RegisterOperand.unpack_pack]
  rfl

theorem run_aluRegImm_acc (hop : i.operation = .aluAccImm) :
    Call.run ⟨.aluRegImm, i.length, offset, 0,
      RegisterOperand.packWith ⟨0, i.operandSize⟩ i.aluOp.index, i.immSigned.toUInt64, 0⟩ =
      (execute i : Exec M Outcome) := by
  simp only [execute, ite_lock hlock, hop, Call.run, executeAlu_accImm hop, runAlu_packWith]
  rfl

theorem run_aluRegImm_rm (hop : i.operation = .aluRmImm) (hrm : i.rm = some (.reg n)) :
    Call.run ⟨.aluRegImm, i.length, offset, 0, (i.registerOperand n).packWith i.aluOp.index,
      i.immSigned.toUInt64, 0⟩ = (execute i : Exec M Outcome) := by
  simp only [execute, ite_lock hlock, hop, Call.run, executeAlu_regImm hop hrm, runAlu_packWith]
  rfl

theorem run_incDecReg_opcode (hop : i.operation = .incDecReg) :
    Call.run ⟨.incDecReg, i.length, offset, 0,
      RegisterOperand.pack ⟨i.opcode &&& 7, i.operandSize⟩, (i.opcode &&& 8 != 0).toUInt64, 0⟩ =
      (execute i : Exec M Outcome) := by
  simp only [execute, ite_lock hlock, hop, Call.run, runIncDec_pack]
  rfl

theorem run_incDecReg_rm (hop : i.operation = .incDecRm) (hrm : i.rm = some (.reg n)) :
    Call.run ⟨.incDecReg, i.length, offset, 0, (i.registerOperand n).pack,
      (i.modReg == 1).toUInt64, 0⟩ = (execute i : Exec M Outcome) := by
  simp only [execute, ite_lock hlock, hop, Call.run, executeIncDecRm_reg hrm, runIncDec_pack]
  rfl

theorem run_pushReg (hop : i.operation = .pushReg) :
    Call.run ⟨.pushReg, i.length, offset, 0, i.opcodeOperand.pack, 0, 0⟩ =
      (execute i : Exec M Outcome) := by
  simp only [execute, ite_lock hlock, hop, Call.run, RegisterOperand.unpack_pack]
  rfl

theorem run_popReg (hop : i.operation = .popReg) :
    Call.run ⟨.popReg, i.length, offset, 0, i.opcodeOperand.pack, 0, 0⟩ =
      (execute i : Exec M Outcome) := by
  simp only [execute, ite_lock hlock, hop, Call.run, RegisterOperand.unpack_pack]
  rfl

theorem run_jmpRel (hop : i.operation = .jmpRel) :
    Call.run ⟨.jmpRel, i.length, offset, 0, i.immSigned.toUInt64, i.operandSize.step, 0⟩ =
      (execute i : Exec M Outcome) := by
  simp only [execute, ite_lock hlock, hop, Call.run, Call.runJump, sizeOfWord_step]
  rfl

theorem run_jccRel (hop : i.operation = .jcc) :
    Call.run ⟨.jccRel, i.length, offset, 0, i.immSigned.toUInt64, i.operandSize.step,
      (i.opcode &&& 15).toUInt64⟩ = (execute i : Exec M Outcome) := by
  simp only [execute, ite_lock hlock, hop, Call.run, Call.runJump, sizeOfWord_step,
    ofIndex_low_opcode]
  funext m
  simp only [bind_apply, cpu_apply]
  by_cases h : i.cond.eval m.cpu.rflags
  · rw [if_pos h, if_pos h]
    rfl
  · rw [if_neg h, if_neg h]
    rfl

theorem run_callRel (hop : i.operation = .callRel) :
    Call.run ⟨.callRel, i.length, offset, 0, i.immSigned.toUInt64, i.operandSize.step, 0⟩ =
      (execute i : Exec M Outcome) := by
  simp only [execute, ite_lock hlock, hop, Call.run, sizeOfWord_step]
  rfl

theorem run_ret (hop : i.operation = .ret) :
    Call.run ⟨.ret, i.length, offset, 0, i.operandSize.step, 0, 0⟩ =
      (execute i : Exec M Outcome) := by
  simp only [execute, ite_lock hlock, hop, Call.run, sizeOfWord_step]

theorem run_retImm (hop : i.operation = .retImm) :
    Call.run ⟨.ret, i.length, offset, 0, i.operandSize.step, i.imm, 0⟩ =
      (execute i : Exec M Outcome) := by
  simp only [execute, ite_lock hlock, hop, Call.run, sizeOfWord_step]

theorem run_hlt (hop : i.operation = .hlt) :
    Call.run ⟨.hlt, i.length, offset, 0, 0, 0, 0⟩ = (execute i : Exec M Outcome) := by
  simp only [execute, ite_lock hlock, hop, Call.run]
  rfl

end Handlers

/-- A handler made for an instruction without a lock does what the instruction does. -/
theorem run_fastCall {i : Instruction} {handler : Handler} {p0 p1 p2 : UInt64}
    (hlock : i.prefixes.lock = false) (hm : ∀ m, i.rm = some (.mem m) → m.Encodable)
    (hfast : i.fastCall? = some (handler, p0, p1, p2)) (offset : UInt16) :
    Call.run { handler, length := i.length, offset, p0, p1, p2 } =
      (execute i : Exec M Outcome) := by
  unfold Instruction.fastCall? at hfast
  dsimp only at hfast
  split at hfast <;> cases hfast
  case h_1 hop => exact run_nop hlock offset hop
  case h_2 hop => exact run_movRegImm hlock offset hop
  case h_3 hop hrm => exact run_movRegReg_rm hlock offset hop hrm
  case h_4 hop hrm => exact run_movRegReg_reg hlock offset hop hrm
  case h_5 m hop hrm => exact run_loadReg hlock offset hop hrm (hm m hrm)
  case h_6 m hop hrm => exact run_storeReg hlock offset hop hrm (hm m hrm)
  case h_7 hop hrm => exact run_aluRegReg_rm hlock offset hop hrm
  case h_8 hop hrm => exact run_aluRegReg_reg hlock offset hop hrm
  case h_9 hop => exact run_aluRegImm_acc hlock offset hop
  case h_10 hop hrm => exact run_aluRegImm_rm hlock offset hop hrm
  case h_11 hop => exact run_incDecReg_opcode hlock offset hop
  case h_12 hop hrm => exact run_incDecReg_rm hlock offset hop hrm
  case h_13 hop => exact run_pushReg hlock offset hop
  case h_14 hop => exact run_popReg hlock offset hop
  case h_15 hop => exact run_jmpRel hlock offset hop
  case h_16 hop => exact run_jccRel hlock offset hop
  case h_17 hop => exact run_callRel hlock offset hop
  case h_18 hop => exact run_ret hlock offset hop
  case h_19 hop => exact run_retImm hlock offset hop
  case h_20 hop => exact run_hlt hlock offset hop

/-- The handler of raw bytes decodes them as they are. -/
theorem run_deferredCall {bytes : List UInt8} (h : bytes.length ≤ maxInstructionLength)
    (offset : Nat) :
    (deferredCall bytes offset).run = (executeBytes bytes : Exec M Outcome) :=
  congrArg executeBytes (unpackBytes_deferredCall h offset)

theorem executeBytes_ok {m : Machine M} {bytes : List UInt8} {i : Instruction}
    (h : decode m.cpu.codeWidth bytes = .ok i) : executeBytes bytes m = execute i m := by
  rw [executeBytes, bind_apply, check_apply, decodeOrFault, h]
  rfl

theorem executeBytes_error {m : Machine M} {bytes : List UInt8} {e : DecodeError}
    (h : decode m.cpu.codeWidth bytes = .error e) :
    executeBytes bytes m = (.error e.exception, m) := by
  rw [executeBytes, bind_apply, check_apply, decodeOrFault, h]
  rfl

/-! ## The call of an instruction -/

/-- The call of an instruction, made from exactly its bytes, does what the instruction does. -/
theorem run_toCall {m : Machine M} {bytes : List UInt8} {i : Instruction}
    (h : decode m.cpu.codeWidth bytes = .ok i) (hlength : bytes.length = i.length.toNat)
    (offset : Nat) : (i.toCall bytes offset).run m = execute i m := by
  unfold Instruction.toCall
  split
  · rename_i handler p0 p1 p2 hfast
    split at hfast
    · cases hfast
    · rename_i hlock
      rw [run_fastCall (by simpa using hlock) (fun m hm => decode_encodable h hm) hfast]
  · rw [run_deferredCall (by rw [hlength]; exact (length_bounds h).2.1), executeBytes_ok h]

/-- **The fast path is the slow path.** Whatever the mode, an instruction that has been decoded from
    some bytes and turned into a call ends as it does when it is executed directly, with the same
    registers, memory and log. -/
theorem run_call_eq_execute {m : Machine M} {bytes : List UInt8} {i : Instruction}
    (h : decode m.cpu.codeWidth bytes = .ok i) (offset : Nat) :
    (i.toCall (bytes.take i.length.toNat) offset).run m = execute i m := by
  refine run_toCall ?_ ?_ offset
  · have := decode_take h []
    rwa [List.append_nil] at this
  · rw [List.length_take, Nat.min_eq_left (length_bounds h).2.2]

/-- The same for a locked addition to memory, which is decoded a second time, with bytes of the
    next instruction behind it. -/
theorem run_call_eq_execute_lock_add :
    ∃ i, decode Cpu.realMode.codeWidth [0xF0, 0x01, 0x07, 0x90] = .ok i ∧
      (i.toCall [0xF0, 0x01, 0x07] 0).run ⟨Cpu.realMode, FlatMemory.zeros 64, #[]⟩ =
        execute i ⟨Cpu.realMode, FlatMemory.zeros 64, #[]⟩ := by
  have h : decode Cpu.realMode.codeWidth [0xF0, 0x01, 0x07, 0x90] = .ok _ := rfl
  exact ⟨_, h, run_call_eq_execute (m := ⟨Cpu.realMode, FlatMemory.zeros 64, #[]⟩) h 0⟩

end X86Replay

import X86Replay.Memory.Flat
import X86Replay.Proofs.Computation
import X86Replay.Proofs.Decoding

/-!
# Locked instructions

Whether an opcode may be locked stands in the opcode maps, but what a group opcode does depends on
ModRM.reg, so that all members of a group share one mark.

* `OpcodeEntry.marksRightly`: which operations the marked opcodes have, by a look at all of them.
* `lockIsValid_exact`: a lock is accepted on the instructions that update an operand in memory, and
  on those that only share their opcode with one; on all others it is refused.
* `lock_accepted_without_update`: a comparison with memory and a jump through memory that are locked
  and complete.
-/

namespace X86Replay

variable {M : Type} [GuestMemory M]

/-! ## Operations -/

/-- Whether the operation has semantics here. -/
def Operation.isModelled : Operation → Bool
  | .unsupported | .system | .movCr | .cpuid => false
  | _ => true

/-- Whether opcodes with the operation are marked as lockable. -/
def Operation.isMarked (op : Operation) (opcode : UInt8) : Bool :=
  match op with
  | .aluRmReg => (AluOp.ofIndex (opcode >>> 3)).writesResult
  | .aluRmImm | .incDecRm | .xchg | .callRm | .jmpRm | .farCall | .farJmp => true
  | _ => false

namespace Instruction

/-- Whether ModRM names an operand in memory. -/
def hasMemory (i : Instruction) : Bool :=
  i.rm.any fun o => !o.isReg

/-- Whether the operand that ModRM names is both read and written. -/
def updatesRm (i : Instruction) : Bool :=
  match i.operation with
  | .aluRmReg | .aluRmImm => i.aluOp.writesResult
  | .incDecRm | .xchg => true
  | _ => false

/-- Whether the operand is read only, by a member of a group that has other members which update
    it: comparisons with an immediate, and transfers through ModRM. -/
def sharesLock (i : Instruction) : Bool :=
  match i.operation with
  | .aluRmImm => !i.aluOp.writesResult
  | .callRm | .jmpRm | .farCall | .farJmp => true
  | _ => false

/-- The instruction without its lock. -/
def unlocked (i : Instruction) : Instruction :=
  { i with prefixes.lock := false }

theorem isMarked_eq (i : Instruction) :
    i.operation.isMarked i.opcode = (i.updatesRm || i.sharesLock) := by
  unfold Operation.isMarked updatesRm sharesLock aluOp
  cases i.operation <;> simp

end Instruction

/-! ## Opcodes -/

namespace OpcodeEntry

/-- The mark of an opcode and a ModRM byte is right for its operation, if there is one. -/
def MarksRightly (e : OpcodeEntry) (opcode reg : UInt8) : Prop :=
  (e.resolve opcode reg).2.lockable = false ∧
    (e.flags.modRM = true → (e.resolve opcode reg).1.isModelled = true →
      (e.resolve opcode reg).1 ≠ .invalid →
      e.flags.lockable = (e.resolve opcode reg).1.isMarked opcode)

instance (e : OpcodeEntry) (opcode reg : UInt8) : Decidable (e.MarksRightly opcode reg) :=
  inferInstanceAs (Decidable (_ ∧ _))

/-- The opcodes that ModRM.reg extends, all of them in the one-byte map. -/
def groupOpcodes : List UInt8 :=
  [0x80, 0x81, 0x82, 0x83, 0xC6, 0xC7, 0xF6, 0xF7, 0xFE, 0xFF]

theorem marksRightly_group : ∀ opcode ∈ groupOpcodes, ∀ r : Fin 8,
    (OpcodeMap.primary.entry opcode).MarksRightly opcode (.ofNat r) := by
  decide +kernel

/-- An opcode of the one-byte map is extended, or its mark is right whatever follows it. -/
theorem marksRightly_primary : ∀ p ∈ OpcodeMap.primaryRows.flatten.zipIdx,
    UInt8.ofNat p.2 ∈ groupOpcodes ∨
      p.1.flags.group = false ∧ p.1.MarksRightly (.ofNat p.2) 0 := by
  decide +kernel

theorem marksRightly_secondary : ∀ p ∈ OpcodeMap.secondaryRows.flatten.zipIdx,
    p.1.flags.group = false ∧ p.1.MarksRightly (.ofNat p.2) 0 := by
  decide +kernel

/-- The entry of an opcode is found in the rows of its map. -/
theorem mem_zipIdx_of_get {rows : List OpcodeEntry} (h : rows.toArray.size = 256) (opcode : UInt8) :
    ((⟨rows.toArray, h⟩ : Vector OpcodeEntry 256).get ⟨opcode.toNat, opcode.toNat_lt⟩,
      opcode.toNat) ∈ rows.zipIdx := by
  have hlt : opcode.toNat < rows.length := by
    rw [← List.size_toArray, h]
    exact opcode.toNat_lt
  rw [List.mk_mem_zipIdx_iff_getElem?, List.getElem?_eq_getElem hlt]
  rfl

/-- Without a group ModRM.reg does not matter. -/
theorem MarksRightly.of_plain {e : OpcodeEntry} {opcode : UInt8} (hplain : e.flags.group = false)
    (h : e.MarksRightly opcode 0) (reg : UInt8) : e.MarksRightly opcode reg := by
  unfold MarksRightly resolve at h ⊢
  rw [if_neg (by rw [hplain]; exact Bool.false_ne_true)] at h ⊢
  exact h

/-- **The marks of all opcodes are right**, for the operations that share them. -/
theorem marksRightly (map : OpcodeMap) (opcode reg : UInt8) (hreg : reg.toNat < 8) :
    (map.entry opcode).MarksRightly opcode reg := by
  cases map with
  | primary =>
    obtain hgroup | ⟨hplain, h⟩ := marksRightly_primary _ (mem_zipIdx_of_get _ opcode)
    · have h := marksRightly_group opcode (by simpa using hgroup) ⟨reg.toNat, hreg⟩
      simpa using h
    · rw [UInt8.ofNat_toNat] at h
      exact h.of_plain hplain reg
  | secondary =>
    obtain ⟨hplain, h⟩ := marksRightly_secondary _ (mem_zipIdx_of_get _ opcode)
    rw [UInt8.ofNat_toNat] at h
    exact h.of_plain hplain reg
  | escape38 | escape3A => exact ⟨rfl, fun _ h => by cases h⟩

end OpcodeEntry

/-! ## Locks -/

namespace Instruction

variable {width : CodeWidth} {bytes : List UInt8} {i : Instruction}

/-- An instruction with semantics has the operation that the maps give. -/
theorem Tabled.operation_of_isModelled (h : i.Tabled) (hmodelled : i.operation.isModelled = true) :
    i.operation = ((i.map.entry i.opcode).resolve i.opcode i.modReg).1 := by
  have hop := h.operation
  split_ifs at hop
  · rw [hop] at hmodelled
    cases hmodelled
  · exact hop

/-- **A lock is valid** on the instructions that update an operand in memory, and on those that
    share their opcode with one. -/
theorem lockIsValid_eq (h : decode width bytes = .ok i) (hmodelled : i.operation.isModelled = true) :
    i.lockIsValid = (i.hasMemory && (i.updatesRm || i.sharesLock)) := by
  have htabled := decode_tabled h
  have hop := htabled.operation_of_isModelled hmodelled
  obtain ⟨hextra, hmarks⟩ := OpcodeEntry.marksRightly i.map i.opcode i.modReg htabled.modReg_lt
  rw [← hop] at hmarks
  cases hmemory : i.hasMemory with
  | false =>
    unfold hasMemory at hmemory
    rw [lockIsValid, hmemory, Bool.and_false, Bool.false_and]
  | true =>
    have hrm : i.rm.isSome = true := by
      unfold hasMemory at hmemory
      cases hrm : i.rm with
      | none =>
        rw [hrm] at hmemory
        cases hmemory
      | some _ => rfl
    have hvalid : i.operation ≠ .invalid := hop ▸ htabled.valid
    have hlockable : i.flags.lockable = i.operation.isMarked i.opcode := by
      rw [htabled.flags, OpcodeFlags.union]
      dsimp only
      rw [hextra, Bool.or_false]
      exact hmarks (htabled.rm_isSome.symm.trans hrm) hmodelled hvalid
    unfold hasMemory at hmemory
    rw [lockIsValid, hmemory, hlockable, isMarked_eq, Bool.and_true, Bool.true_and]

end Instruction

namespace Exec

/-- Without its lock an instruction is what it is with a lock that has been accepted. -/
theorem execute_unlocked {i : Instruction} (h : i.lockIsValid = true) :
    (execute i : Exec M Outcome) = execute i.unlocked := by
  unfold execute
  rw [h, Bool.not_true, Bool.and_false, if_neg Bool.false_ne_true]
  rfl

/-- A lock that is not accepted is an invalid opcode, whatever the instruction. -/
theorem execute_refused {i : Instruction} (hlock : i.prefixes.lock = true)
    (h : i.lockIsValid = false) (m : Machine M) : execute i m = (.error .invalidOpcode, m) := by
  unfold execute
  rw [hlock, h, Bool.not_false, Bool.and_true, if_pos rfl]
  rfl

end Exec

/-- **Locked instructions.** A lock before an instruction with semantics is accepted if and only if
    the operand that ModRM names is in memory and the instruction either updates it or, without
    writing it, shares its opcode with one that does. The instruction is then executed as without the
    lock; otherwise it raises an invalid opcode exception and changes nothing. -/
theorem lockIsValid_exact {width : CodeWidth} {bytes : List UInt8} {i : Instruction}
    (h : decode width bytes = .ok i) (hlock : i.prefixes.lock = true)
    (hmodelled : i.operation.isModelled = true) :
    i.lockIsValid = (i.hasMemory && (i.updatesRm || i.sharesLock)) ∧
      ∀ m : Machine M, Exec.execute i m =
        if i.lockIsValid then Exec.execute i.unlocked m else (.error .invalidOpcode, m) := by
  refine ⟨Instruction.lockIsValid_eq h hmodelled, fun m => ?_⟩
  cases hvalid : i.lockIsValid with
  | true => rw [if_pos rfl, Exec.execute_unlocked hvalid]
  | false => rw [if_neg Bool.false_ne_true, Exec.execute_refused hlock hvalid]

/-- The same for an addition to memory, whose lock is accepted, and to a register, whose lock is
    refused. -/
theorem lockIsValid_exact_add :
    (∃ i, decode .bits16 [0xF0, 0x01, 0x07] = .ok i ∧ i.lockIsValid = true ∧
      ∀ m : Machine FlatMemory, Exec.execute i m = Exec.execute i.unlocked m) ∧
    ∃ i, decode .bits16 [0xF0, 0x01, 0xC7] = .ok i ∧ i.lockIsValid = false ∧
      ∀ m : Machine FlatMemory, Exec.execute i m = (.error .invalidOpcode, m) := by
  obtain ⟨i, hi, hlock, hmodelled, hvalid⟩ : ∃ i, decode .bits16 [0xF0, 0x01, 0x07] = .ok i ∧
      i.prefixes.lock = true ∧ i.operation.isModelled = true ∧
      (i.hasMemory && (i.updatesRm || i.sharesLock)) = true :=
    ⟨_, rfl, rfl, rfl, rfl⟩
  obtain ⟨j, hj, hlock', hmodelled', hvalid'⟩ : ∃ i, decode .bits16 [0xF0, 0x01, 0xC7] = .ok i ∧
      i.prefixes.lock = true ∧ i.operation.isModelled = true ∧
      (i.hasMemory && (i.updatesRm || i.sharesLock)) = false :=
    ⟨_, rfl, rfl, rfl, rfl⟩
  obtain ⟨h, hexecute⟩ := lockIsValid_exact (M := FlatMemory) hi hlock hmodelled
  obtain ⟨h', hexecute'⟩ := lockIsValid_exact (M := FlatMemory) hj hlock' hmodelled'
  rw [hvalid] at h
  rw [hvalid'] at h'
  simp only [h, if_true] at hexecute
  simp only [h', Bool.false_eq_true, if_false] at hexecute'
  exact ⟨⟨i, hi, h, hexecute⟩, j, hj, h', hexecute'⟩

/-- **Locks that are accepted without an update**: of a comparison with an immediate, and of a jump
    through memory. Both complete. -/
theorem lock_accepted_without_update :
    (∃ i, decode .bits32 [0xF0, 0x83, 0x3F, 0x00] = .ok i ∧ i.prefixes.lock = true ∧
      i.operation = .aluRmImm ∧ i.aluOp = .cmp ∧ i.updatesRm = false ∧ i.lockIsValid = true ∧
      (Exec.execute i ⟨.flat32, FlatMemory.zeros 64, #[]⟩).1 = .ok .proceed) ∧
    ∃ i, decode .bits32 [0xF0, 0xFF, 0x27] = .ok i ∧ i.prefixes.lock = true ∧
      i.operation = .jmpRm ∧ i.updatesRm = false ∧ i.lockIsValid = true ∧
      (Exec.execute i ⟨.flat32, FlatMemory.zeros 64, #[]⟩).1 = .ok .proceed :=
  ⟨⟨_, rfl, rfl, rfl, rfl, rfl, rfl, by decide⟩,
    _, rfl, rfl, rfl, rfl, rfl, by decide⟩

end X86Replay

import X86Replay.Instruction.Basic

/-!
# Opcode maps

The one-byte and two-byte maps are written in rows of sixteen, as they are printed in processor
manuals. The two three-byte maps have one shape each.

* `OpcodeMap.entry`: the operation, immediate and flags of an opcode.
* `resolveGroup`: the operation of an opcode that ModRM.reg extends.

Names in parentheses are those in the emulator, here in its module `opcode_tables`.
-/

namespace X86Replay

/-! ## Entries -/

/-- The immediate operands that follow an opcode (`ImmSize`). -/
inductive ImmediateForm where
  | none
  /-- 8 bits. -/
  | ib
  /-- 16 bits. -/
  | iw
  /-- 16 or 32 bits by operand size. -/
  | iz
  /-- 16, 32 or 64 bits by operand size. -/
  | iv
  /-- 16 bits, then 8 bits. -/
  | iwib
  /-- A far pointer: an offset of 16 or 32 bits, then a selector. -/
  | ap
  /-- An 8-bit branch displacement. -/
  | jb
  /-- A branch displacement of 16 or 32 bits. -/
  | jz
  /-- An absolute address. -/
  | moffs
  /-- 8 bits, or 16 or 32 by operand size, for the two `TEST` forms of group 3 only. -/
  | group3
deriving DecidableEq, Repr

/-- What an opcode map says about one opcode (`OpcodeEntry`). -/
structure OpcodeEntry where
  operation : Operation
  immediate : ImmediateForm := .none
  flags : OpcodeFlags := {}
deriving DecidableEq, Repr

namespace OpcodeEntry

/-- An opcode without operand bytes. -/
def plain (op : Operation) : OpcodeEntry := ⟨op, .none, {}⟩

/-- The same opcode with an immediate. -/
def imm (e : OpcodeEntry) (i : ImmediateForm) : OpcodeEntry := { e with immediate := i }

/-- The same opcode with a ModRM byte. -/
def rm (e : OpcodeEntry) : OpcodeEntry := { e with flags.modRM := true }

/-- The same opcode with byte operands. -/
def byte (e : OpcodeEntry) : OpcodeEntry := { e with flags.byteOperand := true }

/-- The same opcode with 64-bit operands by default in 64-bit code. -/
def def64 (e : OpcodeEntry) : OpcodeEntry := { e with flags.default64 := true }

/-- The same opcode, lockable. -/
def lock (e : OpcodeEntry) : OpcodeEntry := { e with flags.lockable := true }

/-- The same opcode, undefined in 64-bit code. -/
def no64 (e : OpcodeEntry) : OpcodeEntry := { e with flags.invalid64 := true }

/-- The same opcode, extended by the ModRM byte that follows it. -/
def ext (e : OpcodeEntry) : OpcodeEntry := { e.rm with flags.group := true }

end OpcodeEntry

namespace OpcodeMap

open OpcodeEntry

/-! ## The one-byte map -/

/-- An undefined opcode, or a byte that is a prefix. -/
def reserved : OpcodeEntry := plain .invalid

/-- A valid opcode without semantics here. -/
def other : OpcodeEntry := plain .unsupported

/-- The six encodings of a two-operand operation that stores its result. -/
def aluForms : List OpcodeEntry :=
  [(plain .aluRmReg).rm.byte.lock, (plain .aluRmReg).rm.lock, (plain .aluRegRm).rm.byte,
    (plain .aluRegRm).rm, (plain .aluAccImm).byte.imm .ib, (plain .aluAccImm).imm .iz]

/-- The six encodings of `CMP`, which has no destination to lock. -/
def cmpForms : List OpcodeEntry :=
  [(plain .aluRmReg).rm.byte, (plain .aluRmReg).rm, (plain .aluRegRm).rm.byte,
    (plain .aluRegRm).rm, (plain .aluAccImm).byte.imm .ib, (plain .aluAccImm).imm .iz]

/-- `n` neighbouring opcodes of one shape. -/
def times (n : Nat) (e : OpcodeEntry) : List OpcodeEntry := List.replicate n e

/-- The rows of the one-byte map (`build_primary`). -/
def primaryRows : List (List OpcodeEntry) :=
  [ -- 00: ADD, OR
    aluForms ++ [other.no64, (plain .movToSreg).no64] ++ aluForms ++ [other.no64, reserved],
    -- 10: ADC, SBB
    aluForms ++ [other.no64, (plain .movToSreg).no64]
      ++ aluForms ++ [other.no64, (plain .movToSreg).no64],
    -- 20: AND, SUB
    aluForms ++ [reserved, other.no64] ++ aluForms ++ [reserved, other.no64],
    -- 30: XOR, CMP
    aluForms ++ [reserved, other.no64] ++ cmpForms ++ [reserved, other.no64],
    -- 40: INC, DEC
    times 16 (plain .incDecReg).no64,
    -- 50: PUSH, POP
    times 8 (plain .pushReg).def64 ++ times 8 (plain .popReg).def64,
    -- 60
    times 2 other.no64 ++ [other.rm.no64, other.rm] ++ times 4 reserved
      ++ [(plain .pushImm).def64.imm .iz, other.rm.imm .iz,
        (plain .pushImm).def64.imm .ib, other.rm.imm .ib,
        (plain .io).byte, plain .io, (plain .io).byte, plain .io],
    -- 70: Jcc
    times 16 ((plain .jcc).def64.imm .jb),
    -- 80: group 1, TEST, XCHG, MOV
    [(plain .aluRmImm).ext.byte.lock.imm .ib, (plain .aluRmImm).ext.lock.imm .iz,
      (plain .aluRmImm).ext.byte.no64.lock.imm .ib, (plain .aluRmImm).ext.lock.imm .ib,
      (plain .test).rm.byte, (plain .test).rm, (plain .xchg).rm.byte.lock, (plain .xchg).rm.lock,
      (plain .movRmReg).rm.byte, (plain .movRmReg).rm,
      (plain .movRegRm).rm.byte, (plain .movRegRm).rm,
      (plain .movFromSreg).rm, (plain .lea).rm, (plain .movToSreg).rm, other.rm.def64],
    -- 90
    [plain .nop] ++ times 9 other
      ++ [(plain .farCall).no64.imm .ap, other, other.def64, (plain .popf).def64, other, other],
    -- A0
    [other.byte.imm .moffs, other.imm .moffs, other.byte.imm .moffs, other.imm .moffs]
      ++ times 4 other ++ [other.byte.imm .ib, other.imm .iz] ++ times 6 other,
    -- B0: MOV r, imm
    times 8 ((plain .movRegImm).byte.imm .ib) ++ times 8 ((plain .movRegImm).imm .iv),
    -- C0
    [other.rm.byte.imm .ib, other.rm.imm .ib, (plain .retImm).def64.imm .iw, (plain .ret).def64,
      other.rm.no64, other.rm.no64, (plain .movRmImm).ext.byte.imm .ib,
      (plain .movRmImm).ext.imm .iz, other.def64.imm .iwib, other.def64,
      (plain .farRet).imm .iw, plain .farRet, plain .int3, (plain .intImm).imm .ib,
      (plain .into).no64, plain .iret],
    -- D0
    [other.rm.byte, other.rm, other.rm.byte, other.rm, other.no64.imm .ib, other.no64.imm .ib,
      reserved, other] ++ times 8 other.rm,
    -- E0
    times 4 ((plain .loopRel).def64.imm .jb)
      ++ [(plain .io).byte.imm .ib, (plain .io).imm .ib, (plain .io).byte.imm .ib,
        (plain .io).imm .ib, (plain .callRel).def64.imm .jz, (plain .jmpRel).def64.imm .jz,
        (plain .farJmp).no64.imm .ap, (plain .jmpRel).def64.imm .jb,
        (plain .io).byte, plain .io, (plain .io).byte, plain .io],
    -- F0
    [reserved, other, reserved, reserved, plain .hlt, plain .flagOp,
      other.ext.byte.imm .group3, other.ext.imm .group3, plain .flagOp, plain .flagOp,
      plain .cli, plain .sti, plain .flagOp, plain .flagOp,
      (plain .incDecRm).ext.byte.lock, (plain .incDecRm).ext.lock] ]

/-! ## The two-byte map -/

/-- The rows of the two-byte map, most of which takes a ModRM byte (`build_secondary`). -/
def secondaryRows : List (List OpcodeEntry) :=
  [ -- 00
    [(plain .system).rm, (plain .system).rm, other.rm, other.rm, reserved]
      ++ times 5 (plain .system) ++ [reserved, plain .ud2, reserved, (plain .nop).rm, reserved, reserved],
    -- 10: hints from 18
    times 8 other.rm ++ times 8 (plain .nop).rm,
    -- 20: control and debug registers
    [(plain .movCr).rm, (plain .system).rm, (plain .movCr).rm, (plain .system).rm]
      ++ times 4 reserved ++ times 8 other.rm,
    -- 30
    times 6 (plain .system) ++ [reserved, plain .system, other.rm, reserved, other.rm]
      ++ times 5 reserved,
    -- 40, 50, 60
    times 16 other.rm,
    times 16 other.rm,
    times 16 other.rm,
    -- 70
    times 4 (other.rm.imm .ib) ++ times 3 other.rm ++ [other] ++ times 8 other.rm,
    -- 80: Jcc
    times 16 ((plain .jcc).def64.imm .jz),
    -- 90
    times 16 other.rm,
    -- A0
    [other.def64, other.def64, plain .cpuid, other.rm, other.rm.imm .ib] ++ times 3 other.rm
      ++ [other.def64, other.def64, plain .system, other.rm, other.rm.imm .ib] ++ times 3 other.rm,
    -- B0
    [other.rm.byte.lock, other.rm.lock] ++ times 4 other.rm ++ times 2 (plain .movzx).rm
      ++ times 2 other.rm ++ [other.rm.imm .ib] ++ times 3 other.rm ++ times 2 (plain .movsx).rm,
    -- C0
    [other.rm.byte.lock, other.rm.lock, other.rm.imm .ib, other.rm]
      ++ times 3 (other.rm.imm .ib) ++ [other.rm] ++ times 8 other,
    -- D0, E0
    times 16 other.rm,
    times 16 other.rm,
    -- F0
    times 15 other.rm ++ [(plain .ud2).rm] ]

/-! ## Look-up -/

/-- The one-byte map (`PRIMARY`). -/
def primaryMap : Vector OpcodeEntry 256 :=
  ⟨primaryRows.flatten.toArray, by decide +kernel⟩

/-- The two-byte map (`SECONDARY`). -/
def secondaryMap : Vector OpcodeEntry 256 :=
  ⟨secondaryRows.flatten.toArray, by decide +kernel⟩

/-- The entry of an opcode in its map (part of `parse_opcode`). Opcodes of the three-byte maps take
    a ModRM byte, those of `0F 3A` also an immediate. -/
def entry (m : OpcodeMap) (opcode : UInt8) : OpcodeEntry :=
  match m with
  | .primary => primaryMap.get ⟨opcode.toNat, opcode.toNat_lt⟩
  | .secondary => secondaryMap.get ⟨opcode.toNat, opcode.toNat_lt⟩
  | .escape38 => other.rm
  | .escape3A => other.rm.imm .ib

end OpcodeMap

/-- The operation of an opcode and the flags it adds, given ModRM.reg (`resolve_group`). An opcode
    that is in no group keeps the operation `op` of its entry. -/
def resolveGroup (op : Operation) (opcode reg : UInt8) : Operation × OpcodeFlags :=
  match opcode with
  | 0x80 | 0x81 | 0x82 | 0x83 => (.aluRmImm, {})
  | 0xC6 | 0xC7 => (if reg = 0 then .movRmImm else .invalid, {})
  | 0xF6 | 0xF7 => (if reg < 2 then .test else .unsupported, {})
  | 0xFE => (if reg < 2 then .incDecRm else .invalid, {})
  | 0xFF =>
    match reg with
    | 0 | 1 => (.incDecRm, {})
    | 2 => (.callRm, { default64 := true })
    | 3 => (.farCall, {})
    | 4 => (.jmpRm, { default64 := true })
    | 5 => (.farJmp, {})
    | 6 => (.unsupported, { default64 := true })
    | _ => (.invalid, {})
  | _ => (op, {})

end X86Replay

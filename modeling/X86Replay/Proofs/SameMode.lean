import X86Replay.Cpu.Mode
import X86Replay.Exec.Operand
import X86Replay.Flags.Arithmetic
import Mathlib.Algebra.Group.Nat.Defs
import Mathlib.Order.Defs.Unbundled
import Mathlib.Tactic.SplitIfs

/-!
# What straight-line code leaves alone

* `Cpu.SameSystem`: two processor states that differ in general registers, instruction pointer and
  flags only, and of the flags not in those that control interrupts and modes.
* `Cpu.SameMode`: two processor states that differ in general registers, instruction pointer and
  flags only, and not in the flag of virtual-8086 mode. Code width, privilege level, segments and
  mode flags are then the same.
* `Cpu.Lands`, `Cpu.Passes`: how an instruction that has completed may leave the instruction
  pointer.
-/

namespace X86Replay

/-! ## Flags -/

namespace RFlags

/-- The bits that arithmetic and jumps never change: IF, IOPL, RF and VM. -/
def system : UInt64 :=
  interrupt ||| iopl ||| resume ||| virtual8086

/-- The system bits of two images of RFLAGS are the same. -/
def SameSystem (f g : UInt64) : Prop :=
  g &&& system = f &&& system

/-- The virtual-8086 bit of two images of RFLAGS is the same. -/
def SameVirtual (f g : UInt64) : Prop :=
  g &&& virtual8086 = f &&& virtual8086

theorem SameSystem.trans {f g h : UInt64} (hg : SameSystem f g) (hh : SameSystem g h) :
    SameSystem f h :=
  Eq.trans hh hg

theorem SameSystem.symm {f g : UInt64} (hg : SameSystem f g) : SameSystem g f :=
  Eq.symm hg

/-- Any of the system bits is the same. -/
theorem SameSystem.and_eq {f g : UInt64} (h : SameSystem f g) {bits : UInt64}
    (hbits : system &&& bits = bits) : g &&& bits = f &&& bits := by
  unfold SameSystem at h
  rw [← hbits, ← UInt64.and_assoc, h, UInt64.and_assoc]

theorem SameSystem.virtual {f g : UInt64} (h : SameSystem f g) : SameVirtual f g :=
  h.and_eq (by decide)

theorem SameVirtual.trans {f g h : UInt64} (hg : SameVirtual f g) (hh : SameVirtual g h) :
    SameVirtual f h :=
  Eq.trans hh hg

theorem SameVirtual.symm {f g : UInt64} (hg : SameVirtual f g) : SameVirtual g f :=
  Eq.symm hg

/-- Bits that are joined elsewhere leave a bit alone. -/
theorem or_and_of_disjoint {f mask bit : UInt64} (h : mask &&& bit = 0) :
    (f ||| mask) &&& bit = f &&& bit := by
  have hnat : mask.toNat &&& bit.toNat = 0 := by
    rw [← UInt64.toNat_and, h]
    rfl
  rw [← UInt64.toNat_inj, UInt64.toNat_and, UInt64.toNat_or, Nat.and_or_distrib_right, hnat,
    Nat.or_zero, UInt64.toNat_and]

/-- Bits that are cleared elsewhere leave a bit alone. -/
theorem and_not_and_of_disjoint {f mask bit : UInt64} (h : ~~~mask &&& bit = bit) :
    (f &&& ~~~mask) &&& bit = f &&& bit := by
  rw [UInt64.and_assoc, h]

/-- Flags that are set or cleared elsewhere leave a bit alone. -/
theorem put_and_of_disjoint (f mask : UInt64) {bit : UInt64} (on : Bool) (h : mask &&& bit = 0)
    (h' : ~~~mask &&& bit = bit) : put f mask on &&& bit = f &&& bit := by
  unfold put
  split_ifs
  · exact or_and_of_disjoint h
  · exact and_not_and_of_disjoint h'

/-- Flags that are merged from elsewhere leave a bit alone. -/
theorem merge_and_of_disjoint (f image : UInt64) {mask bit : UInt64} (h : mask &&& bit = 0)
    (h' : ~~~mask &&& bit = bit) : merge f mask image &&& bit = f &&& bit := by
  have himage : image &&& mask &&& bit = 0 := by
    rw [UInt64.and_assoc, h, UInt64.and_zero]
  rw [merge, or_and_of_disjoint himage, and_not_and_of_disjoint h']

theorem sameSystem_store (s : Status) (f : UInt64) : SameSystem f (s.store f) := by
  have hput (g mask : UInt64) (on : Bool) (h : mask &&& system = 0)
      (h' : ~~~mask &&& system = system) : SameSystem g (put g mask on) :=
    put_and_of_disjoint g mask on h h'
  unfold Status.store
  refine (hput f carry s.carry (by decide) (by decide)).trans ?_
  refine (hput _ parity s.parity (by decide) (by decide)).trans ?_
  refine (hput _ adjust s.adjust (by decide) (by decide)).trans ?_
  refine (hput _ zero s.zero (by decide) (by decide)).trans ?_
  refine (hput _ sign s.sign (by decide) (by decide)).trans ?_
  exact hput _ overflow s.overflow (by decide) (by decide)

theorem sameSystem_alu (op : AluOp) (size : OperandSize) (f dest src : UInt64) :
    SameSystem f (alu op size f dest src).2 :=
  sameSystem_store _ f

theorem sameSystem_incDec (dec : Bool) (size : OperandSize) (f value : UInt64) :
    SameSystem f (incDec dec size f value).2 := by
  have hcarry : f &&& carry &&& system = 0 := by
    rw [UInt64.and_assoc, show carry &&& system = 0 by decide, UInt64.and_zero]
  refine (sameSystem_store (if dec then subWithBorrow size value 1 false
    else addWithCarry size value 1 false).2 f).trans ?_
  show (_ &&& ~~~carry ||| f &&& carry) &&& system = _
  rw [or_and_of_disjoint hcarry]
  exact and_not_and_of_disjoint (by decide)

theorem sameSystem_fixed (f : UInt64) : SameSystem f (f ||| fixed) :=
  or_and_of_disjoint (by decide)

end RFlags

/-! ## States of the same system -/

namespace Cpu

/-- The second state differs from the first in general registers, instruction pointer and flags
    only, and not in the system flags. -/
structure SameSystem (c c' : Cpu) : Prop where
  rest : c' = { c with gpr := c'.gpr, rip := c'.rip, rflags := c'.rflags }
  flags : RFlags.SameSystem c.rflags c'.rflags

theorem SameSystem.trans {c c' c'' : Cpu} (h : SameSystem c c') (h' : SameSystem c' c'') :
    SameSystem c c'' := by
  refine ⟨?_, h.flags.trans h'.flags⟩
  rw [h'.rest, h.rest]

instance : IsPreorder Cpu SameSystem where
  refl _ := ⟨rfl, rfl⟩
  trans _ _ _ := SameSystem.trans

theorem sameSystem_setGprAt (c : Cpu) (n : UInt8) (v : UInt64) : SameSystem c (c.setGprAt n v) :=
  ⟨rfl, rfl⟩

theorem sameSystem_writeGpr (c : Cpu) (ref : UInt8) (size : OperandSize) (v : UInt64) :
    SameSystem c (c.writeGpr ref size v) := by
  unfold writeGpr
  split_ifs
  · exact sameSystem_setGprAt c _ _
  · exact sameSystem_setGprAt c _ _

theorem sameSystem_setStackPointer (c : Cpu) (v : UInt64) : SameSystem c (c.setStackPointer v) :=
  sameSystem_setGprAt c _ _

theorem sameSystem_setRip (c : Cpu) (rip : UInt64) : SameSystem c (c.setRip rip) :=
  ⟨rfl, rfl⟩

theorem sameSystem_advanceRip (c : Cpu) (n : UInt64) : SameSystem c (c.advanceRip n) :=
  ⟨rfl, rfl⟩

theorem sameSystem_setRflags (c : Cpu) {flags : UInt64} (h : RFlags.SameSystem c.rflags flags) :
    SameSystem c (c.setRflags flags) :=
  ⟨rfl, h.trans (RFlags.sameSystem_fixed flags)⟩

theorem sameSystem_setFlag (c : Cpu) {mask : UInt64} (on : Bool)
    (h : mask &&& RFlags.system = 0) (h' : ~~~mask &&& RFlags.system = RFlags.system) :
    SameSystem c (c.setFlag mask on) :=
  ⟨rfl, RFlags.put_and_of_disjoint _ _ on h h'⟩

/-- A register and the flags of its increment or decrement. -/
theorem sameSystem_incDec (c : Cpu) (ref : UInt8) (dec : Bool) (size : OperandSize)
    (value result : UInt64) :
    SameSystem c ((c.writeGpr ref size result).setRflags (incDec dec size c.rflags value).2) := by
  have hwrite := c.sameSystem_writeGpr ref size result
  exact hwrite.trans (sameSystem_setRflags _
    (hwrite.flags.symm.trans (RFlags.sameSystem_incDec dec size c.rflags value)))

/-! ## States of the same mode -/

/-- The second state differs from the first in general registers, instruction pointer and flags
    only, and not in the flag of virtual-8086 mode. -/
structure SameMode (c c' : Cpu) : Prop where
  rest : c' = { c with gpr := c'.gpr, rip := c'.rip, rflags := c'.rflags }
  isVirtual : RFlags.SameVirtual c.rflags c'.rflags

theorem SameSystem.mode {c c' : Cpu} (h : SameSystem c c') : SameMode c c' :=
  ⟨h.rest, h.flags.virtual⟩

namespace SameMode

variable {c c' c'' : Cpu}

theorem refl (c : Cpu) : SameMode c c :=
  ⟨rfl, rfl⟩

theorem trans (h : SameMode c c') (h' : SameMode c' c'') : SameMode c c'' := by
  refine ⟨?_, h.isVirtual.trans h'.isVirtual⟩
  rw [h'.rest, h.rest]

theorem segments_eq (h : SameMode c c') : c'.segments = c.segments := by
  rw [h.rest]

theorem seg_eq (h : SameMode c c') (s : SegmentName) : c'.seg s = c.seg s := by
  rw [seg, h.segments_eq, seg]

theorem isProtected_eq (h : SameMode c c') : c'.isProtected = c.isProtected := by
  rw [h.rest]
  rfl

theorem isVirtual8086_eq (h : SameMode c c') : c'.isVirtual8086 = c.isVirtual8086 := by
  have hvirtual := h.isVirtual
  unfold RFlags.SameVirtual at hvirtual
  rw [isVirtual8086, isVirtual8086, h.isProtected_eq, hasFlag, hasFlag, RFlags.has, RFlags.has,
    hvirtual]

theorem isLongMode_eq (h : SameMode c c') : c'.isLongMode = c.isLongMode := by
  rw [h.rest]
  rfl

theorem codeWidth_eq (h : SameMode c c') : c'.codeWidth = c.codeWidth := by
  unfold codeWidth
  rw [h.isVirtual8086_eq, h.isLongMode_eq, h.seg_eq]

theorem is64Bit_eq (h : SameMode c c') : c'.is64Bit = c.is64Bit := by
  rw [is64Bit, is64Bit, h.codeWidth_eq]

theorem cpl_eq (h : SameMode c c') : c'.cpl = c.cpl := by
  unfold cpl
  rw [h.isProtected_eq, h.isVirtual8086_eq, h.seg_eq]

theorem linearIp_eq (h : SameMode c c') (width : CodeWidth) (ip : UInt64) :
    c'.linearIp width ip = c.linearIp width ip := by
  unfold linearIp
  rw [h.seg_eq]

end SameMode

/-! ## Updates -/

theorem rip_writeGpr (c : Cpu) (ref : UInt8) (size : OperandSize) (v : UInt64) :
    (c.writeGpr ref size v).rip = c.rip := by
  unfold writeGpr
  split_ifs
  · rfl
  · rfl

theorem sameMode_setRflags (c : Cpu) {flags : UInt64} (h : RFlags.SameVirtual c.rflags flags) :
    SameMode c (c.setRflags flags) :=
  ⟨rfl, h.trans (RFlags.sameSystem_fixed flags).virtual⟩

theorem sameMode_setFlag (c : Cpu) {mask : UInt64} (on : Bool)
    (h : mask &&& RFlags.virtual8086 = 0)
    (h' : ~~~mask &&& RFlags.virtual8086 = RFlags.virtual8086) : SameMode c (c.setFlag mask on) :=
  ⟨rfl, RFlags.put_and_of_disjoint _ _ on h h'⟩

/-- Registers and flags may differ, the instruction pointer and the mode may not. -/
structure Stays (c c' : Cpu) : Prop where
  mode : SameMode c c'
  rip : c'.rip = c.rip

namespace Stays

variable {c c' c'' : Cpu}

theorem refl (c : Cpu) : Stays c c :=
  ⟨.refl c, rfl⟩

theorem trans (h : Stays c c') (h' : Stays c' c'') : Stays c c'' :=
  ⟨h.mode.trans h'.mode, h'.rip.trans h.rip⟩

theorem writeGpr (c : Cpu) (ref : UInt8) (size : OperandSize) (v : UInt64) :
    Stays c (c.writeGpr ref size v) :=
  ⟨(sameSystem_writeGpr c ref size v).mode, rip_writeGpr c ref size v⟩

theorem setStackPointer (c : Cpu) (v : UInt64) : Stays c (c.setStackPointer v) :=
  ⟨(sameSystem_setStackPointer c v).mode, rfl⟩

theorem setRflags (c : Cpu) {flags : UInt64} (h : RFlags.SameVirtual c.rflags flags) :
    Stays c (c.setRflags flags) :=
  ⟨sameMode_setRflags c h, rfl⟩

end Stays

/-! ## The instruction pointer -/

/-- Straight-line code of `n` bytes has been passed. -/
structure Passes (n : UInt64) (c c' : Cpu) : Prop where
  mode : SameMode c c'
  rip : c'.rip = (c.rip + n) &&& c.codeWidth.ipLimit

theorem Stays.passes {c c' : Cpu} (h : Stays c c') (n : UInt64) :
    Passes n c (c'.advanceRip n) := by
  refine ⟨h.mode.trans (sameSystem_advanceRip c' n).mode, ?_⟩
  show (c'.rip + n) &&& c'.codeWidth.ipLimit = _
  rw [h.rip, h.mode.codeWidth_eq]

/-- The instruction pointer is one that the code can load. -/
def InRange (c : Cpu) : Prop :=
  c.rip ≤ c.ripMask

theorem ipLimit_le_ripMask (w : CodeWidth) : w.ipLimit ≤ w.ripMask := by
  cases w <;> decide

theorem toNat_and_ipLimit (w : CodeWidth) (x : UInt64) :
    (x &&& w.ipLimit).toNat = x.toNat % 2 ^ w.bits := by
  rw [UInt64.toNat_and]
  cases w with
  | bits16 => exact Nat.and_two_pow_sub_one_eq_mod x.toNat 16
  | bits32 => exact Nat.and_two_pow_sub_one_eq_mod x.toNat 32
  | bits64 => exact Nat.and_two_pow_sub_one_eq_mod x.toNat 64

/-- An instruction pointer that does not go too far does not wrap. -/
theorem and_ipLimit_of_le {w : CodeWidth} {rip : UInt64} (h : rip ≤ w.ipLimit) :
    rip &&& w.ipLimit = rip := by
  have hlimit : w.ipLimit.toNat < 2 ^ w.bits := by cases w <;> decide
  rw [UInt64.le_iff_toNat_le] at h
  rw [← UInt64.toNat_inj, toNat_and_ipLimit, Nat.mod_eq_of_lt (by omega)]

/-- In a segment that starts at address zero the instruction pointer is the linear address. -/
theorem linearIp_of_base_zero {c : Cpu} (hbase : (c.seg .cs).base = 0) (hrip : c.InRange) :
    c.linearIp c.codeWidth c.rip = c.rip := by
  unfold InRange ripMask at hrip
  unfold linearIp
  rw [hbase, UInt64.zero_add]
  cases hwidth : c.codeWidth with
  | bits64 => rfl
  | bits16 | bits32 =>
    rw [hwidth] at hrip
    exact and_ipLimit_of_le (w := .bits32) hrip

/-- Straight-line code from the same linear address leads to the same instruction pointer. -/
theorem add_and_ipLimit_of_linearIp_eq {c : Cpu} {w : CodeWidth} {x y : UInt64}
    (h : c.linearIp w x = c.linearIp w y) (n : UInt64) :
    (x + n) &&& w.ipLimit = (y + n) &&& w.ipLimit := by
  have hmod (h : ((c.seg .cs).base + x) &&& CodeWidth.bits32.ipLimit =
      ((c.seg .cs).base + y) &&& CodeWidth.bits32.ipLimit) :
      x.toNat % 2 ^ 32 = y.toNat % 2 ^ 32 := by
    rw [← UInt64.toNat_inj, toNat_and_ipLimit, toNat_and_ipLimit, UInt64.toNat_add,
      UInt64.toNat_add, CodeWidth.bits] at h
    omega
  cases w with
  | bits64 => rw [show x = y from h]
  | bits16 | bits32 =>
    have hxy := hmod h
    rw [← UInt64.toNat_inj, toNat_and_ipLimit, toNat_and_ipLimit, UInt64.toNat_add,
      UInt64.toNat_add, CodeWidth.bits]
    omega

theorem inRange_setRip (c : Cpu) (rip : UInt64) : (c.setRip rip).InRange :=
  UInt64.and_le_right

theorem Passes.inRange {n : UInt64} {c c' : Cpu} (h : Passes n c c') : c'.InRange := by
  unfold InRange ripMask
  rw [h.rip, h.mode.codeWidth_eq]
  exact UInt64.le_trans UInt64.and_le_right (ipLimit_le_ripMask _)

theorem inRange_advanceRip (c : Cpu) (n : UInt64) : (c.advanceRip n).InRange :=
  ((Stays.refl c).passes n).inRange

end Cpu

end X86Replay

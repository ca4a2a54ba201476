import X86Replay.Memory.Sparse
import X86Replay.Proofs.Faulting

/-!
# Frames of far transfers

In real mode a far call stores the frame that two pushes would store, and returns take what as many
pops would take. The slots of a frame are found in two ways, though: a push or a pop cuts each slot
to the width of the stack, a far transfer cuts only the lowest one and counts on from there.

* `AddressSize.toNat_and`, `Cpu.stackPointer_setStackPointer`: stack pointers, cut to their width.
* `Exec.push_ok`, `Exec.pop_ok`: pushes and pops that succeed.
* `Instruction.lastSlot`: the highest slot of the frame, as a far transfer finds it.
* `farFrame_call`, `farTarget_of_pops`: where it does not wrap, the frame is that of pushes and
  pops.
* `callBeyond`, `retBeyond`, `iretBeyond`: transfers that find their slots beyond that width.
* `farCall_ends`, `farRet_ends`, `iret_ends`: how a far transfer ends where it wraps: with a fault,
  or beyond the width if the stack segment reaches there.
* `far_eq_pushes_pops`: calls and returns side by side.
* `far_ne_pushes_pops`: a call and a return that fault where pushes and pops succeed.
-/

namespace X86Replay

/-! ## Stack pointers -/

namespace AddressSize

variable (s : AddressSize)

theorem toNat_and (x : UInt64) : (x &&& s.mask).toNat = x.toNat % 2 ^ s.bits := by
  rw [UInt64.toNat_and]
  cases s with
  | bits16 => exact Nat.and_two_pow_sub_one_eq_mod x.toNat 16
  | bits32 => exact Nat.and_two_pow_sub_one_eq_mod x.toNat 32
  | bits64 => exact Nat.and_two_pow_sub_one_eq_mod x.toNat 64

theorem toNat_mask : s.mask.toNat = 2 ^ s.bits - 1 := by
  cases s <;> rfl

theorem two_pow_dvd : 2 ^ s.bits ∣ 2 ^ 64 := by
  cases s <;> decide

/-- A slot that does not wrap is not cut. -/
theorem and_mask_of_le {s : AddressSize} {x : UInt64} (h : x ≤ s.mask) : x &&& s.mask = x := by
  have hpos : 0 < 2 ^ s.bits := Nat.two_pow_pos _
  rw [UInt64.le_iff_toNat_le, toNat_mask] at h
  rw [← UInt64.toNat_inj, toNat_and, Nat.mod_eq_of_lt (by omega)]

/-- Cutting an address before something is added to it makes no difference once the sum is cut. -/
theorem and_mask_add (x y : UInt64) : ((x &&& s.mask) + y) &&& s.mask = (x + y) &&& s.mask := by
  rw [← UInt64.toNat_inj, toNat_and, toNat_and, UInt64.toNat_add, UInt64.toNat_add, toNat_and,
    Nat.mod_mod_of_dvd _ s.two_pow_dvd, Nat.mod_mod_of_dvd _ s.two_pow_dvd, Nat.mod_add_mod]

theorem and_mask_sub (x y : UInt64) : ((x &&& s.mask) - y) &&& s.mask = (x - y) &&& s.mask := by
  rw [UInt64.sub_eq_add_neg, UInt64.sub_eq_add_neg, and_mask_add]

end AddressSize

/-- The bits of a mask after they have been replaced. -/
theorem merge_and (x v mask : UInt64) : ((x &&& ~~~mask) ||| (v &&& mask)) &&& mask = v &&& mask := by
  rw [← UInt64.toBitVec_inj]
  ext k hk
  simp only [UInt64.toBitVec_and, UInt64.toBitVec_or, UInt64.toBitVec_not, BitVec.getElem_and,
    BitVec.getElem_or, BitVec.getElem_not]
  cases mask.toBitVec[k] <;> simp

/-- The bits beside a mask after those in it have been replaced. -/
theorem merge_and_not (x v mask : UInt64) :
    ((x &&& ~~~mask) ||| (v &&& mask)) &&& ~~~mask = x &&& ~~~mask := by
  rw [← UInt64.toBitVec_inj]
  ext k hk
  simp only [UInt64.toBitVec_and, UInt64.toBitVec_or, UInt64.toBitVec_not, BitVec.getElem_and,
    BitVec.getElem_or, BitVec.getElem_not]
  cases mask.toBitVec[k] <;> simp

namespace Cpu

variable (c : Cpu)

theorem gprAt_setGprAt (n : UInt8) (v : UInt64) : (c.setGprAt n v).gprAt n = v := by
  show (c.gpr.set (gprSlot n).val v (gprSlot n).isLt)[(gprSlot n).val] = v
  exact Vector.getElem_set_self _

theorem setGprAt_setGprAt (n : UInt8) (v w : UInt64) :
    (c.setGprAt n v).setGprAt n w = c.setGprAt n w := by
  simp [setGprAt]

theorem stackPointer_setStackPointer (v : UInt64) :
    (c.setStackPointer v).stackPointer = v &&& c.stackAddressSize.mask := by
  have hsize : (c.setStackPointer v).stackAddressSize = c.stackAddressSize := rfl
  rw [stackPointer, hsize, setStackPointer, gprAt_setGprAt, merge_and]

/-- The last of two values of the stack pointer counts. -/
theorem setStackPointer_setStackPointer (v w : UInt64) :
    (c.setStackPointer v).setStackPointer w = c.setStackPointer w := by
  have hsize : (c.setStackPointer v).stackAddressSize = c.stackAddressSize := rfl
  rw [setStackPointer, hsize]
  unfold setStackPointer
  rw [gprAt_setGprAt, merge_and_not, setGprAt_setGprAt]

/-- Only the bits in the width of the stack count. -/
theorem setStackPointer_congr {v w : UInt64}
    (h : v &&& c.stackAddressSize.mask = w &&& c.stackAddressSize.mask) :
    c.setStackPointer v = c.setStackPointer w := by
  unfold setStackPointer
  dsimp only
  rw [h]

/-- The stack pointer is no part of the mode. -/
theorem sameMode_of_setStackPointer (v : UInt64) : (c.setStackPointer v).SameMode c :=
  ⟨rfl, (c.sameSystem_setStackPointer v).mode.isVirtual.symm⟩

/-- The slot that a push stores to. -/
def pushSlot (size : OperandSize) : UInt64 :=
  (c.stackPointer - size.step) &&& c.stackAddressSize.mask

/-- In 64-bit code no slot wraps. -/
theorem is64Bit_of_mask_lt {x : UInt64} (h : c.stackAddressSize.mask < x) : c.is64Bit = false := by
  cases h64 : c.is64Bit with
  | false => rfl
  | true =>
    have hsize : c.stackAddressSize = .bits64 := if_pos h64
    rw [hsize, UInt64.lt_iff_toNat_lt] at h
    have := x.toNat_lt
    exact absurd h (by show ¬ 2 ^ 64 - 1 < x.toNat; omega)

/-- An offset above the limit of the stack segment faults. -/
theorem linearAddress_of_limit_lt {x : UInt64} (h64 : c.is64Bit = false)
    (h : (c.seg .ss).limit.toUInt64 < x) (n : UInt64) (write : Bool) :
    c.linearAddress .ss x n write = .error (.stackFault 0) := by
  unfold linearAddress
  rw [h64, if_neg Bool.false_ne_true]
  dsimp only
  rw [if_pos]
  · rfl
  · rw [Bool.or_eq_true, Bool.or_eq_true, decide_eq_true_eq, decide_eq_true_eq]
    by_cases hlast : x + (n - 1) < x
    · exact .inl (.inr hlast)
    · exact .inl (.inl (UInt64.lt_of_lt_of_le h (UInt64.not_lt.1 hlast)))

namespace SameMode

variable {c c' : Cpu}

theorem linearAddress_eq (h : SameMode c c') (s : SegmentName) (offset n : UInt64) (write : Bool) :
    c'.linearAddress s offset n write = c.linearAddress s offset n write := by
  unfold linearAddress base64 forbidsWrite
  rw [h.is64Bit_eq, h.seg_eq, h.isProtected_eq, h.isVirtual8086_eq]

end SameMode

end Cpu

variable {M : Type} [GuestMemory M]

namespace Exec

/-! ## Pushes and pops -/

section

variable {c c' : Cpu} {m m' : Machine M} {s : SegmentName} {offset v : UInt64} {size : OperandSize}

/-- Where a store goes depends on the mode alone. -/
theorem writeMem_of_sameMode (h : c.SameMode c') {mem mem' : M} {log log' : Array PhysSpan}
    {r : Except Exception Unit}
    (hwrite : writeMem s offset size v ⟨c, mem, log⟩ = (r, ⟨c, mem', log'⟩)) :
    writeMem s offset size v ⟨c', mem, log⟩ = (r, ⟨c', mem', log'⟩) := by
  unfold writeMem at hwrite ⊢
  dsimp only at hwrite ⊢
  rw [h.linearAddress_eq, h.cpl_eq]
  split at hwrite
  · cases hwrite
    rfl
  · cases hwrite
    rfl

/-- Where a load comes from depends on the mode alone. -/
theorem readMem_of_sameMode (h : c.SameMode c') {mem : M} {log log' : Array PhysSpan}
    {r : Except Exception UInt64}
    (hread : readMem s offset size ⟨c, mem, log⟩ = (r, ⟨c, mem, log⟩)) :
    readMem s offset size ⟨c', mem, log'⟩ = (r, ⟨c', mem, log'⟩) := by
  unfold readMem at hread ⊢
  rw [check_apply] at hread ⊢
  dsimp only at hread ⊢
  rw [h.linearAddress_eq, h.cpl_eq, (Prod.mk.inj hread).1]

theorem push_ok (h : push size v m = (.ok (), m')) :
    ∃ mem log, writeMem .ss (m.cpu.pushSlot size) size v m = (.ok (), ⟨m.cpu, mem, log⟩) ∧
      m' = ⟨m.cpu.setStackPointer (m.cpu.pushSlot size), mem, log⟩ := by
  unfold push at h
  rw [bind_apply, cpu_apply] at h
  obtain ⟨_, m₁, hwrite, hset⟩ := bind_ok.1 h
  obtain ⟨cpu₁, mem₁, log₁⟩ := m₁
  obtain rfl : cpu₁ = m.cpu := (query_writeMem _ _ _ _).post hwrite
  cases hset
  exact ⟨mem₁, log₁, hwrite, rfl⟩

theorem pop_ok (h : pop size m = (.ok v, m')) :
    readMem .ss m.cpu.stackPointer size m = (.ok v, m) ∧
      m' = { m with cpu := m.cpu.setStackPointer (m.cpu.stackPointer + size.step) } := by
  unfold pop at h
  rw [bind_apply, cpu_apply] at h
  obtain ⟨v', m₁, hread, hset⟩ := bind_ok.1 h
  obtain rfl : m₁ = m := (inspects_readMem _ _ _).eq hread
  cases hset
  exact ⟨hread, rfl⟩

/-- A pop from a given offset loads what lies there before the stack pointer is set to it. -/
theorem pop_ok_of_setStackPointer {x : UInt64}
    (h : pop size { m with cpu := m.cpu.setStackPointer x } = (.ok v, m')) :
    readMem .ss (x &&& m.cpu.stackAddressSize.mask) size m = (.ok v, m) ∧
      m' = { m with cpu := m.cpu.setStackPointer (x + size.step) } := by
  obtain ⟨hread, rfl⟩ := pop_ok h
  obtain ⟨c, mem, log⟩ := m
  dsimp only at hread ⊢
  rw [Cpu.stackPointer_setStackPointer] at hread ⊢
  refine ⟨readMem_of_sameMode (c.sameMode_of_setStackPointer x) hread, ?_⟩
  rw [Cpu.setStackPointer_setStackPointer, c.setStackPointer_congr (AddressSize.and_mask_add _ _ _)]

end

/-- A load above the limit of the stack segment faults. -/
theorem readMem_of_limit_lt {m : Machine M} {x : UInt64} (h64 : m.cpu.is64Bit = false)
    (h : (m.cpu.seg .ss).limit.toUInt64 < x) (size : OperandSize) :
    readMem .ss x size m = (.error (.stackFault 0), m) := by
  unfold readMem
  rw [check_apply, m.cpu.linearAddress_of_limit_lt h64 h]
  rfl

theorem writeMem_of_limit_lt {m : Machine M} {x : UInt64} (h64 : m.cpu.is64Bit = false)
    (h : (m.cpu.seg .ss).limit.toUInt64 < x) (size : OperandSize) (v : UInt64) :
    writeMem .ss x size v m = (.error (.stackFault 0), m) := by
  obtain ⟨cpu, mem, log⟩ := m
  unfold writeMem
  dsimp only
  rw [cpu.linearAddress_of_limit_lt h64 h]
  rfl

/-- The frame of a far call, pushed slot by slot. -/
def pushFrame (i : Instruction) : Exec M Unit := do
  let c ← cpu
  push i.operandSize (c.seg .cs).selector.toUInt64
  push i.operandSize (i.nextRip c)

/-- The target of a far return, popped slot by slot. -/
def popTarget (i : Instruction) : Exec M (UInt64 × UInt16) := do
  let offset ← pop i.operandSize
  let selector ← pop i.operandSize
  return (offset, selector.toUInt16)

/-- The target and the flags of an interrupt return, popped slot by slot. -/
def popFrame (i : Instruction) : Exec M ((UInt64 × UInt16) × UInt64) := do
  let target ← popTarget i
  let flags ← pop i.operandSize
  return (target, flags)

end Exec

namespace Instruction

/-- The highest slot of the frame of a far call or return, as it is found from the lowest one. -/
def lastSlot (i : Instruction) (cpu : Cpu) : UInt64 :=
  match i.operation with
  | .farCall => i.callFrame cpu + i.operandSize.step
  | .iret => cpu.stackPointer + 2 * i.operandSize.step
  | _ => cpu.stackPointer + i.operandSize.step

/-- The machine where a far transfer has arrived. -/
def arrive (i : Instruction) (offset : UInt64) (selector : UInt16) (m : Machine M) : Machine M :=
  { m with cpu := (m.cpu.setSeg .cs (.realCode selector)).setRip (offset &&& i.operandSize.mask) }

/-- Ends a far transfer at an offset of a segment. -/
def arriveAt (i : Instruction) (offset : UInt64) (selector : UInt16) : Exec M Outcome := do
  Exec.modifyCpu fun c => (c.setSeg .cs (.realCode selector)).setRip (offset &&& i.operandSize.mask)
  return if i.operation = .iret then .leave else .proceed

/-- A far call whose selector is stored behind the offset, wherever that is. -/
def callBeyond (i : Instruction) (offset : UInt64) (selector : UInt16) : Exec M Outcome := do
  let c ← Exec.cpu
  Exec.writeMem .ss (i.callFrame c + i.operandSize.step) i.operandSize
    (c.seg .cs).selector.toUInt64
  Exec.writeMem .ss (i.callFrame c) i.operandSize (i.nextRip c)
  Exec.modifyCpu (·.setStackPointer (i.callFrame c))
  i.arriveAt offset selector

/-- A far return whose selector is loaded from behind the offset, wherever that is. -/
def retBeyond (i : Instruction) (offset : UInt64) : Exec M Outcome := do
  let c ← Exec.cpu
  let selector ← Exec.readMem .ss (c.stackPointer + i.operandSize.step) i.operandSize
  Exec.modifyCpu (·.setStackPointer (c.stackPointer + 2 * i.operandSize.step + i.imm))
  i.arriveAt offset selector.toUInt16

/-- An interrupt return whose selector and flags are loaded from behind the offset. -/
def iretBeyond (i : Instruction) (offset : UInt64) : Exec M Outcome := do
  let c ← Exec.cpu
  let selector ← Exec.readMem .ss (c.stackPointer + i.operandSize.step) i.operandSize
  let flags ← Exec.readMem .ss (c.stackPointer + 2 * i.operandSize.step) i.operandSize
  Exec.modifyCpu fun c' =>
    (c'.setStackPointer (c.stackPointer + 3 * i.operandSize.step)).popFlags flags i.operandSize
  i.arriveAt offset selector.toUInt16

/-- A far transfer ends in a given way if its frame does not wrap. If it does, and the stack segment
    does not reach past the width of the stack, the transfer faults and changes nothing; if the
    segment does, the transfer uses the slots beyond the width and ends in another given way. -/
def EndsUnlessWrapped (i : Instruction) (m : Machine M) (r : Except Exception Outcome × Machine M)
    (beyond : Except Exception Outcome × Machine M) : Prop :=
  (i.lastSlot m.cpu ≤ m.cpu.stackAddressSize.mask → Exec.execute i m = r) ∧
    (m.cpu.stackAddressSize.mask < i.lastSlot m.cpu →
      (m.cpu.seg .ss).limit.toUInt64 ≤ m.cpu.stackAddressSize.mask →
      Exec.execute i m = (.error (.stackFault 0), m)) ∧
    (m.cpu.stackAddressSize.mask < i.lastSlot m.cpu →
      m.cpu.stackAddressSize.mask < (m.cpu.seg .ss).limit.toUInt64 →
      Exec.execute i m = beyond)

end Instruction

namespace Exec

variable {i : Instruction} {m m' : Machine M} {offset flags : UInt64} {selector : UInt16}

/-! ## Slots -/

/-- Two pushes store to the slots of a far call if its frame does not wrap. -/
theorem callFrame_eq {c : Cpu}
    (h : i.callFrame c + i.operandSize.step ≤ c.stackAddressSize.mask) :
    i.callFrame c + i.operandSize.step = c.pushSlot i.operandSize ∧
      (c.setStackPointer (c.pushSlot i.operandSize)).pushSlot i.operandSize = i.callFrame c := by
  generalize hstep : i.operandSize.step = n at h ⊢
  have hframe : i.callFrame c = (c.stackPointer - 2 * n) &&& c.stackAddressSize.mask := by
    rw [Instruction.callFrame, hstep]
  have hsize : (c.setStackPointer (c.pushSlot i.operandSize)).stackAddressSize =
    c.stackAddressSize := rfl
  constructor
  · have hsub : c.stackPointer - 2 * n + n = c.stackPointer - n := by grind
    rw [← AddressSize.and_mask_of_le h, hframe, AddressSize.and_mask_add, hsub, Cpu.pushSlot, hstep]
  · have hsub : c.stackPointer - n - n = c.stackPointer - 2 * n := by grind
    rw [Cpu.pushSlot, hsize, Cpu.stackPointer_setStackPointer, AddressSize.and_mask_sub,
      Cpu.pushSlot, hstep, AddressSize.and_mask_sub, hsub, hframe]

/-! ## Frames -/

/-- **A far call stores the frame of two pushes** if it does not wrap. -/
theorem farFrame_call (hop : i.operation = .farCall)
    (hfits : i.lastSlot m.cpu ≤ m.cpu.stackAddressSize.mask) (h : pushFrame i m = (.ok (), m')) :
    farFrame i m = (.ok (), m') := by
  unfold pushFrame at h
  rw [bind_apply, cpu_apply] at h
  obtain ⟨_, m₁, hpush₁, hpush₂⟩ := bind_ok.1 h
  obtain ⟨mem₁, log₁, hselector, rfl⟩ := push_ok hpush₁
  obtain ⟨mem₂, log₂, hoffset, rfl⟩ := push_ok hpush₂
  have hslots : i.callFrame m.cpu + i.operandSize.step ≤ m.cpu.stackAddressSize.mask := by
    rwa [Instruction.lastSlot, hop] at hfits
  obtain ⟨hhigh, hlow⟩ := callFrame_eq hslots
  dsimp only at hoffset ⊢
  rw [hlow] at hoffset ⊢
  -- The second push sees the stack pointer of the first one, which changes no address.
  have hback := m.cpu.sameMode_of_setStackPointer (m.cpu.pushSlot i.operandSize)
  rw [farFrame_of_farCall hop, bind_apply, cpu_apply]
  dsimp only
  rw [hhigh, bind_apply, hselector]
  dsimp only
  rw [bind_apply, writeMem_of_sameMode hback hoffset, Cpu.setStackPointer_setStackPointer]
  rfl

/-- The target of a return is read from the two lowest slots. -/
theorem farTarget_of_return (hop : i.operation = .farRet ∨ i.operation = .iret) :
    (farTarget i : Exec M (UInt64 × UInt16)) = (do
      let c ← cpu
      let offset ← readMem .ss c.stackPointer i.operandSize
      let selector ← readMem .ss (c.stackPointer + i.operandSize.step) i.operandSize
      return (offset, selector.toUInt16)) := by
  unfold farTarget
  obtain hop | hop := hop
  · simp [hop]
  · simp [hop]

/-- The frame of a far return is released with what its operand asks for. -/
theorem farFrame_of_farRet (hop : i.operation = .farRet) :
    (farFrame i : Exec M Unit) = (do
      let c ← cpu
      modifyCpu (·.setStackPointer (c.stackPointer + 2 * i.operandSize.step + i.imm))) := by
  unfold farFrame
  simp only [hop]

/-- The flags of an interrupt return are read from the slot above its target. -/
theorem farFrame_of_iret (hop : i.operation = .iret) :
    (farFrame i : Exec M Unit) = (do
      let c ← cpu
      let flags ← readMem .ss (c.stackPointer + 2 * i.operandSize.step) i.operandSize
      modifyCpu fun c' => (c'.setStackPointer (c.stackPointer + 3 * i.operandSize.step)).popFlags
        flags i.operandSize) := by
  unfold farFrame
  simp only [hop]

/-- What two pops have read, and where they leave the stack pointer. -/
theorem popTarget_ok (h : popTarget i m = (.ok (offset, selector), m')) :
    readMem .ss m.cpu.stackPointer i.operandSize m = (.ok offset, m) ∧
      (∃ v, selector = v.toUInt16 ∧ readMem .ss
        ((m.cpu.stackPointer + i.operandSize.step) &&& m.cpu.stackAddressSize.mask)
        i.operandSize m = (.ok v, m)) ∧
      m' = { m with cpu :=
        m.cpu.setStackPointer (m.cpu.stackPointer + 2 * i.operandSize.step) } := by
  unfold popTarget at h
  obtain ⟨o, m₁, hpop₁, h₁⟩ := bind_ok.1 h
  obtain ⟨v, m₂, hpop₂, h₂⟩ := bind_ok.1 h₁
  cases h₂
  obtain ⟨hoffset, rfl⟩ := pop_ok hpop₁
  obtain ⟨hselector, rfl⟩ := pop_ok_of_setStackPointer hpop₂
  have hsum : m.cpu.stackPointer + i.operandSize.step + i.operandSize.step =
      m.cpu.stackPointer + 2 * i.operandSize.step := by grind
  exact ⟨hoffset, ⟨v, rfl, hselector⟩, by rw [hsum]⟩

/-- What a third pop reads, and where it leaves the stack pointer. -/
theorem popFrame_ok (h : popFrame i m = (.ok ((offset, selector), flags), m')) :
    (∃ m₁, popTarget i m = (.ok (offset, selector), m₁)) ∧
      readMem .ss ((m.cpu.stackPointer + 2 * i.operandSize.step) &&& m.cpu.stackAddressSize.mask)
        i.operandSize m = (.ok flags, m) ∧
      m' = { m with cpu :=
        m.cpu.setStackPointer (m.cpu.stackPointer + 3 * i.operandSize.step) } := by
  unfold popFrame at h
  obtain ⟨target, m₁, htarget, h₁⟩ := bind_ok.1 h
  obtain ⟨v, m₂, hpop, h₂⟩ := bind_ok.1 h₁
  cases h₂
  obtain ⟨-, -, rfl⟩ := popTarget_ok htarget
  obtain ⟨hflags, rfl⟩ := pop_ok_of_setStackPointer hpop
  have hsum : m.cpu.stackPointer + 2 * i.operandSize.step + i.operandSize.step =
      m.cpu.stackPointer + 3 * i.operandSize.step := by grind
  exact ⟨⟨_, htarget⟩, hflags, by rw [hsum]⟩

/-- **A far return takes the target of two pops** if its slot does not wrap. -/
theorem farTarget_of_pops (hop : i.operation = .farRet ∨ i.operation = .iret)
    (hfits : m.cpu.stackPointer + i.operandSize.step ≤ m.cpu.stackAddressSize.mask)
    (h : popTarget i m = (.ok (offset, selector), m')) :
    farTarget i m = (.ok (offset, selector), m) := by
  obtain ⟨hoffset, ⟨v, rfl, hselector⟩, -⟩ := popTarget_ok h
  rw [AddressSize.and_mask_of_le hfits] at hselector
  rw [farTarget_of_return hop, bind_apply, cpu_apply]
  dsimp only
  rw [bind_apply, hoffset]
  dsimp only
  rw [bind_apply, hselector]
  rfl

/-- The slot of the selector faults if it wraps. -/
theorem farTarget_stackFault (hop : i.operation = .farRet ∨ i.operation = .iret)
    (hwraps : m.cpu.stackAddressSize.mask < m.cpu.stackPointer + i.operandSize.step)
    (hlimit : (m.cpu.seg .ss).limit.toUInt64 ≤ m.cpu.stackAddressSize.mask)
    (hoffset : readMem .ss m.cpu.stackPointer i.operandSize m = (.ok offset, m)) :
    farTarget i m = (.error (.stackFault 0), m) := by
  have h64 := m.cpu.is64Bit_of_mask_lt hwraps
  rw [farTarget_of_return hop, bind_apply, cpu_apply]
  dsimp only
  rw [bind_apply, hoffset]
  dsimp only
  rw [bind_apply, readMem_of_limit_lt h64 (UInt64.lt_of_le_of_lt hlimit hwraps)]

/-! ## Transfers -/

/-- In real mode a far transfer without a target faults. -/
theorem farTransfer_of_target_error {e : Exception} (hreal : m.cpu.isProtected = false)
    (htarget : farTarget i m = (.error e, m)) : farTransfer i m = (.error e, m) := by
  unfold farTransfer
  rw [bind_apply, cpu_apply]
  dsimp only
  rw [if_neg (by rw [hreal]; exact Bool.false_ne_true), bind_apply, htarget]

/-- In real mode a far transfer with a valid target is its frame and the arrival. -/
theorem farTransfer_eq_arriveAt (hreal : m.cpu.isProtected = false)
    (htarget : farTarget i m = (.ok (offset, selector), m))
    (hoffset : offset &&& i.operandSize.mask ≤ 0xFFFF) :
    farTransfer i m = (do farFrame i; i.arriveAt offset selector) m := by
  unfold farTransfer
  rw [bind_apply, cpu_apply]
  dsimp only
  rw [if_neg (by rw [hreal]; exact Bool.false_ne_true), bind_apply, htarget]
  dsimp only
  rw [bind_apply, require_apply, if_pos (decide_eq_true hoffset)]
  rfl

/-- In real mode a far transfer with a valid target stands and falls with its frame. -/
theorem farTransfer_of_target (hreal : m.cpu.isProtected = false)
    (htarget : farTarget i m = (.ok (offset, selector), m))
    (hoffset : offset &&& i.operandSize.mask ≤ 0xFFFF) :
    farTransfer i m =
      match farFrame i m with
      | (.ok (), m') =>
        (.ok (if i.operation = .iret then .leave else .proceed), i.arrive offset selector m')
      | (.error e, m') => (.error e, m') := by
  rw [farTransfer_eq_arriveAt hreal htarget hoffset, bind_apply]
  rcases farFrame i m with ⟨e | _, m'⟩ <;> rfl

/-- In real mode a far return with a valid offset loads the selector and then its frame. -/
theorem farTransfer_of_return (hreal : m.cpu.isProtected = false)
    (hop : i.operation = .farRet ∨ i.operation = .iret)
    (hread : readMem .ss m.cpu.stackPointer i.operandSize m = (.ok offset, m))
    (hoffset : offset &&& i.operandSize.mask ≤ 0xFFFF) :
    farTransfer i m = (do
      let selector ← readMem .ss (m.cpu.stackPointer + i.operandSize.step) i.operandSize
      farFrame i
      i.arriveAt offset selector.toUInt16) m := by
  have htarget : farTarget i m = (do
      let v ← readMem .ss (m.cpu.stackPointer + i.operandSize.step) i.operandSize
      return (offset, v.toUInt16)) m := by
    rw [farTarget_of_return hop, bind_apply, cpu_apply]
    dsimp only
    rw [bind_apply, hread]
  rw [bind_apply] at htarget ⊢
  rcases hselector : readMem .ss (m.cpu.stackPointer + i.operandSize.step) i.operandSize m with
    ⟨e | v, m₁⟩
  all_goals
    obtain rfl : m₁ = m := (inspects_readMem _ _ _).eq hselector
    rw [hselector] at htarget
  · exact farTransfer_of_target_error hreal htarget
  · exact farTransfer_eq_arriveAt hreal htarget hoffset

/-- A far transfer whose lock is not refused is executed. -/
theorem execute_far (hlock : i.prefixes.lock = true → i.lockIsValid = true)
    (hop : i.operation = .farCall ∨ i.operation = .farRet ∨ i.operation = .iret) :
    (execute i : Exec M Outcome) = farTransfer i := by
  have hvalid : (i.prefixes.lock && !i.lockIsValid) = false := by
    cases hl : i.prefixes.lock with
    | false => rfl
    | true => rw [hlock hl]; rfl
  unfold execute
  rw [hvalid, if_neg Bool.false_ne_true]
  obtain hop | hop | hop := hop
  · rw [hop]
  · rw [hop]
  · rw [hop]

/-- If the highest of three slots does not wrap, the one in the middle does not either. -/
theorem add_step_le {c : Cpu} {size : OperandSize}
    (h : c.stackPointer + 2 * size.step ≤ c.stackAddressSize.mask) :
    c.stackPointer + size.step ≤ c.stackAddressSize.mask := by
  have hsp : c.stackPointer ≤ c.stackAddressSize.mask := UInt64.and_le_right
  have hstep : size.step.toNat ≤ 8 := by cases size <;> decide
  have hdouble : (2 * size.step).toNat = 2 * size.step.toNat := by cases size <;> rfl
  have hbits : c.stackAddressSize.bits = 16 ∨ c.stackAddressSize.bits = 32 ∨
      c.stackAddressSize.bits = 64 := by
    cases c.stackAddressSize <;> decide
  rw [UInt64.le_iff_toNat_le, AddressSize.toNat_mask] at h hsp ⊢
  rw [UInt64.toNat_add] at h ⊢
  rw [hdouble] at h
  obtain hbits | hbits | hbits := hbits
  all_goals
    rw [hbits] at h hsp ⊢
    omega

/-! ## Calls and returns -/

theorem farCall_ends (hreal : m.cpu.isProtected = false)
    (hlock : i.prefixes.lock = true → i.lockIsValid = true) (hop : i.operation = .farCall)
    (htarget : farTarget i m = (.ok (offset, selector), m))
    (hoffset : offset &&& i.operandSize.mask ≤ 0xFFFF) (h : pushFrame i m = (.ok (), m')) :
    i.EndsUnlessWrapped m (.ok .proceed, i.arrive offset selector m')
      (i.callBeyond offset selector m) := by
  unfold Instruction.EndsUnlessWrapped
  rw [execute_far hlock (.inl hop)]
  refine ⟨fun hfits => ?_, fun hwraps hlimit => ?_, fun _ _ => ?_⟩
  · rw [farTransfer_of_target hreal htarget hoffset, farFrame_call hop hfits h, hop]
    rfl
  · have h64 := m.cpu.is64Bit_of_mask_lt hwraps
    have hslot : i.lastSlot m.cpu = i.callFrame m.cpu + i.operandSize.step := by
      rw [Instruction.lastSlot, hop]
    rw [hslot] at hwraps
    rw [farTransfer_of_target hreal htarget hoffset, farFrame_of_farCall hop, bind_apply, cpu_apply]
    dsimp only
    rw [bind_apply, writeMem_of_limit_lt h64 (UInt64.lt_of_le_of_lt hlimit hwraps)]
  · rw [farTransfer_eq_arriveAt hreal htarget hoffset, farFrame_of_farCall hop]
    simp only [bind_assoc]
    rfl

theorem farRet_ends (hreal : m.cpu.isProtected = false)
    (hlock : i.prefixes.lock = true → i.lockIsValid = true) (hop : i.operation = .farRet)
    (hoffset : offset &&& i.operandSize.mask ≤ 0xFFFF)
    (h : popTarget i m = (.ok (offset, selector), m')) :
    i.EndsUnlessWrapped m (.ok .proceed, i.arrive offset selector
      { m' with cpu := m'.cpu.setStackPointer (m'.cpu.stackPointer + i.imm) })
      (i.retBeyond offset m) := by
  have hslot : i.lastSlot m.cpu = m.cpu.stackPointer + i.operandSize.step := by
    rw [Instruction.lastSlot, hop]
  unfold Instruction.EndsUnlessWrapped
  rw [execute_far hlock (.inr (.inl hop)), hslot]
  obtain ⟨hread, -, rfl⟩ := popTarget_ok h
  refine ⟨fun hfits => ?_, fun hwraps hlimit => ?_, fun _ _ => ?_⟩
  · rw [farTransfer_of_target hreal (farTarget_of_pops (.inl hop) hfits h) hoffset,
      farFrame_of_farRet hop, hop]
    dsimp only
    rw [Cpu.stackPointer_setStackPointer, Cpu.setStackPointer_setStackPointer,
      m.cpu.setStackPointer_congr (AddressSize.and_mask_add _ _ _)]
    rfl
  · exact farTransfer_of_target_error hreal
      (farTarget_stackFault (.inl hop) hwraps hlimit hread)
  · rw [farTransfer_of_return hreal (.inl hop) hread hoffset, farFrame_of_farRet hop]
    simp only [bind_assoc]
    rw [(inspects_readMem _ _ _).bind_cpu]
    rfl

theorem iret_ends (hreal : m.cpu.isProtected = false)
    (hlock : i.prefixes.lock = true → i.lockIsValid = true) (hop : i.operation = .iret)
    (hoffset : offset &&& i.operandSize.mask ≤ 0xFFFF)
    (h : popFrame i m = (.ok ((offset, selector), flags), m')) :
    i.EndsUnlessWrapped m (.ok .leave, i.arrive offset selector
      { m' with cpu := m'.cpu.popFlags flags i.operandSize }) (i.iretBeyond offset m) := by
  have hslot : i.lastSlot m.cpu = m.cpu.stackPointer + 2 * i.operandSize.step := by
    rw [Instruction.lastSlot, hop]
  unfold Instruction.EndsUnlessWrapped
  rw [execute_far hlock (.inr (.inr hop)), hslot]
  obtain ⟨⟨m₁, htarget⟩, hflags, rfl⟩ := popFrame_ok h
  obtain ⟨hread, -, -⟩ := popTarget_ok htarget
  refine ⟨fun hfits => ?_, fun hwraps hlimit => ?_, fun _ _ => ?_⟩
  · rw [AddressSize.and_mask_of_le hfits] at hflags
    rw [farTransfer_of_target hreal (farTarget_of_pops (.inr hop) (add_step_le hfits) htarget)
      hoffset, farFrame_of_iret hop, bind_apply, cpu_apply]
    dsimp only
    rw [bind_apply, hflags, hop]
    rfl
  · have h64 := m.cpu.is64Bit_of_mask_lt hwraps
    by_cases hfits : m.cpu.stackPointer + i.operandSize.step ≤ m.cpu.stackAddressSize.mask
    · rw [farTransfer_of_target hreal (farTarget_of_pops (.inr hop) hfits htarget) hoffset,
        farFrame_of_iret hop, bind_apply, cpu_apply]
      dsimp only
      rw [bind_apply, readMem_of_limit_lt h64 (UInt64.lt_of_le_of_lt hlimit hwraps)]
    · exact farTransfer_of_target_error hreal
        (farTarget_stackFault (.inr hop) (UInt64.not_le.1 hfits) hlimit hread)
  · rw [farTransfer_of_return hreal (.inr hop) hread hoffset, farFrame_of_iret hop]
    simp only [bind_assoc]
    rw [(inspects_readMem _ _ _).bind_cpu]
    rfl

/-- **In real mode, far calls and returns are pushes and pops** of the slots of their frame, as long
    as no slot wraps at the width of the stack: the same memory and log, the same stack pointer, and
    the instruction pointer, code segment and flags that were pushed or are popped. If a slot wraps
    they do not: where the stack segment ends with the width of the stack they fault, and change
    nothing, and where it does not they use the slots beyond. -/
theorem far_eq_pushes_pops (hreal : m.cpu.isProtected = false)
    (hlock : i.prefixes.lock = true → i.lockIsValid = true)
    (hoffset : offset &&& i.operandSize.mask ≤ 0xFFFF) :
    (i.operation = .farCall → farTarget i m = (.ok (offset, selector), m) →
      ∀ m', pushFrame i m = (.ok (), m') →
        i.EndsUnlessWrapped m (.ok .proceed, i.arrive offset selector m')
          (i.callBeyond offset selector m)) ∧
    (i.operation = .farRet → ∀ m', popTarget i m = (.ok (offset, selector), m') →
      i.EndsUnlessWrapped m (.ok .proceed, i.arrive offset selector
        { m' with cpu := m'.cpu.setStackPointer (m'.cpu.stackPointer + i.imm) })
        (i.retBeyond offset m)) ∧
    (i.operation = .iret → ∀ flags m', popFrame i m = (.ok ((offset, selector), flags), m') →
      i.EndsUnlessWrapped m (.ok .leave, i.arrive offset selector
        { m' with cpu := m'.cpu.popFlags flags i.operandSize }) (i.iretBeyond offset m)) :=
  ⟨fun hop htarget _ h => farCall_ends hreal hlock hop htarget hoffset h,
    fun hop _ h => farRet_ends hreal hlock hop hoffset h,
    fun hop _ _ h => iret_ends hreal hlock hop hoffset h⟩

/-- Real mode with a stack pointer, and memory that is all zero. -/
def stackAt (sp : UInt64) : Machine SparseMemory where
  cpu := { Cpu.realMode with
    gpr := Cpu.realMode.gpr.set 4 sp
    segments := Cpu.realMode.segments.set .cs (.realCode 0x123) }
  mem := {}

/-- The same for a call to `2000:1234` with room on the stack. -/
theorem far_eq_pushes_pops_call :
    ∃ i m', decode .bits16 [0x9A, 0x34, 0x12, 0x00, 0x20] = .ok i ∧
      pushFrame i (stackAt 0x20) = (.ok (), m') ∧
      execute i (stackAt 0x20) = (.ok .proceed, i.arrive 0x1234 0x2000 m') := by
  obtain ⟨i, hi, hop, hlock, hsize⟩ : ∃ i, decode .bits16 [0x9A, 0x34, 0x12, 0x00, 0x20] = .ok i ∧
      i.operation = .farCall ∧ i.prefixes.lock = false ∧ i.operandSize = .bits16 :=
    ⟨_, rfl, rfl, rfl, rfl⟩
  have hruns : (decode .bits16 [0x9A, 0x34, 0x12, 0x00, 0x20]).map (fun i =>
      ((farTarget i (stackAt 0x20)).1, (pushFrame i (stackAt 0x20)).1,
        decide (i.lastSlot (stackAt 0x20).cpu ≤ (stackAt 0x20).cpu.stackAddressSize.mask))) =
      .ok (.ok (0x1234, 0x2000), .ok (), true) := by
    decide
  rw [hi] at hruns
  obtain ⟨htarget, hpush, hfits⟩ : (farTarget i (stackAt 0x20)).1 = .ok (0x1234, 0x2000) ∧
      (pushFrame i (stackAt 0x20)).1 = .ok () ∧
      i.lastSlot (stackAt 0x20).cpu ≤ (stackAt 0x20).cpu.stackAddressSize.mask := by
    simpa [Except.map] using hruns
  have hoffset : (0x1234 : UInt64) &&& i.operandSize.mask ≤ 0xFFFF := by
    rw [hsize]
    decide
  have hpush' : pushFrame i (stackAt 0x20) = (.ok (), (pushFrame i (stackAt 0x20)).2) :=
    Prod.ext hpush rfl
  obtain ⟨hends, -⟩ := (far_eq_pushes_pops (by decide) (by rw [hlock]; rintro ⟨⟩) hoffset).1 hop
    (Prod.ext htarget (inspects_farTarget i _)) _ hpush'
  exact ⟨i, _, hi, hpush', hends hfits⟩

/-- **Frames that wrap.** With a stack pointer of 2 a call to `2000:1234` faults, where its frame can
    be pushed, and with a stack pointer of `0xFFFE` a far return faults, where its target can be
    popped. -/
theorem far_ne_pushes_pops :
    (∃ i, decode .bits16 [0x9A, 0x34, 0x12, 0x00, 0x20] = .ok i ∧
      (farTarget i (stackAt 2)).1 = .ok (0x1234, 0x2000) ∧
      (pushFrame i (stackAt 2)).1 = .ok () ∧
      (execute i (stackAt 2)).1 = .error (.stackFault 0)) ∧
    ∃ i, decode .bits16 [0xCB] = .ok i ∧
      (popTarget i (stackAt 0xFFFE)).1 = .ok (0, 0) ∧
      (execute i (stackAt 0xFFFE)).1 = .error (.stackFault 0) := by
  have hcall : (decode .bits16 [0x9A, 0x34, 0x12, 0x00, 0x20]).map (fun i =>
      ((farTarget i (stackAt 2)).1, (pushFrame i (stackAt 2)).1, (execute i (stackAt 2)).1)) =
      .ok (.ok (0x1234, 0x2000), .ok (), .error (.stackFault 0)) := by
    decide
  have hreturn : (decode .bits16 [0xCB]).map (fun i =>
      ((popTarget i (stackAt 0xFFFE)).1, (execute i (stackAt 0xFFFE)).1)) =
      .ok (.ok (0, 0), .error (.stackFault 0)) := by
    decide
  obtain ⟨i, hi⟩ : ∃ i, decode .bits16 [0x9A, 0x34, 0x12, 0x00, 0x20] = .ok i := ⟨_, rfl⟩
  obtain ⟨j, hj⟩ : ∃ j, decode .bits16 [0xCB] = .ok j := ⟨_, rfl⟩
  rw [hi] at hcall
  rw [hj] at hreturn
  exact ⟨⟨i, hi, by simpa [Except.map] using hcall⟩, j, hj, by simpa [Except.map] using hreturn⟩

end Exec

end X86Replay

import X86Replay.Proofs.FarFrames
import X86Replay.Proofs.ReadBack

/-!
# Pops undo pushes

A push moves the stack pointer down and stores behind it, a pop loads and moves it up again. Both
cut the offset to the width of the stack and leave the bits of RSP above it alone, whereas what is
stored is cut to the size of the operand.

* `Cpu.pushSlot_add`: the slot of a push and what follows it, modulo the width of the stack.
* `Cpu.branchTarget_ok_iff`, `Cpu.rip_setRip_of_branchTarget`: targets that are accepted, which RIP
  keeps as they are.
* `Exec.pop_push`: a pop behind a push loads the operand and leaves the processor as it was.
* `Exec.retNear_callTo`: so does a return behind a call, but for RIP and what it releases.
* `Exec.pops_undo_pushes`: both of them.
-/

namespace X86Replay

/-! ## Stack pointers -/

namespace AddressSize

theorem and_mask_self {s : AddressSize} (x : UInt64) : (x &&& s.mask) &&& s.mask = x &&& s.mask := by
  rw [UInt64.and_assoc, UInt64.and_self]

end AddressSize

/-- Replacing the bits of a mask by themselves changes nothing. -/
theorem merge_self (x mask : UInt64) : (x &&& ~~~mask) ||| (x &&& mask) = x := by
  rw [← UInt64.toBitVec_inj]
  ext k hk
  simp only [UInt64.toBitVec_and, UInt64.toBitVec_or, UInt64.toBitVec_not, BitVec.getElem_and,
    BitVec.getElem_or, BitVec.getElem_not]
  cases mask.toBitVec[k] <;> simp

namespace Cpu

variable (c : Cpu)

theorem setGprAt_gprAt (n : UInt8) : c.setGprAt n (c.gprAt n) = c := by
  have hset : c.gpr.set (gprSlot n).val (c.gprAt n) (gprSlot n).isLt = c.gpr :=
    Vector.set_getElem_self _
  unfold setGprAt
  rw [hset]

/-- The stack pointer that is there already. -/
theorem setStackPointer_stackPointer : c.setStackPointer c.stackPointer = c := by
  unfold setStackPointer stackPointer
  dsimp only
  rw [AddressSize.and_mask_self, merge_self, setGprAt_gprAt]

/-- **The slot of a push ends where the stack pointer was**, modulo the width of the stack. -/
theorem pushSlot_add (size : OperandSize) (n : UInt64) :
    (c.pushSlot size + size.step + n) &&& c.stackAddressSize.mask =
      (c.stackPointer + n) &&& c.stackAddressSize.mask := by
  rw [pushSlot, UInt64.add_assoc, AddressSize.and_mask_add, ← UInt64.add_assoc,
    UInt64.sub_add_cancel]

/-- The bits of RSP above the width of the stack stay. -/
theorem gprAt_setStackPointer_and_not (x : UInt64) :
    (c.setStackPointer x).gprAt rsp &&& ~~~c.stackAddressSize.mask =
      c.gprAt rsp &&& ~~~c.stackAddressSize.mask := by
  rw [setStackPointer, gprAt_setGprAt, merge_and_not]

/-! ## Branch targets -/

variable {c} {size : OperandSize} {x t : UInt64}

theorem branchTarget_ok_iff : c.branchTarget x size = .ok t ↔
    x &&& size.mask = t ∧
      (if c.is64Bit then isCanonical t else t ≤ (c.seg .cs).limit.toUInt64) = true := by
  unfold branchTarget
  dsimp only
  constructor
  · intro h
    generalize hvalid : (if c.is64Bit then isCanonical (x &&& size.mask)
      else decide (x &&& size.mask ≤ (c.seg .cs).limit.toUInt64)) = valid at h
    cases valid with
    | false => cases h
    | true =>
      cases h
      exact ⟨rfl, hvalid⟩
  · rintro ⟨rfl, hvalid⟩
    rw [if_pos hvalid]

/-- **A target that is accepted is one that RIP keeps as it is.** -/
theorem rip_setRip_of_branchTarget (h : c.branchTarget x size = .ok t) : (c.setRip t).rip = t := by
  obtain ⟨-, hvalid⟩ := branchTarget_ok_iff.1 h
  show t &&& c.codeWidth.ripMask = t
  have ht := t.toNat_lt
  have hlimit := (c.seg .cs).limit.toNat_lt
  cases hwidth : c.codeWidth with
  | bits64 =>
    refine and_ipLimit_of_le (w := .bits64) (UInt64.le_iff_toNat_le.2 ?_)
    show t.toNat ≤ 2 ^ 64 - 1
    omega
  | bits16 | bits32 =>
    have h64 : c.is64Bit = false := by rw [is64Bit, hwidth]; rfl
    rw [h64, if_neg Bool.false_ne_true, decide_eq_true_eq, UInt64.le_iff_toNat_le,
      UInt32.toNat_toUInt64] at hvalid
    refine and_ipLimit_of_le (w := .bits32) (UInt64.le_iff_toNat_le.2 ?_)
    show t.toNat ≤ 2 ^ 32 - 1
    omega

theorem SameMode.branchTarget_eq {c' : Cpu} (h : c.SameMode c') (x : UInt64) (size : OperandSize) :
    c'.branchTarget x size = c.branchTarget x size := by
  unfold branchTarget
  rw [h.is64Bit_eq, h.seg_eq]

end Cpu

variable {M : Type} [GuestMemory M]

namespace Exec

variable {m m' : Machine M} {size : OperandSize} {v : UInt64}

/-! ## Pushes and pops -/

theorem pop_of_readMem (h : readMem .ss m.cpu.stackPointer size m = (.ok v, m)) :
    pop size m =
      (.ok v, { m with cpu := m.cpu.setStackPointer (m.cpu.stackPointer + size.step) }) := by
  unfold pop
  rw [bind_apply, cpu_apply, bind_ok]
  exact ⟨v, m, h, rfl⟩

/-- What is behind the stack pointer after a push, and where the stack pointer is. -/
theorem readMem_push (hM : StoresBytes M) (hpages : TranslatesPages m.mem m.cpu.cpl)
    (h : push size v m = (.ok (), m')) :
    m'.cpu = m.cpu.setStackPointer (m.cpu.pushSlot size) ∧
    m'.cpu.stackPointer = m.cpu.pushSlot size ∧
    ∃ w, readMem .ss m'.cpu.stackPointer size m' = (.ok w, m') ∧
      w.toNat = v.toNat % 2 ^ size.bits := by
  obtain ⟨mem, log, hwrite, rfl⟩ := push_ok h
  obtain ⟨w, hread, hw⟩ := readMem_of_writeMem hM hpages hwrite
  have hslot : (m.cpu.setStackPointer (m.cpu.pushSlot size)).stackPointer =
      m.cpu.pushSlot size := by
    rw [Cpu.stackPointer_setStackPointer, Cpu.pushSlot, AddressSize.and_mask_self]
  refine ⟨rfl, hslot, w, ?_, hw⟩
  rw [hslot]
  exact readMem_of_sameMode (m.cpu.sameSystem_setStackPointer _).mode hread

/-- **A pop behind a push loads the operand and leaves the processor as before the push.** -/
theorem pop_push (hM : StoresBytes M) (hpages : TranslatesPages m.mem m.cpu.cpl)
    (h : push size v m = (.ok (), m')) :
    ∃ w, pop size m' = (.ok w, { m' with cpu := m.cpu }) ∧ w.toNat = v.toNat % 2 ^ size.bits := by
  obtain ⟨hcpu, hslot, w, hread, hw⟩ := readMem_push hM hpages h
  refine ⟨w, ?_, hw⟩
  have hback : m.cpu.setStackPointer (m.cpu.pushSlot size + size.step) = m.cpu := by
    have hadd := m.cpu.pushSlot_add size 0
    rw [UInt64.add_zero, UInt64.add_zero] at hadd
    rw [m.cpu.setStackPointer_congr hadd, Cpu.setStackPointer_stackPointer]
  rw [pop_of_readMem hread, hslot, hcpu, Cpu.setStackPointer_setStackPointer, hback]

/-! ## Calls and returns -/

/-- A call that succeeds has pushed its return address. -/
theorem callTo_ok {target ret : UInt64} {o : Outcome}
    (h : callTo target ret size m = (.ok o, m')) :
    ∃ t m₁, push size (ret &&& size.mask) m = (.ok (), m₁) ∧
      m' = { m₁ with cpu := m₁.cpu.setRip t } := by
  unfold callTo at h
  obtain ⟨t, m₁, htarget, h⟩ := bind_ok.1 h
  rw [check_apply] at htarget
  obtain ⟨-, rfl⟩ := Prod.mk.inj htarget
  obtain ⟨_, m₁, hpush, h⟩ := bind_ok.1 h
  cases h
  exact ⟨t, m₁, hpush, rfl⟩

theorem retNear_of_readMem {address t : UInt64} (release : UInt64)
    (h : readMem .ss m.cpu.stackPointer size m = (.ok address, m))
    (ht : m.cpu.branchTarget address size = .ok t) :
    retNear size release m = (.ok .proceed, { m with
      cpu := (m.cpu.setStackPointer (m.cpu.stackPointer + size.step + release)).setRip t }) := by
  unfold retNear
  rw [bind_apply, cpu_apply, bind_ok]
  refine ⟨address, m, h, bind_ok.2 ⟨t, m, ?_, rfl⟩⟩
  rw [check_apply, ht]

/-- **A return behind a call leaves the processor as before the call**, but for RIP and what it
    releases. -/
theorem retNear_callTo (hM : StoresBytes M) (hpages : TranslatesPages m.mem m.cpu.cpl)
    {target ret t : UInt64} {o : Outcome} (release : UInt64)
    (h : callTo target ret size m = (.ok o, m')) (ht : m.cpu.branchTarget ret size = .ok t) :
    retNear size release m' = (.ok .proceed, { m' with
      cpu := (m.cpu.setStackPointer (m.cpu.stackPointer + release)).setRip t }) := by
  obtain ⟨t', m₁, hpush, rfl⟩ := callTo_ok h
  obtain ⟨hcpu, hslot, w, hread, hw⟩ := readMem_push hM hpages hpush
  have hw : w = ret &&& size.mask := by
    rw [← UInt64.toNat_inj, hw, OperandSize.toNat_and_mask, Nat.mod_mod]
  have hmode : m₁.cpu.SameMode (m₁.cpu.setRip t') := (m₁.cpu.sameSystem_setRip t').mode
  have hread' : readMem .ss (m₁.cpu.setRip t').stackPointer size
      { m₁ with cpu := m₁.cpu.setRip t' } = (.ok w, { m₁ with cpu := m₁.cpu.setRip t' }) :=
    readMem_of_sameMode hmode hread
  have ht' : (m₁.cpu.setRip t').branchTarget w size = .ok t := by
    rw [hmode.branchTarget_eq, hcpu, (m.cpu.sameSystem_setStackPointer _).mode.branchTarget_eq, hw]
    rw [Cpu.branchTarget_ok_iff] at ht ⊢
    rwa [UInt64.and_assoc, UInt64.and_self]
  have hsp : (m₁.cpu.setRip t').stackPointer = m.cpu.pushSlot size := hslot
  have hback : ((m₁.cpu.setRip t').setStackPointer (m.cpu.pushSlot size + size.step + release)).setRip
      t = (m.cpu.setStackPointer (m.cpu.stackPointer + release)).setRip t := by
    rw [← m.cpu.setStackPointer_congr (m.cpu.pushSlot_add size release),
      ← m.cpu.setStackPointer_setStackPointer (m.cpu.pushSlot size), ← hcpu]
    rfl
  rw [retNear_of_readMem release hread' ht', hsp, hback]

/-- **Pops undo pushes.** In memory that stores bytes and translates by page, a pop behind a push
    that has succeeded gives the operand modulo two to its width and leaves the processor as it was.
    A near return behind a near call that has succeeded, whose return address is a valid target,
    leaves the processor as before the call except for RIP, which is the return address, and the
    stack pointer, which is moved up by what is released, modulo the width of the stack. -/
theorem pops_undo_pushes (hM : StoresBytes M) {m : Machine M} (size : OperandSize)
    (hpages : TranslatesPages m.mem m.cpu.cpl) :
    (∀ v m', push size v m = (.ok (), m') →
      ∃ w, pop size m' = (.ok w, { m' with cpu := m.cpu }) ∧ w.toNat = v.toNat % 2 ^ size.bits) ∧
    ∀ target ret release o m' t, callTo target ret size m = (.ok o, m') →
      m.cpu.branchTarget ret size = .ok t →
        ∃ c, retNear size release m' = (.ok .proceed, { m' with cpu := c }) ∧
          c = (m.cpu.setStackPointer (m.cpu.stackPointer + release)).setRip t ∧
          c.rip = t ∧ t.toNat = ret.toNat % 2 ^ size.bits ∧
          c.stackPointer.toNat =
            (m.cpu.stackPointer.toNat + release.toNat) % 2 ^ m.cpu.stackAddressSize.bits ∧
          c.gprAt rsp &&& ~~~m.cpu.stackAddressSize.mask =
            m.cpu.gprAt rsp &&& ~~~m.cpu.stackAddressSize.mask := by
  refine ⟨fun v m' h => pop_push hM hpages h, fun target ret release o m' t h ht => ?_⟩
  refine ⟨_, retNear_callTo hM hpages release h ht, rfl, ?_, ?_, ?_, ?_⟩
  · exact Cpu.rip_setRip_of_branchTarget ht
  · rw [← (Cpu.branchTarget_ok_iff.1 ht).1, OperandSize.toNat_and_mask]
  · show (m.cpu.setStackPointer (m.cpu.stackPointer + release)).stackPointer.toNat = _
    rw [Cpu.stackPointer_setStackPointer, AddressSize.toNat_and, UInt64.toNat_add,
      Nat.mod_mod_of_dvd _ (AddressSize.two_pow_dvd _)]
  · exact m.cpu.gprAt_setStackPointer_and_not _

/-- The same for a stack that wraps and whose highest slot is split between two pages that lead to
    one and the same physical page. -/
theorem pops_undo_pushes_wrapping :
    ∃ m m₁ m₂ : Machine RemappedMemory,
      m.cpu.gprAt rsp = 0xABCD0000 ∧ (m.cpu.seg .ss).base = 1 ∧
      m.mem.table = [(0xF000, 0x1000), (0x10000, 0x1000)] ∧
      push .bits16 0x12345 m = (.ok (), m₁) ∧ m₁.cpu.gprAt rsp = 0xABCDFFFE ∧
      (∃ w, pop .bits16 m₁ = (.ok w, { m₁ with cpu := m.cpu }) ∧ w.toNat = 0x2345) ∧
      callTo 0x10 0x20 .bits16 m = (.ok .proceed, m₂) ∧
      ∃ c, retNear .bits16 4 m₂ = (.ok .proceed, { m₂ with cpu := c }) ∧ c.rip = 0x20 ∧
        c.gprAt rsp = 0xABCD0004 := by
  obtain ⟨m, hm⟩ : ∃ m : Machine RemappedMemory, m =
      ⟨{ Cpu.realMode with
          gpr := Cpu.realMode.gpr.set 4 0xABCD0000
          segments := Cpu.realMode.segments.set .ss { SegmentRegister.real 0 with base := 1 } },
        { flat := FlatMemory.zeros 0x2000, table := [(0xF000, 0x1000), (0x10000, 0x1000)] }, #[]⟩ :=
    ⟨_, rfl⟩
  have hruns : (push .bits16 0x12345 m).1 = .ok () ∧
      (push .bits16 0x12345 m).2.cpu.gprAt rsp = 0xABCDFFFE ∧
      (callTo 0x10 0x20 .bits16 m).1 = .ok .proceed := by
    rw [hm]
    decide +kernel
  have htable : m.mem.table = [(0xF000, 0x1000), (0x10000, 0x1000)] := by rw [hm]
  have hpages : TranslatesPages m.mem m.cpu.cpl :=
    RemappedMemory.translatesPages (by simp [htable]) _
  have ht : m.cpu.branchTarget 0x20 .bits16 = .ok 0x20 := by
    rw [hm]
    decide +kernel
  obtain ⟨hpop, hret⟩ := pops_undo_pushes RemappedMemory.stores .bits16 hpages
  obtain ⟨hpush, hslot, hcall⟩ := hruns
  obtain ⟨c, hc, hcpu, hrip, -⟩ := hret 0x10 0x20 4 _ _ _ (Prod.ext hcall rfl) ht
  refine ⟨m, _, _, ?_, ?_, htable, Prod.ext hpush rfl, hslot, hpop 0x12345 _ (Prod.ext hpush rfl),
    Prod.ext hcall rfl, c, hc, hrip, ?_⟩
  · rw [hm]
    decide +kernel
  · rw [hm]
    decide +kernel
  · rw [hcpu, hm]
    decide +kernel

end Exec

end X86Replay

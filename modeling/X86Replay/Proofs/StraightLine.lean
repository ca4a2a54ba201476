import X86Replay.Block.Basic
import X86Replay.Memory.Flat
import X86Replay.Proofs.Execution

/-!
# Straight-line code

An instruction that does not end a block passes its own bytes, and leaves alone what blocks are
looked up by.

* `Cpu.SameLookup`: two processor states in which the same blocks are found and the same addresses
  are translated.
* `Exec.execute_straight`: one instruction with a straight effect.
* `StraightRun.passes`: any number of them, of which each is followed by the next.
-/

namespace X86Replay

namespace Cpu

/-! ## What blocks are looked up by -/

/-- The same blocks are found, and code is decoded and translated in the same way. -/
structure SameLookup (c c' : Cpu) : Prop where
  flags : ∀ target lock, ModeFlags.ofCpu c' target lock = ModeFlags.ofCpu c target lock
  identity : CodeIdentity.ofCpu c' = CodeIdentity.ofCpu c
  codeWidth : c'.codeWidth = c.codeWidth
  cpl : c'.cpl = c.cpl
  ripMask : c'.ripMask = c.ripMask
  epoch : c'.epoch = c.epoch

namespace SameMode

variable {c c' : Cpu}

theorem epoch_eq (h : SameMode c c') : c'.epoch = c.epoch := by
  rw [h.rest]

theorem context_eq (h : SameMode c c') : c'.context = c.context := by
  rw [h.rest]

theorem identity_eq (h : SameMode c c') : CodeIdentity.ofCpu c' = CodeIdentity.ofCpu c := by
  unfold CodeIdentity.ofCpu
  rw [h.seg_eq]

theorem ripMask_eq (h : SameMode c c') : c'.ripMask = c.ripMask := by
  unfold ripMask
  rw [h.codeWidth_eq]

theorem hasFlatSegments_eq (h : SameMode c c') :
    ModeFlags.hasFlatSegments c' = ModeFlags.hasFlatSegments c := by
  simp [ModeFlags.hasFlatSegments, h.seg_eq]

theorem modeBits_eq (h : SameMode c c') (target : CpuTarget) :
    ModeFlags.modeBits c' target = ModeFlags.modeBits c target := by
  unfold ModeFlags.modeBits
  rw [h.codeWidth_eq, h.isProtected_eq, h.isVirtual8086_eq, h.hasFlatSegments_eq]

/-- Breakpoints depend on debug and control registers only. -/
theorem pendingBreakpoints_eq (h : SameMode c c') :
    ModeFlags.pendingBreakpoints c' = ModeFlags.pendingBreakpoints c := by
  rw [h.rest]
  rfl

theorem flags_eq (h : SameMode c c') (target : CpuTarget) (lock : Bool) :
    ModeFlags.ofCpu c' target lock = ModeFlags.ofCpu c target lock := by
  unfold ModeFlags.ofCpu
  rw [h.modeBits_eq, h.pendingBreakpoints_eq, h.cpl_eq, h.context_eq]

/-- **Blocks are looked up by the mode.** -/
theorem lookup (h : SameMode c c') : SameLookup c c' :=
  ⟨h.flags_eq, h.identity_eq, h.codeWidth_eq, h.cpl_eq, h.ripMask_eq, h.epoch_eq⟩

end SameMode

/-! ## Passing several instructions -/

/-- Wrapping once at the end is the same as wrapping after each step. -/
theorem and_ipLimit_add (w : CodeWidth) (rip n : UInt64) :
    ((rip &&& w.ipLimit) + n) &&& w.ipLimit = (rip + n) &&& w.ipLimit := by
  rw [← UInt64.toNat_inj, toNat_and_ipLimit, toNat_and_ipLimit, UInt64.toNat_add,
    UInt64.toNat_add, toNat_and_ipLimit]
  cases w with
  | bits16 | bits32 | bits64 =>
    simp only [CodeWidth.bits]
    omega

theorem Passes.trans {n n' : UInt64} {c c' c'' : Cpu} (h : Passes n c c') (h' : Passes n' c' c'') :
    Passes (n + n') c c'' := by
  refine ⟨h.mode.trans h'.mode, ?_⟩
  rw [h'.rip, h.rip, h.mode.codeWidth_eq, and_ipLimit_add, UInt64.add_assoc]

end Cpu

namespace Exec

variable {M : Type} [GuestMemory M] {m m' : Machine M}

/-! ## One instruction -/

/-- An instruction without semantics here does nothing at all. -/
theorem execute_unsupported {i : Instruction} (hop : i.operation = .unsupported) {o : Outcome}
    (hrun : execute i m = (.ok o, m')) : o = .stop (.assist .unsupported) ∧ m' = m := by
  unfold execute at hrun
  rw [hop] at hrun
  split at hrun
  · cases hrun
  · cases hrun
    exact ⟨rfl, rfl⟩

/-- **An instruction that does not end a block is straight-line code.** It never leaves the block
    on its own; if the next instruction follows, RIP has moved past its bytes, and neither what
    blocks are looked up by nor the epoch has changed. -/
theorem execute_straight {i : Instruction} (h : i.blockEffect = .straight) {o : Outcome}
    (hrun : execute i m = (.ok o, m')) :
    o ≠ .leave ∧
      (o = .proceed →
        m'.cpu.rip = (m.cpu.advanceRip i.step).rip ∧ m.cpu.SameLookup m'.cpu) := by
  by_cases hop : i.operation = .unsupported
  · obtain ⟨rfl, -⟩ := execute_unsupported hop hrun
    constructor
    · rintro ⟨⟩
    · rintro ⟨⟩
  · obtain ⟨rfl, hpasses⟩ := (transaction_execute h hop).post hrun
    constructor
    · rintro ⟨⟩
    · rintro -
      exact ⟨hpasses.rip, hpasses.mode.lookup⟩

/-- The same for a `MOV` into AX whose bytes end past the last offset of 16-bit code. -/
theorem execute_straight_mov :
    ∃ (i : Instruction) (m m' : Machine FlatMemory), decode .bits16 [0xB8, 0x34, 0x12] = .ok i ∧
      i.blockEffect = .straight ∧ execute i m = (.ok .proceed, m') ∧ m.cpu.rip = 0xFFFE ∧
      m'.cpu.rip = 1 ∧ m.cpu.SameLookup m'.cpu := by
  obtain ⟨i, hi⟩ : ∃ i, decode .bits16 [0xB8, 0x34, 0x12] = .ok i := ⟨_, rfl⟩
  obtain ⟨m, hm⟩ : ∃ m : Machine FlatMemory,
      m = ⟨{ Cpu.realMode with rip := 0xFFFE }, FlatMemory.zeros 0, #[]⟩ := ⟨_, rfl⟩
  have hstraight : i.blockEffect = .straight := by
    cases hi
    rfl
  have hrun : execute i m = (.ok .proceed, (execute i m).2) := by
    cases hi
    rw [hm]
    rfl
  obtain ⟨hrip, hlookup⟩ := (execute_straight hstraight hrun).2 rfl
  refine ⟨i, m, (execute i m).2, hi, hstraight, hrun, by rw [hm], ?_, hlookup⟩
  rw [hrip, hm]
  cases hi
  rfl

end Exec

/-! ## Several instructions -/

open Exec

variable {M : Type} [GuestMemory M]

/-- Instructions with straight effects, each of which was to be followed by the next one. -/
inductive StraightRun : List Instruction → Machine M → Machine M → Prop
  | nil (m : Machine M) : StraightRun [] m m
  | cons {i : Instruction} {is : List Instruction} {m m₁ m₂ : Machine M} :
      i.blockEffect = .straight → execute i m = (.ok .proceed, m₁) → StraightRun is m₁ m₂ →
      StraightRun (i :: is) m m₂

/-- The number of bytes of instructions, as a word. -/
def codeStep : List Instruction → UInt64
  | [] => 0
  | i :: is => i.step + codeStep is

/-- **Straight-line code moves RIP past the bytes of all its instructions**, and blocks are looked
    up as before it. RIP has to be inside the width of the code, as it is after each of them. -/
theorem StraightRun.passes {is : List Instruction} {m m' : Machine M} (h : StraightRun is m m')
    (hm : m.cpu.rip &&& m.cpu.codeWidth.ipLimit = m.cpu.rip) :
    m'.cpu.rip = (m.cpu.advanceRip (codeStep is)).rip ∧ m.cpu.SameLookup m'.cpu := by
  suffices hpasses : m.cpu.Passes (codeStep is) m'.cpu from ⟨hpasses.rip, hpasses.mode.lookup⟩
  induction h with
  | nil m => exact ⟨.refl _, by simpa [codeStep] using hm.symm⟩
  | @cons i is m m₁ m₂ hstraight hrun _ ih =>
    have hpass := ((execute_conduct i).1.post hrun).passes hstraight rfl
    have hwrapped : m₁.cpu.rip &&& m₁.cpu.codeWidth.ipLimit = m₁.cpu.rip := by
      rw [hpass.rip, hpass.mode.codeWidth_eq, UInt64.and_assoc, UInt64.and_self]
    exact hpass.trans (ih hwrapped)

end X86Replay

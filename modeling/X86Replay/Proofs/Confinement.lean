import X86Replay.Memory.Flat
import X86Replay.Proofs.Keeping
import X86Replay.Proofs.Turns

/-!
# Code without privilege is confined

* `Cpu.Unprivileged`: protected mode outside privilege level zero and virtual-8086 mode.
* `Cpu.Confined`: a processor state of which only general registers, instruction pointer and flags
  have changed, and of the flags none that control interrupts or modes.
* `systemKeeps_confines`: the instructions that could change more fault, stop or leave it alone when
  they are executed without privilege.
* `loop_confines`: so does a run, whatever the cache and memory hold.
* `runs_confined`: so do any number of runs.
-/

namespace X86Replay

/-! ## Confined states -/

namespace Cpu

/-- Protected mode, but not virtual-8086 mode, at a privilege level other than zero. -/
structure Unprivileged (c : Cpu) : Prop where
  isProtected : c.isProtected
  notVirtual8086 : ¬ c.isVirtual8086
  level : 0 < c.cpl

/-- The second state differs from the first in general registers, instruction pointer and flags
    only, and not in IOPL, RF and VM, nor in IF if the I/O privilege level is out of reach. -/
structure Confined (c c' : Cpu) : Prop where
  rest : c' = { c with gpr := c'.gpr, rip := c'.rip, rflags := c'.rflags }
  iopl : c'.rflags &&& RFlags.iopl = c.rflags &&& RFlags.iopl
  resume : c'.rflags &&& RFlags.resume = c.rflags &&& RFlags.resume
  virtual8086 : c'.rflags &&& RFlags.virtual8086 = c.rflags &&& RFlags.virtual8086
  interrupt : c.iopl < c.cpl → c'.rflags &&& RFlags.interrupt = c.rflags &&& RFlags.interrupt

variable {c c' c'' : Cpu}

theorem SameSystem.confined (h : c.SameSystem c') : c.Confined c' where
  rest := h.rest
  iopl := h.flags.and_eq (by decide)
  resume := h.flags.and_eq (by decide)
  virtual8086 := h.flags.and_eq (by decide)
  interrupt _ := h.flags.and_eq (by decide)

namespace Confined

theorem mode (h : c.Confined c') : c.SameMode c' :=
  ⟨h.rest, h.virtual8086⟩

theorem unprivileged (h : c.Confined c') (hc : c.Unprivileged) : c'.Unprivileged where
  isProtected := by
    rw [h.mode.isProtected_eq]
    exact hc.isProtected
  notVirtual8086 := by
    rw [h.mode.isVirtual8086_eq]
    exact hc.notVirtual8086
  level := by
    rw [h.mode.cpl_eq]
    exact hc.level

theorem trans (h : c.Confined c') (h' : c'.Confined c'') : c.Confined c'' where
  rest := by rw [h'.rest, h.rest]
  iopl := h'.iopl.trans h.iopl
  resume := h'.resume.trans h.resume
  virtual8086 := h'.virtual8086.trans h.virtual8086
  interrupt hlevel := by
    have hlevel' : c'.iopl < c'.cpl := by
      rwa [Cpu.iopl, h.iopl, h.mode.cpl_eq]
    exact (h'.interrupt hlevel').trans (h.interrupt hlevel)

end Confined

/-- Without privilege the second state is confined. -/
def Confines (c c' : Cpu) : Prop :=
  c.Unprivileged → c.Confined c'

instance : IsPreorder Cpu Confines where
  refl c _ := (refl_of SameSystem c).confined
  trans _ _ _ h h' hc := (h hc).trans (h' ((h hc).unprivileged hc))

theorem SameSystem.confines (h : c.SameSystem c') : c.Confines c' := fun _ =>
  h.confined

/-- The interrupt flag may be changed by whom the I/O privilege level admits. -/
theorem confines_setFlag_interrupt (hmay : c.mayControlInterrupts) (on : Bool) :
    c.Confines (c.setFlag RFlags.interrupt on) := by
  intro hc
  have hlevel : c.cpl ≤ c.iopl := by
    unfold mayControlInterrupts at hmay
    rw [hc.isProtected, Bool.eq_false_iff.2 hc.notVirtual8086] at hmay
    simpa using hmay
  exact {
    rest := rfl
    iopl := RFlags.put_and_of_disjoint _ _ on (by decide) (by decide)
    resume := RFlags.put_and_of_disjoint _ _ on (by decide) (by decide)
    virtual8086 := RFlags.put_and_of_disjoint _ _ on (by decide) (by decide)
    interrupt := fun h => absurd hlevel (UInt8.not_le.2 h) }

/-- Without privilege a popped image changes IF at most, and that only inside the I/O privilege
    level. -/
theorem Unprivileged.poppableFlags_eq (hc : c.Unprivileged) (size : OperandSize) :
    c.poppableFlags size =
      (RFlags.poppable ||| 0 ||| if c.cpl ≤ c.iopl then RFlags.interrupt else 0) &&& size.mask := by
  have hlevel : ¬ (c.cpl = 0 ∧ !c.isVirtual8086) := fun h => by
    have hpos := hc.level
    rw [h.1] at hpos
    exact absurd hpos (by decide)
  unfold poppableFlags
  rw [if_neg hlevel]
  simp only [hc.notVirtual8086, Bool.false_eq_true, or_false]

theorem confines_popFlags (c : Cpu) (image : UInt64) (size : OperandSize) :
    c.Confines (c.popFlags image size) := by
  intro hc
  -- A bit stays if it is neither the fixed one nor in the mask, which has few values.
  have hstays {bit : UInt64} (hfixed : RFlags.fixed &&& bit = 0)
      (hmask : c.poppableFlags size &&& bit = 0 ∧ ~~~c.poppableFlags size &&& bit = bit) :
      (c.popFlags image size).rflags &&& bit = c.rflags &&& bit := by
    show (RFlags.merge c.rflags (c.poppableFlags size) image ||| RFlags.fixed) &&& bit = _
    rw [RFlags.or_and_of_disjoint hfixed, RFlags.merge_and_of_disjoint _ _ hmask.1 hmask.2]
  refine ⟨rfl, hstays (by decide) ?_, hstays (by decide) ?_, hstays (by decide) ?_,
    fun hlevel => hstays (by decide) ?_⟩
  · rw [hc.poppableFlags_eq]
    split_ifs <;> cases size <;> decide
  · rw [hc.poppableFlags_eq]
    split_ifs <;> cases size <;> decide
  · rw [hc.poppableFlags_eq]
    split_ifs <;> cases size <;> decide
  · rw [hc.poppableFlags_eq, if_neg (UInt8.not_le.2 hlevel)]
    cases size <;> decide

end Cpu

/-! ## Instructions -/

namespace Exec

variable {M : Type}

/-- Instructions for privilege level zero fault. -/
theorem keeps_confines_levelZero {f : Unit → Exec M Outcome} :
    Keeps Cpu.Confines (require (·.cpl == 0) >>= f) := by
  intro m hc
  have hlevel : ¬ (m.cpu.cpl == 0) = true := by
    have hpos := hc.level
    rw [beq_iff_eq]
    rintro hzero
    rw [hzero] at hpos
    exact absurd hpos (by decide)
  rw [bind_apply, require_apply, if_neg hlevel]
  exact (refl_of Cpu.SameSystem m.cpu).confined

variable [GuestMemory M]

/-- **No instruction does more than confined code may, unless it has privilege.** -/
theorem systemKeeps_confines : SystemKeeps M Cpu.Confines where
  ordinary := Cpu.SameSystem.confines
  segment i m hc := by
    unfold loadSegment
    rw [bind_apply, cpu_apply]
    dsimp only
    rw [if_pos (by simp [hc.isProtected, hc.notVirtual8086])]
    exact (refl_of Cpu.SameSystem m.cpu).confined
  far i m hc := by
    unfold farTransfer
    rw [bind_apply, cpu_apply]
    dsimp only
    rw [if_pos hc.isProtected]
    exact (refl_of Cpu.SameSystem m.cpu).confined
  halt length := keeps_confines_levelZero
  control i := keeps_confines_levelZero
  interrupt on i o := by
    intro m
    rw [bind_apply, require_apply]
    by_cases hmay : m.cpu.mayControlInterrupts
    · rw [if_pos hmay]
      exact keeps_modifyCpu_bind ((keeps_finish i o).mono fun _ _ h => h.confines) m
        (Cpu.confines_setFlag_interrupt hmay on)
    · rw [if_neg hmay]
      exact refl_of Cpu.Confines m.cpu
  popFlags i size :=
    (keeps_require _).bind fun _ =>
      ((keeps_pop size).mono fun _ _ h => h.confines).bind fun image =>
        (keeps_modifyCpu fun c => c.confines_popFlags image size).bind fun _ =>
          (keeps_finish i .leave).mono fun _ _ h => h.confines

end Exec

/-! ## Runs -/

/-- The states in which one run after another starts: the first run has processor `c`, every other
    one the processor that the run before it has left. Runner, memory and receiver may be exchanged
    between runs. -/
inductive RunSequence {M S : Type} [GuestMemory M] [EventSink S] (c : Cpu) : RunState M S → Prop
  | first {s : RunState M S} : s.cpu = c → RunSequence c s
  | next {s s' : RunState M S} : RunSequence c s → s'.cpu = s.run.2.cpu → RunSequence c s'

/-- **Code without privilege is confined.** After any number of turns of any of the runs that follow
    one another, whatever cache and memory hold, only registers, instruction pointer and flags have
    changed, and no flag that controls interrupts or modes. -/
theorem runs_confined {M S : Type} [GuestMemory M] [EventSink S] {s : RunState M S} {c : Cpu}
    (hpassive : EventSink.Passive S) (hc : c.Unprivileged) (h : RunSequence c s) (turns : Nat) :
    c.Confined (s.loop turns 0).2.cpu := by
  have hloop (s : RunState M S) (hs : c.Confined s.cpu) (turns : Nat) :
      c.Confined (s.loop turns 0).2.cpu :=
    hs.trans (RunState.keeps_loop Exec.systemKeeps_confines hpassive turns 0 s
      (hs.unprivileged hc))
  refine hloop s ?_ turns
  induction h with
  | first hs =>
    rw [hs]
    exact (refl_of Cpu.SameSystem c).confined
  | @next s₁ s₂ _ hs ih =>
    rw [hs]
    exact hloop s₁ ih _

/-- The same at privilege level three for `POPFD` of an image with all bits set, which sets CF and
    TF, so that the `HLT` after it is a single step and faults. -/
theorem runs_confined_popf :
    ∃ s : RunState FlatMemory Unit, s.cpu.Unprivileged ∧
      s.run.1 = .exception (.generalProtection 0) ∧ s.run.2.cpu.hasFlag RFlags.carry ∧
      s.cpu.Confined s.run.2.cpu := by
  obtain ⟨s, hs⟩ : ∃ s : RunState FlatMemory Unit,
      s = ⟨{ config := {}, cache := .empty 1 1 },
        { Cpu.flat32 with rip := 4, segments := Cpu.flat32.segments.set .cs (.flatCode32 0x0B) },
        (FlatMemory.zeros 64).load 0 [0xFF, 0xFF, 0xFF, 0xFF, 0x9D, 0xF4], ()⟩ := ⟨_, rfl⟩
  have hunprivileged : s.cpu.Unprivileged := by
    rw [hs]
    exact ⟨by decide +kernel, by decide +kernel, by decide +kernel⟩
  have hend : s.run.1 = .exception (.generalProtection 0) ∧ s.run.2.cpu.hasFlag RFlags.carry := by
    rw [hs]
    decide +kernel
  exact ⟨s, hunprivileged, hend.1, hend.2,
    runs_confined (fun _ _ _ => rfl) hunprivileged (.first rfl) (s.runner.config.maxBlocks + 1)⟩

end X86Replay

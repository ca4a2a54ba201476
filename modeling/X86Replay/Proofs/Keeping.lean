import X86Replay.Block.Call
import X86Replay.Proofs.Computation
import X86Replay.Proofs.SameMode

/-!
# What instructions keep of the processor state

* `Exec.Keeps`: a computation relates the processor before it to the processor after it, also if it
  raises an exception. For a preorder this composes.
* `Exec.SystemKeeps`: the same for the instructions that may change segments, control registers, the
  halt state or the system flags.
* `keeps_execute`, `keeps_step`, `keeps_run`: every instruction and every call of a block keeps what
  these instructions keep, since all others change general registers, instruction pointer and
  arithmetic flags only.
-/

namespace X86Replay

namespace Exec

variable {M α β : Type} {R R' : Cpu → Cpu → Prop} {f : Exec M α}

/-! ## Computations that keep a relation -/

/-- The processor before the computation is related to the processor after it. -/
def Keeps (R : Cpu → Cpu → Prop) (f : Exec M α) : Prop :=
  ∀ m, R m.cpu (f m).2.cpu

theorem Keeps.mono (hf : Keeps R f) (h : ∀ c c', R c c' → R' c c') : Keeps R' f := fun m =>
  h _ _ (hf m)

theorem keeps_modifyCpu {u : Cpu → Cpu} (h : ∀ c, R c (u c)) :
    Keeps R (modifyCpu u : Exec M Unit) := fun m =>
  h m.cpu

/-- A relation to the processor state that the rest of a computation starts with. -/
theorem keeps_cpu_bind {g : Cpu → Exec M β}
    (hg : ∀ c, Keeps (fun c₁ c' => c₁ = c → R c₁ c') (g c)) : Keeps R (cpu >>= g) := fun m => by
  rw [bind_apply, cpu_apply]
  exact hg m.cpu m rfl

theorem keeps_withFlags_bind {u : UInt64 → UInt64 × UInt64} {g : UInt64 × UInt64 → Exec M β}
    (hg : ∀ a, Keeps (fun c c' => a = u c.rflags → R c c') (g a)) :
    Keeps R (withFlags u >>= g) := fun m =>
  hg (u m.cpu.rflags) m rfl

/-- The rest of a computation after the processor has been changed. -/
theorem keeps_modifyCpu_bind [IsTrans Cpu R] {u : Cpu → Cpu} {g : Unit → Exec M β}
    (hg : Keeps R (g ())) :
    Keeps (fun c c' => R c (u c) → R c c') (modifyCpu u >>= g) := fun m h =>
  trans_of R h (hg { m with cpu := u m.cpu })

section

variable [Std.Refl R]

theorem keeps_pure (a : α) : Keeps R (pure a : Exec M α) := fun m =>
  refl_of R m.cpu

theorem keeps_throw (e : Exception) : Keeps R (throw e : Exec M α) := fun m =>
  refl_of R m.cpu

theorem keeps_throw_bind (e : Exception) (g : α → Exec M β) :
    Keeps R ((MonadExcept.throw e : Exec M α) >>= g) := fun m =>
  refl_of R m.cpu

theorem keeps_cpu : Keeps R (cpu : Exec M Cpu) := fun m =>
  refl_of R m.cpu

theorem keeps_check (g : Machine M → Except Exception α) : Keeps R (check g) := fun m =>
  refl_of R m.cpu

theorem keeps_require (p : Cpu → Bool) : Keeps R (require p : Exec M Unit) :=
  keeps_check _

end

/-- **Computations that keep a transitive relation compose.** -/
theorem Keeps.bind [IsTrans Cpu R] {g : α → Exec M β} (hf : Keeps R f) (hg : ∀ a, Keeps R (g a)) :
    Keeps R (f >>= g) := by
  intro m
  have hm := hf m
  rw [bind_apply]
  rcases hrun : f m with ⟨e | a, m₁⟩
  · rw [hrun] at hm
    exact hm
  · rw [hrun] at hm
    exact trans_of R hm (hg a m₁)

/-- A check that fails changes nothing. -/
theorem keeps_check_bind [Std.Refl R] {u : Machine M → Except Exception α} {g : α → Exec M β}
    (hg : ∀ a, Keeps R (g a)) : Keeps R (check u >>= g) := by
  intro m
  rw [bind_apply, check_apply]
  rcases u m with e | a
  · exact refl_of R m.cpu
  · exact hg a m

/-! ## Parts of instructions -/

theorem keeps_finish (i : Instruction) (o : Outcome) :
    Keeps Cpu.SameSystem (finish i o : Exec M Outcome) :=
  (keeps_modifyCpu fun c => c.sameSystem_advanceRip i.step).bind fun _ => keeps_pure o

theorem keeps_retire (i : Instruction) : Keeps Cpu.SameSystem (retire i : Exec M Outcome) :=
  keeps_finish i .proceed

theorem keeps_setRip (target : UInt64) :
    Keeps Cpu.SameSystem
      (do modifyCpu (·.setRip target); return .proceed : Exec M Outcome) :=
  (keeps_modifyCpu fun c => c.sameSystem_setRip target).bind fun _ => keeps_pure _

theorem keeps_writeGpr (ref : UInt8) (size : OperandSize) (v : UInt64) :
    Keeps Cpu.SameSystem (modifyCpu (·.writeGpr ref size v) : Exec M Unit) :=
  keeps_modifyCpu fun c => c.sameSystem_writeGpr ref size v

theorem keeps_setStackPointer (v : UInt64) :
    Keeps Cpu.SameSystem (modifyCpu (·.setStackPointer v) : Exec M Unit) :=
  keeps_modifyCpu fun c => c.sameSystem_setStackPointer v

theorem keeps_readReg [Std.Refl R] (i : Instruction) (n : UInt8) (size : OperandSize) :
    Keeps R (readReg i n size : Exec M UInt64) := fun m =>
  refl_of R m.cpu

/-- The end of an arithmetic instruction: the result is written if there is one to write, then the
    flags. -/
theorem keeps_setFlags {γ : Type} {flags : UInt64} (b : Bool) {w : Exec M Unit} {k : Exec M γ}
    (hw : Keeps Cpu.SameSystem w) (hk : Keeps Cpu.SameSystem k) :
    Keeps (fun c c' => RFlags.SameSystem c.rflags flags → c.SameSystem c')
      (if b then do w; modifyCpu (·.setRflags flags); k
        else do modifyCpu (·.setRflags flags); k) := by
  have hset := keeps_modifyCpu_bind (u := (·.setRflags flags)) (g := fun _ => k) hk
  split
  · intro m hflags
    have hm := hw m
    rw [bind_apply]
    rcases hrun : w m with ⟨e | _, m₁⟩
    · rw [hrun] at hm
      exact hm
    · rw [hrun] at hm
      exact hm.trans (hset m₁ (m₁.cpu.sameSystem_setRflags (hm.flags.symm.trans hflags)))
  · exact fun m hflags => hset m (m.cpu.sameSystem_setRflags hflags)

/-! ## Instructions without access to memory -/

theorem keeps_branchTo (target : UInt64) (size : OperandSize) :
    Keeps Cpu.SameSystem (branchTo target size : Exec M Outcome) :=
  (keeps_check _).bind fun target => keeps_setRip target

theorem keeps_executeIncDecReg (i : Instruction) :
    Keeps Cpu.SameSystem (executeIncDecReg i : Exec M Outcome) := by
  refine keeps_cpu.bind fun _ => keeps_withFlags_bind fun a => ?_
  refine (keeps_modifyCpu_bind (keeps_retire i)).mono ?_
  rintro c c' h rfl
  exact h (c.sameSystem_incDec _ _ _ _ _)

theorem keeps_executeLea (i : Instruction) :
    Keeps Cpu.SameSystem (executeLea i : Exec M Outcome) := by
  unfold executeLea
  split
  · exact keeps_cpu.bind fun _ => (keeps_writeGpr _ _ _).bind fun _ => keeps_retire i
  · exact keeps_throw _

theorem keeps_executeLoop (i : Instruction) :
    Keeps Cpu.SameSystem (executeLoop i : Exec M Outcome) := by
  refine keeps_cpu.bind fun c => ?_
  split
  rename_i count taken _
  split
  · refine (keeps_check _).bind fun target => (keeps_modifyCpu fun c => ?_).bind fun _ =>
      keeps_pure _
    exact (c.sameSystem_writeGpr 1 _ count).trans (Cpu.sameSystem_setRip _ target)
  · exact (keeps_writeGpr 1 _ count).bind fun _ => keeps_retire i

theorem keeps_executeFlagOp (i : Instruction) :
    Keeps Cpu.SameSystem (executeFlagOp i : Exec M Outcome) := by
  unfold executeFlagOp
  have hput (mask : UInt64) (on : Cpu → Bool) (h : mask &&& RFlags.system = 0)
      (h' : ~~~mask &&& RFlags.system = RFlags.system) :
      Keeps Cpu.SameSystem
        (do modifyCpu (fun c => c.setFlag mask (on c)); retire i : Exec M Outcome) :=
    (keeps_modifyCpu fun c => c.sameSystem_setFlag (on c) h h').bind fun _ => keeps_retire i
  extract_lets jp
  split
  · exact hput _ _ (by decide) (by decide)
  · exact hput _ _ (by decide) (by decide)
  · exact hput _ _ (by decide) (by decide)
  · exact hput _ _ (by decide) (by decide)
  · exact hput _ _ (by decide) (by decide)
  · exact keeps_throw_bind _ _

/-! ## Memory -/

variable [GuestMemory M]

theorem keeps_readMem [Std.Refl R] (s : SegmentName) (offset : UInt64) (size : OperandSize) :
    Keeps R (readMem s offset size : Exec M UInt64) :=
  keeps_check _

theorem keeps_writeMem [Std.Refl R] (s : SegmentName) (offset : UInt64) (size : OperandSize)
    (v : UInt64) : Keeps R (writeMem s offset size v : Exec M Unit) := by
  intro ⟨cpu, mem, log⟩
  unfold writeMem
  dsimp only
  split
  · exact refl_of R cpu
  · exact refl_of R cpu

theorem keeps_readRm (i : Instruction) (size : OperandSize) :
    Keeps Cpu.SameSystem (readRm i size : Exec M UInt64) := by
  unfold readRm
  split
  · exact keeps_readReg i _ size
  · exact keeps_cpu.bind fun c => keeps_readMem _ _ size
  · exact keeps_throw _

theorem keeps_writeRm (i : Instruction) (size : OperandSize) (v : UInt64) :
    Keeps Cpu.SameSystem (writeRm i size v : Exec M Unit) := by
  unfold writeRm
  split
  · exact keeps_writeGpr _ size v
  · exact keeps_cpu.bind fun c => keeps_writeMem _ _ size v
  · exact keeps_throw _

theorem keeps_push (size : OperandSize) (v : UInt64) :
    Keeps Cpu.SameSystem (push size v : Exec M Unit) :=
  keeps_cpu.bind fun _ => (keeps_writeMem _ _ size v).bind fun _ => keeps_setStackPointer _

theorem keeps_pop (size : OperandSize) : Keeps Cpu.SameSystem (pop size : Exec M UInt64) :=
  keeps_cpu.bind fun _ => (keeps_readMem _ _ size).bind fun v =>
    (keeps_setStackPointer _).bind fun _ => keeps_pure v

theorem keeps_callTo (target returnRip : UInt64) (size : OperandSize) :
    Keeps Cpu.SameSystem (callTo target returnRip size : Exec M Outcome) :=
  (keeps_check _).bind fun target => (keeps_push size _).bind fun _ => keeps_setRip target

theorem keeps_retNear (size : OperandSize) (release : UInt64) :
    Keeps Cpu.SameSystem (retNear size release : Exec M Outcome) :=
  keeps_cpu.bind fun _ => (keeps_readMem _ _ size).bind fun _ => (keeps_check _).bind fun target =>
    (keeps_modifyCpu fun c => (c.sameSystem_setStackPointer _).trans
      (Cpu.sameSystem_setRip _ target)).bind fun _ => keeps_pure _

/-! ## Arithmetic -/

theorem keeps_executeAlu (i : Instruction) :
    Keeps Cpu.SameSystem (executeAlu i : Exec M Outcome) := by
  unfold executeAlu
  extract_lets size op jp
  have hend (dest src : UInt64) {w : UInt64 → Exec M Unit} (hw : ∀ v, Keeps Cpu.SameSystem (w v)) :
      Keeps Cpu.SameSystem (do
        let a ← withFlags (alu op size · dest src)
        if op.writesResult then do w a.1; modifyCpu (·.setRflags a.2); retire i
          else do modifyCpu (·.setRflags a.2); retire i) := by
    refine keeps_withFlags_bind fun a => ?_
    refine (keeps_setFlags op.writesResult (hw a.1) (keeps_retire i)).mono ?_
    rintro c c' h rfl
    exact h (RFlags.sameSystem_alu op size _ dest src)
  split
  · exact (keeps_readReg i _ size).bind fun dest => (keeps_readRm i size).bind fun src =>
      hend dest src fun v => keeps_writeGpr _ size v
  · exact keeps_cpu.bind fun c => hend _ _ fun v => keeps_writeGpr 0 size v
  · refine (keeps_readRm i size).bind fun dest => ?_
    extract_lets jp'
    have hjp' (src : UInt64) : Keeps Cpu.SameSystem (jp' src) :=
      hend dest src fun v => keeps_writeRm i size v
    split
    · exact (keeps_pure _).bind hjp'
    · exact (keeps_readReg i _ size).bind hjp'

theorem keeps_executeTest (i : Instruction) :
    Keeps Cpu.SameSystem (executeTest i : Exec M Outcome) := by
  unfold executeTest
  refine (keeps_readRm i _).bind fun dest => ?_
  extract_lets jp
  have hjp (src : UInt64) : Keeps Cpu.SameSystem (jp src) := by
    refine keeps_withFlags_bind fun a => ?_
    refine (keeps_setFlags false (keeps_pure ()) (keeps_retire i)).mono ?_
    rintro c c' h rfl
    exact h (RFlags.sameSystem_alu _ _ _ dest src)
  split
  · exact (keeps_pure _).bind hjp
  · exact (keeps_readReg i _ _).bind hjp

theorem keeps_executeXchg (i : Instruction) :
    Keeps Cpu.SameSystem (executeXchg i : Exec M Outcome) :=
  (keeps_readRm i _).bind fun a => (keeps_readReg i _ _).bind fun b =>
    (keeps_writeRm i _ b).bind fun _ => (keeps_writeGpr _ _ a).bind fun _ => keeps_retire i

theorem keeps_executeIncDecRm (i : Instruction) :
    Keeps Cpu.SameSystem (executeIncDecRm i : Exec M Outcome) := by
  refine (keeps_readRm i _).bind fun value => keeps_withFlags_bind fun a => ?_
  refine (keeps_setFlags true (keeps_writeRm i _ a.1) (keeps_retire i)).mono ?_
  rintro c c' h rfl
  exact h (RFlags.sameSystem_incDec _ _ _ value)

/-! ## Moves -/

theorem keeps_executeExtend (i : Instruction) (isSigned : Bool) :
    Keeps Cpu.SameSystem (executeExtend i isSigned : Exec M Outcome) :=
  (keeps_readRm i _).bind fun _ => (keeps_writeGpr _ _ _).bind fun _ => keeps_retire i

theorem keeps_executeMovFromSreg (i : Instruction) :
    Keeps Cpu.SameSystem (executeMovFromSreg i : Exec M Outcome) := by
  unfold executeMovFromSreg
  refine Keeps.bind (f := namedSegment i) (keeps_check _) fun s => keeps_cpu.bind fun c => ?_
  extract_lets selector jp
  split
  · exact (keeps_writeGpr _ _ _).bind fun _ => keeps_retire i
  · exact (keeps_writeRm i .bits16 selector).bind fun _ => keeps_retire i

/-! ## All instructions -/

/-- What the instructions keep that may change more than general registers, instruction pointer and
    arithmetic flags. -/
structure SystemKeeps (M : Type) [GuestMemory M] (R : Cpu → Cpu → Prop) : Prop where
  ordinary : ∀ {c c' : Cpu}, c.SameSystem c' → R c c'
  segment : ∀ i, Keeps R (loadSegment i : Exec M Outcome)
  far : ∀ i, Keeps R (farTransfer i : Exec M Outcome)
  halt : ∀ length, Keeps R (halt length : Exec M Outcome)
  interrupt : ∀ on i o, Keeps R (do
    require (·.mayControlInterrupts)
    modifyCpu (·.setFlag RFlags.interrupt on)
    finish i o : Exec M Outcome)
  popFlags : ∀ i size, Keeps R (do
    require (!·.trapsSensitive)
    let image ← pop size
    modifyCpu (·.popFlags image size)
    finish i .leave : Exec M Outcome)
  control : ∀ i, Keeps R (moveControl i : Exec M Outcome)

/-- **Every instruction keeps what the system instructions keep.** -/
theorem keeps_execute (h : SystemKeeps M R) (i : Instruction) :
    Keeps R (execute i : Exec M Outcome) := by
  unfold execute
  extract_lets size jp
  have hsame {f : Exec M Outcome} (hf : Keeps Cpu.SameSystem f) : Keeps R f :=
    hf.mono fun _ _ => h.ordinary
  have hjp : Keeps R (jp ()) := by
    dsimp only [jp]
    cases i.operation with
    | invalid | ud2 => exact hsame (keeps_throw _)
    | unsupported | io | system | cpuid => exact hsame (keeps_pure _)
    | nop => exact hsame (keeps_retire i)
    | aluRmReg | aluRegRm | aluAccImm | aluRmImm => exact hsame (keeps_executeAlu i)
    | test => exact hsame (keeps_executeTest i)
    | xchg => exact hsame (keeps_executeXchg i)
    | incDecReg => exact hsame (keeps_executeIncDecReg i)
    | incDecRm => exact hsame (keeps_executeIncDecRm i)
    | movRmReg =>
      exact hsame ((keeps_readReg i _ size).bind fun v =>
        (keeps_writeRm i size v).bind fun _ => keeps_retire i)
    | movRegRm =>
      exact hsame ((keeps_readRm i size).bind fun v =>
        (keeps_writeGpr _ size v).bind fun _ => keeps_retire i)
    | movRegImm => exact hsame ((keeps_writeGpr _ size i.imm).bind fun _ => keeps_retire i)
    | movRmImm => exact hsame ((keeps_writeRm i size _).bind fun _ => keeps_retire i)
    | movzx => exact hsame (keeps_executeExtend i false)
    | movsx => exact hsame (keeps_executeExtend i true)
    | lea => exact hsame (keeps_executeLea i)
    | movFromSreg => exact hsame (keeps_executeMovFromSreg i)
    | movToSreg => exact h.segment i
    | pushReg =>
      exact hsame (keeps_cpu.bind fun _ => (keeps_push size _).bind fun _ => keeps_retire i)
    | popReg =>
      exact hsame ((keeps_pop size).bind fun v =>
        (keeps_writeGpr _ size v).bind fun _ => keeps_retire i)
    | pushImm => exact hsame ((keeps_push size _).bind fun _ => keeps_retire i)
    | jmpRel => exact hsame (keeps_cpu.bind fun _ => keeps_branchTo _ size)
    | jcc =>
      refine hsame (keeps_cpu.bind fun c => ?_)
      split
      · exact keeps_branchTo _ size
      · exact keeps_retire i
    | loopRel => exact hsame (keeps_executeLoop i)
    | callRel => exact hsame (keeps_cpu.bind fun c => keeps_callTo _ _ size)
    | callRm =>
      exact hsame ((keeps_readRm i size).bind fun target =>
        keeps_cpu.bind fun c => keeps_callTo target _ size)
    | jmpRm => exact hsame ((keeps_readRm i size).bind fun target => keeps_branchTo target size)
    | ret => exact hsame (keeps_retNear size 0)
    | retImm => exact hsame (keeps_retNear size i.imm)
    | farJmp | farCall | farRet | iret => exact h.far i
    | hlt => exact h.halt i.step
    | flagOp => exact hsame (keeps_executeFlagOp i)
    | cli => exact h.interrupt false i .proceed
    | sti => exact h.interrupt true i .leave
    | popf => exact h.popFlags i size
    | int3 => exact hsame (keeps_finish i _)
    | intImm => exact hsame ((keeps_require _).bind fun _ => keeps_finish i _)
    | into =>
      refine hsame (keeps_cpu.bind fun c => ?_)
      split
      · exact keeps_finish i _
      · exact keeps_retire i
    | movCr => exact h.control i
  split
  · exact hsame (keeps_throw_bind _ _)
  · exact hjp

theorem SystemKeeps.refl (h : SystemKeeps M R) : Std.Refl R :=
  ⟨fun c => h.ordinary (refl_of Cpu.SameSystem c)⟩

theorem keeps_executeBytes (h : SystemKeeps M R) (bytes : List UInt8) :
    Keeps R (executeBytes bytes : Exec M Outcome) :=
  have := h.refl
  keeps_check_bind fun i => keeps_execute h i

/-- Every step keeps what the system instructions keep. -/
theorem keeps_step (h : SystemKeeps M R) : Keeps R (step : Exec M Outcome) :=
  have := h.refl
  keeps_check_bind fun i => keeps_check_bind fun _ => keeps_execute h i

end Exec

/-! ## Calls -/

namespace Call

open Exec

variable {M : Type} {R : Cpu → Cpu → Prop} (c : Call)

theorem keeps_retire : Keeps Cpu.SameSystem (c.retire : Exec M Outcome) :=
  (keeps_modifyCpu fun cpu => cpu.sameSystem_advanceRip c.step).bind fun _ => keeps_pure _

theorem keeps_runAlu (src : UInt64) : Keeps Cpu.SameSystem (c.runAlu src : Exec M Outcome) := by
  unfold runAlu
  refine keeps_cpu_bind fun cpu => ?_
  refine (keeps_setFlags _ (keeps_writeGpr _ _ _) c.keeps_retire).mono ?_
  rintro c₁ c' h rfl
  exact h (RFlags.sameSystem_alu _ _ _ _ src)

theorem keeps_runIncDec : Keeps Cpu.SameSystem (c.runIncDec : Exec M Outcome) := by
  unfold runIncDec
  extract_lets r
  refine keeps_cpu_bind fun cpu => ?_
  refine (keeps_modifyCpu_bind c.keeps_retire).mono ?_
  rintro c₁ c' h rfl
  exact h (c₁.sameSystem_incDec _ _ _ _ _)

theorem keeps_runJump : Keeps Cpu.SameSystem (c.runJump : Exec M Outcome) :=
  keeps_cpu.bind fun _ => keeps_branchTo _ _

variable [GuestMemory M]

/-- **Every call keeps what the system instructions keep.** -/
theorem keeps_run (h : SystemKeeps M R) : Keeps R (c.run : Exec M Outcome) := by
  have hsame {f : Exec M Outcome} (hf : Keeps Cpu.SameSystem f) : Keeps R f :=
    hf.mono fun _ _ => h.ordinary
  unfold run
  cases c.handler with
  | nop => exact hsame c.keeps_retire
  | checkLimit => exact hsame ((keeps_require _).bind fun _ => keeps_pure _)
  | movRegImm => exact hsame ((keeps_writeGpr _ _ _).bind fun _ => c.keeps_retire)
  | movRegReg =>
    exact hsame ((keeps_modifyCpu fun cpu => cpu.sameSystem_writeGpr _ _ _).bind fun _ =>
      c.keeps_retire)
  | loadReg =>
    exact hsame (keeps_cpu.bind fun _ => (keeps_readMem _ _ _).bind fun _ =>
      (keeps_writeGpr _ _ _).bind fun _ => c.keeps_retire)
  | storeReg =>
    exact hsame (keeps_cpu.bind fun _ => (keeps_writeMem _ _ _ _).bind fun _ => c.keeps_retire)
  | aluRegReg => exact hsame (keeps_cpu.bind fun _ => c.keeps_runAlu _)
  | aluRegImm => exact hsame (c.keeps_runAlu _)
  | incDecReg => exact hsame c.keeps_runIncDec
  | pushReg =>
    exact hsame (keeps_cpu.bind fun _ => (keeps_push _ _).bind fun _ => c.keeps_retire)
  | popReg =>
    exact hsame ((keeps_pop _).bind fun _ => (keeps_writeGpr _ _ _).bind fun _ => c.keeps_retire)
  | jmpRel => exact hsame c.keeps_runJump
  | jccRel =>
    refine hsame (keeps_cpu.bind fun _ => ?_)
    split
    · exact c.keeps_runJump
    · exact c.keeps_retire
  | callRel => exact hsame (keeps_cpu.bind fun _ => keeps_callTo _ _ _)
  | ret => exact hsame (keeps_retNear _ _)
  | hlt => exact h.halt c.step
  | deferred => exact keeps_executeBytes h _

end Call

end X86Replay

import X86Replay.Proofs.Transaction

/-!
# Executing one instruction

Every instruction is a transaction, and leaves the machine in one of three ways.

* `Instruction.Ends`: an instruction that is left to the surrounding monitor has changed no
  register; any other has moved the instruction pointer to a place that the code can reach; and one
  with a straight effect has passed its own bytes and kept the mode.
* `Exec.Conduct`: what is left to the monitor has not written memory either.
* `execute_conduct`: all instructions end so.
-/

namespace X86Replay

variable {M : Type}

/-! ## Ends -/

/-- The instruction has completed and the code can be resumed. -/
def Outcome.Lands (o : Outcome) (c' : Cpu) : Prop :=
  (∀ s, o = .stop s → s.retires) ∧ c'.InRange

/-- The instruction of `n` bytes has completed and the next one in memory follows. -/
def Outcome.Passes (o : Outcome) (n : UInt64) (c c' : Cpu) : Prop :=
  o = .proceed ∧ c.Passes n c'

theorem Outcome.Passes.lands {o : Outcome} {n : UInt64} {c c' : Cpu} (h : o.Passes n c c') :
    o.Lands c' :=
  ⟨fun s hs => (by rw [h.1] at hs; cases hs), h.2.inRange⟩

/-- The instruction has completed, or it is left to the surrounding monitor and has changed no
    register. -/
def Outcome.Settles (o : Outcome) (c c' : Cpu) : Prop :=
  o.Lands c' ∨ ∃ s, o = .stop s ∧ s.retires = false ∧ c' = c

/-- How an instruction ends: if the next one in memory follows, its own bytes have been passed. -/
structure Instruction.Ends (i : Instruction) (c : Cpu) (o : Outcome) (c' : Cpu) : Prop where
  settles : o.Settles c c'
  passes : i.blockEffect = .straight → o = .proceed → c.Passes i.step c'

theorem Outcome.Passes.ends {i : Instruction} {o : Outcome} {c c' : Cpu}
    (h : o.Passes i.step c c') : i.Ends c o c' :=
  ⟨.inl h.lands, fun _ _ => h.2⟩

namespace Exec

/-! ## Parts of instructions -/

theorem update_finish (i : Instruction) (o : Outcome) :
    Update (finish i o : Exec M Outcome) fun c o' c' => o' = o ∧ c' = c.advanceRip i.step :=
  fun cpu => ⟨o, cpu.advanceRip i.step, ⟨rfl, rfl⟩, fun _ _ => rfl⟩

theorem update_modifyCpu_finish (u : Cpu → Cpu) (i : Instruction) (o : Outcome) :
    Update (do modifyCpu u; finish i o : Exec M Outcome)
      fun c o' c' => o' = o ∧ c' = (u c).advanceRip i.step :=
  fun cpu => ⟨o, (u cpu).advanceRip i.step, ⟨rfl, rfl⟩, fun _ _ => rfl⟩

theorem update_finish_lands (u : Cpu → Cpu) (i : Instruction) {o : Outcome}
    (ho : ∀ s, o = .stop s → s.retires) :
    Update (do modifyCpu u; finish i o : Exec M Outcome) fun _ o' c' => o'.Lands c' :=
  fun cpu => ⟨o, (u cpu).advanceRip i.step, ⟨ho, Cpu.inRange_advanceRip _ _⟩, fun _ _ => rfl⟩

theorem update_return_lands {u : Cpu → Cpu} {o : Outcome} (ho : ∀ s, o = .stop s → s.retires)
    (hu : ∀ c, (u c).InRange) :
    Update (do modifyCpu u; return o : Exec M Outcome) fun _ o' c' => o'.Lands c' :=
  fun cpu => ⟨o, u cpu, ⟨ho, hu cpu⟩, fun _ _ => rfl⟩

theorem update_stop {s : Stop} (hs : s.retires = false) :
    Update (return .stop s : Exec M Outcome) fun c o c' => o.Settles c c' :=
  Update.pure fun _ => .inr ⟨s, rfl, hs, rfl⟩

theorem update_writeGpr (ref : UInt8) (size : OperandSize) (v : UInt64) :
    Update (modifyCpu (·.writeGpr ref size v) : Exec M Unit) fun c _ c' => c.Stays c' := fun cpu =>
  ⟨(), _, Cpu.Stays.writeGpr cpu ref size v, fun _ _ => rfl⟩

theorem update_setRip (target : UInt64) :
    Update (do modifyCpu (·.setRip target); return .proceed : Exec M Outcome)
      fun _ o c' => o.Lands c' :=
  update_return_lands (by rintro _ ⟨⟩) fun c => c.inRange_setRip target

variable [GuestMemory M]

/-- After parts that keep mode and instruction pointer the instruction can be retired. -/
theorem Transaction.retire {α : Type} {f : Exec M α} (i : Instruction)
    (hf : Transaction f fun c _ c' => c.Stays c') :
    Transaction (f >>= fun _ => retire i) fun c o c' => o.Passes i.step c c' :=
  hf.then (fun _ => update_finish i .proceed) fun _ _ _ _ _ hc h =>
    ⟨h.1, h.2 ▸ hc.passes i.step⟩

theorem query_readReg (i : Instruction) (n : UInt8) (size : OperandSize) :
    Query (readReg i n size : Exec M UInt64) :=
  query_cpu.bind fun _ => query_pure _

theorem query_readRm (i : Instruction) (size : OperandSize) :
    Query (readRm i size : Exec M UInt64) := by
  unfold readRm
  split
  · exact query_readReg i _ size
  · exact query_cpu.bind fun c => query_readMem _ _ size
  · exact .throw _

theorem transaction_writeRm (i : Instruction) (size : OperandSize) (v : UInt64) :
    Transaction (writeRm i size v : Exec M Unit) fun c _ c' => c.Stays c' := by
  unfold writeRm
  split
  · exact (update_writeGpr _ size v).transaction
  · refine query_cpu.bind fun c => (query_writeMem _ _ size v).weaken ?_
    rintro c _ _ rfl
    exact .refl _
  · exact .throw _

theorem transaction_push (size : OperandSize) (v : UInt64) :
    Transaction (push size v : Exec M Unit) fun c _ c' => c.Stays c' := by
  refine query_cpu.bind fun c => ?_
  refine (query_writeMem _ _ size v).then (fun _ => Update.modifyCpu _) ?_
  rintro c _ _ _ _ rfl rfl
  exact .setStackPointer _ _

theorem transaction_pop (size : OperandSize) :
    Transaction (pop size : Exec M UInt64) fun c _ c' => c.Stays c' := by
  refine query_cpu.bind fun c => (query_readMem _ _ size).then
    (R := fun _ c _ c' => c.Stays c') (fun v => ?_) ?_
  · exact fun cpu => ⟨v, _, Cpu.Stays.setStackPointer cpu _, fun _ _ => rfl⟩
  · rintro c _ _ _ _ rfl h
    exact h

/-! ## Near transfers -/

theorem transaction_branchTo (target : UInt64) (size : OperandSize) :
    Transaction (branchTo target size : Exec M Outcome) fun _ o c' => o.Lands c' :=
  (query_check fun _ _ _ => rfl).bind fun target => (update_setRip target).transaction

theorem transaction_callTo (target returnRip : UInt64) (size : OperandSize) :
    Transaction (callTo target returnRip size : Exec M Outcome) fun _ o c' => o.Lands c' :=
  (query_check fun _ _ _ => rfl).bind fun target =>
    (transaction_push size _).then (fun _ => update_setRip target) fun _ _ _ _ _ _ h => h

theorem transaction_retNear (size : OperandSize) (release : UInt64) :
    Transaction (retNear size release : Exec M Outcome) fun _ o c' => o.Lands c' := by
  refine query_cpu.bind fun c => (query_readMem _ _ size).bind fun address => ?_
  refine (query_check fun _ _ _ => rfl).bind fun target => ?_
  exact (update_return_lands (by rintro _ ⟨⟩) fun c => Cpu.inRange_setRip _ target).transaction

/-! ## Arithmetic -/

/-- The end of an arithmetic instruction: the result is written if there is one to write, then the
    flags. -/
theorem transaction_setFlags (i : Instruction) (flags : UInt64) (b : Bool) {w : Exec M Unit}
    (hw : Transaction w fun c _ c' => c.Stays c') :
    Transaction
      (if b then do w; modifyCpu (·.setRflags flags); retire i
        else do modifyCpu (·.setRflags flags); retire i)
      fun c o c' => RFlags.SameVirtual c.rflags flags → o.Passes i.step c c' := by
  split
  · refine hw.then (fun _ => update_modifyCpu_finish _ i .proceed) ?_
    rintro c _ c₁ _ _ hc ⟨rfl, rfl⟩ hflags
    have hflags' := hc.mode.isVirtual.symm.trans hflags
    exact ⟨rfl, (hc.trans (Cpu.Stays.setRflags c₁ hflags')).passes i.step⟩
  · refine (update_modifyCpu_finish _ i .proceed).transaction.weaken ?_
    rintro c _ _ ⟨rfl, rfl⟩ hflags
    exact ⟨rfl, (Cpu.Stays.setRflags c hflags).passes i.step⟩

theorem transaction_executeAlu (i : Instruction) :
    Transaction (executeAlu i : Exec M Outcome) fun c o c' => o.Passes i.step c c' := by
  unfold executeAlu
  extract_lets size op jp
  -- The flags of an operation on any operands can be set after its result has been written.
  have hend (dest src : UInt64) {w : UInt64 → Exec M Unit}
      (hw : ∀ v, Transaction (w v) fun c _ c' => c.Stays c') :
      Transaction (do
        let a ← withFlags (alu op size · dest src)
        if op.writesResult then do w a.1; modifyCpu (·.setRflags a.2); retire i
          else do modifyCpu (·.setRflags a.2); retire i)
        fun c o c' => o.Passes i.step c c' := by
    refine (transaction_withFlags _).after fun a => ?_
    refine (transaction_setFlags i a.2 op.writesResult (hw a.1)).weaken ?_
    rintro c _ _ h rfl
    exact h (RFlags.sameSystem_alu op size _ dest src).virtual
  split
  · refine (query_readReg i _ size).bind fun dest => (query_readRm i size).bind fun src => ?_
    exact hend dest src fun v => (update_writeGpr _ size v).transaction
  · refine query_cpu.bind fun c => ?_
    exact hend _ _ fun v => (update_writeGpr 0 size v).transaction
  · refine (query_readRm i size).bind fun dest => ?_
    extract_lets jp'
    have hjp' (src : UInt64) : Transaction (jp' src) fun c o c' => o.Passes i.step c c' :=
      hend dest src fun v => transaction_writeRm i size v
    split
    · exact (query_pure _).bind hjp'
    · exact (query_readReg i _ size).bind hjp'

theorem transaction_executeTest (i : Instruction) :
    Transaction (executeTest i : Exec M Outcome) fun c o c' => o.Passes i.step c c' := by
  unfold executeTest
  refine (query_readRm i _).bind fun dest => ?_
  extract_lets jp
  have hjp (src : UInt64) : Transaction (jp src) fun c o c' => o.Passes i.step c c' := by
    refine (transaction_withFlags _).after fun a => ?_
    refine (update_modifyCpu_finish _ i .proceed).transaction.weaken ?_
    rintro c _ _ ⟨rfl, rfl⟩ rfl
    exact ⟨rfl,
      (Cpu.Stays.setRflags c (RFlags.sameSystem_alu _ _ _ dest src).virtual).passes i.step⟩
  split
  · exact (query_pure _).bind hjp
  · exact (query_readReg i _ _).bind hjp

theorem transaction_executeXchg (i : Instruction) :
    Transaction (executeXchg i : Exec M Outcome) fun c o c' => o.Passes i.step c c' := by
  refine (query_readRm i _).bind fun a => (query_readReg i _ _).bind fun b => ?_
  refine (transaction_writeRm i _ b).then (fun _ => update_modifyCpu_finish _ i .proceed) ?_
  rintro c _ c₁ _ _ hc ⟨rfl, rfl⟩
  exact ⟨rfl, (hc.trans (Cpu.Stays.writeGpr c₁ _ _ a)).passes i.step⟩

theorem transaction_executeIncDecReg (i : Instruction) :
    Transaction (executeIncDecReg i : Exec M Outcome) fun c o c' => o.Passes i.step c c' := by
  refine query_cpu.bind fun c => (transaction_withFlags _).after fun a => ?_
  refine (update_modifyCpu_finish _ i .proceed).transaction.weaken ?_
  rintro c _ _ ⟨rfl, rfl⟩ rfl
  refine ⟨rfl, ((Cpu.Stays.writeGpr c _ _ _).trans (Cpu.Stays.setRflags _ ?_)).passes i.step⟩
  exact (Cpu.sameSystem_writeGpr c _ _ _).flags.virtual.symm.trans
    (RFlags.sameSystem_incDec _ _ _ _).virtual

theorem transaction_executeIncDecRm (i : Instruction) :
    Transaction (executeIncDecRm i : Exec M Outcome) fun c o c' => o.Passes i.step c c' := by
  refine (query_readRm i _).bind fun value => (transaction_withFlags _).after fun a => ?_
  refine (transaction_setFlags i a.2 true (transaction_writeRm i _ a.1)).weaken ?_
  rintro c _ _ h rfl
  exact h (RFlags.sameSystem_incDec _ _ _ value).virtual

/-! ## Moves -/

theorem transaction_executeExtend (i : Instruction) (isSigned : Bool) :
    Transaction (executeExtend i isSigned : Exec M Outcome)
      fun c o c' => o.Passes i.step c c' := by
  refine (query_readRm i _).bind fun raw =>
    (update_modifyCpu_finish _ i .proceed).transaction.weaken ?_
  rintro c _ _ ⟨rfl, rfl⟩
  exact ⟨rfl, (Cpu.Stays.writeGpr c _ _ _).passes i.step⟩

theorem query_namedSegment (i : Instruction) : Query (namedSegment i : Exec M SegmentName) :=
  query_check fun _ _ _ => rfl

theorem transaction_executeMovFromSreg (i : Instruction) :
    Transaction (executeMovFromSreg i : Exec M Outcome) fun c o c' => o.Passes i.step c c' := by
  unfold executeMovFromSreg
  refine (query_namedSegment i).bind fun s => query_cpu.bind fun c => ?_
  extract_lets selector jp
  split
  · refine (update_modifyCpu_finish _ i .proceed).transaction.weaken ?_
    rintro c' _ _ ⟨rfl, rfl⟩
    exact ⟨rfl, (Cpu.Stays.writeGpr c' _ _ _).passes i.step⟩
  · exact (transaction_writeRm i .bits16 selector).retire i

theorem transaction_executeLea (i : Instruction) :
    Transaction (executeLea i : Exec M Outcome) fun c o c' => o.Passes i.step c c' := by
  unfold executeLea
  split
  · refine query_cpu.bind fun c => (update_modifyCpu_finish _ i .proceed).transaction.weaken ?_
    rintro c' _ _ ⟨rfl, rfl⟩
    exact ⟨rfl, (Cpu.Stays.writeGpr c' _ _ _).passes i.step⟩
  · exact .throw _

/-! ## Branches -/

theorem transaction_executeLoop (i : Instruction) :
    Transaction (executeLoop i : Exec M Outcome) fun _ o c' => o.Lands c' := by
  refine query_cpu.bind fun c => ?_
  split
  rename_i count taken _
  split
  · refine (query_check fun _ _ _ => rfl).bind fun target => ?_
    exact (update_return_lands (by rintro _ ⟨⟩) fun c => Cpu.inRange_setRip _ target).transaction
  · exact (update_finish_lands _ i (by rintro _ ⟨⟩)).transaction

/-! ## Flags, interrupts and I/O -/

/-- Flags other than that of virtual-8086 mode can be changed before an instruction is retired. -/
theorem transaction_setFlag_retire (i : Instruction) (mask : UInt64) (on : Cpu → Bool)
    (h : mask &&& RFlags.virtual8086 = 0)
    (h' : ~~~mask &&& RFlags.virtual8086 = RFlags.virtual8086) :
    Transaction (do modifyCpu (fun c => c.setFlag mask (on c)); retire i : Exec M Outcome)
      fun c o c' => o.Passes i.step c c' := by
  refine (update_modifyCpu_finish _ i .proceed).transaction.weaken ?_
  rintro c _ _ ⟨rfl, rfl⟩
  exact ⟨rfl, Cpu.Stays.passes ⟨Cpu.sameMode_setFlag c (on c) h h', rfl⟩ i.step⟩

theorem transaction_executeFlagOp (i : Instruction) :
    Transaction (executeFlagOp i : Exec M Outcome) fun c o c' => o.Passes i.step c c' := by
  unfold executeFlagOp
  extract_lets jp
  split
  · exact transaction_setFlag_retire i _ _ (by decide) (by decide)
  · exact transaction_setFlag_retire i _ _ (by decide) (by decide)
  · exact transaction_setFlag_retire i _ _ (by decide) (by decide)
  · exact transaction_setFlag_retire i _ _ (by decide) (by decide)
  · exact transaction_setFlag_retire i _ _ (by decide) (by decide)
  · exact .throw_bind _ _

theorem transaction_finish (i : Instruction) {o : Outcome} (h : ∀ s, o = .stop s → s.retires) :
    Transaction (finish i o : Exec M Outcome) fun _ o' c' => o'.Lands c' := by
  refine (update_finish i o).transaction.weaken ?_
  rintro c _ _ ⟨rfl, rfl⟩
  exact ⟨h, c.inRange_advanceRip _⟩

theorem transaction_halt (length : UInt64) :
    Transaction (halt length : Exec M Outcome) fun _ o c' => o.Lands c' := by
  refine (query_require _).bind fun _ => (update_return_lands ?_ fun c => ?_).transaction
  · rintro _ ⟨⟩
    rfl
  · exact c.inRange_advanceRip length

/-! ## Instructions that may be left to the monitor -/

/-- A computation that either settles or is left to the surrounding monitor, and in that case has
    changed nothing. -/
structure Conduct (f : Exec M Outcome) : Prop where
  transaction : Transaction f fun c o c' => o.Settles c c'
  pends : ∀ {m m' s}, f m = (.ok (.stop s), m') → s.retires = false → m' = m

theorem Conduct.of_lands {f : Exec M Outcome} (hf : Transaction f fun _ o c' => o.Lands c') :
    Conduct f where
  transaction := hf.weaken fun _ _ _ h => .inl h
  pends h hs := by
    rw [(hf.post h).1 _ rfl] at hs
    cases hs

theorem Conduct.stop {s : Stop} (hs : s.retires = false) :
    Conduct (return .stop s : Exec M Outcome) where
  transaction := (update_stop hs).transaction
  pends h _ := by
    cases h
    rfl

theorem Conduct.cpu_bind {g : Cpu → Exec M Outcome} (hg : ∀ c, Conduct (g c)) :
    Conduct (cpu >>= g) where
  transaction := query_cpu.bind fun c => (hg c).transaction
  pends {m _ _} h := (hg m.cpu).pends (by rwa [bind_apply, cpu_apply] at h)

theorem Conduct.check_bind {α : Type} {u : Machine M → Except Exception α} {g : α → Exec M Outcome}
    (hu : ∀ cpu mem log, u ⟨cpu, mem, log⟩ = u ⟨cpu, mem, #[]⟩) (hg : ∀ a, Conduct (g a)) :
    Conduct (check u >>= g) where
  transaction := (query_check hu).bind fun a => (hg a).transaction
  pends {m _ _} h hs := by
    obtain ⟨a, m₁, ha, h⟩ := bind_ok.1 h
    rw [check_apply, Prod.mk.injEq] at ha
    obtain ⟨-, rfl⟩ := ha
    exact (hg a).pends h hs

theorem Conduct.require_bind {p : Cpu → Bool} {g : Unit → Exec M Outcome}
    (hg : Conduct (g ())) : Conduct (require p >>= g) :=
  .check_bind (fun _ _ _ => rfl) fun _ => hg

/-! ## Segments -/

theorem transaction_segmentLoad (i : Instruction) :
    Transaction (segmentLoad i : Exec M (SegmentName × UInt16)) fun _ _ _ => True := by
  unfold segmentLoad
  split
  · refine (query_namedSegment i).bind fun s => (query_readRm i .bits16).bind fun v => ?_
    exact (query_pure _).weaken fun _ _ _ _ => trivial
  · refine Query.bind (f := check _) (query_check fun _ _ _ => rfl) fun s => ?_
    exact (transaction_pop _).then (R := fun _ _ _ _ => True)
      (fun v => Update.pure fun _ => trivial) fun _ _ _ _ _ _ h => h

theorem conduct_loadSegment (i : Instruction) : Conduct (loadSegment i : Exec M Outcome) := by
  refine .cpu_bind fun c => ?_
  split
  · exact .stop rfl
  · refine .of_lands ((transaction_segmentLoad i).then (R := fun _ _ o c' => o.Lands c')
      (fun r => ?_) fun _ _ _ _ _ _ h => h)
    obtain ⟨s, selector⟩ := r
    refine update_finish_lands _ i ?_
    split <;> rintro _ ⟨⟩

theorem query_farTarget (i : Instruction) :
    Query (farTarget i : Exec M (UInt64 × UInt16)) := by
  unfold farTarget
  extract_lets size
  refine query_cpu.bind fun c => ?_
  split
  · split
    · exact (query_readMem _ _ size).bind fun offset => (query_readMem _ _ .bits16).bind fun _ =>
        query_pure _
    · exact .throw _
    · exact query_pure _
  · exact (query_readMem _ _ size).bind fun offset => (query_readMem _ _ size).bind fun _ =>
      query_pure _

theorem transaction_farFrame (i : Instruction) :
    Transaction (farFrame i : Exec M Unit) fun _ _ _ => True := by
  unfold farFrame
  extract_lets size
  refine query_cpu.bind fun c => ?_
  extract_lets sp
  split
  · refine (query_writeMem _ _ size _).bind fun _ => (query_writeMem _ _ size _).bind fun _ => ?_
    exact (Update.modifyCpu _).transaction.weaken fun _ _ _ _ => trivial
  · exact (Update.modifyCpu _).transaction.weaken fun _ _ _ _ => trivial
  · refine (query_readMem _ _ size).bind fun flags => ?_
    exact (Update.modifyCpu _).transaction.weaken fun _ _ _ _ => trivial
  · exact (query_pure _).weaken fun _ _ _ _ => trivial

theorem conduct_farTransfer (i : Instruction) : Conduct (farTransfer i : Exec M Outcome) := by
  refine .cpu_bind fun c => ?_
  split
  · exact .stop rfl
  · refine .of_lands ((query_farTarget i).bind fun r => ?_)
    obtain ⟨offset, selector⟩ := r
    refine (query_require _).bind fun _ => ?_
    refine (transaction_farFrame i).then (R := fun _ _ o c' => o.Lands c') (fun _ => ?_)
      fun _ _ _ _ _ _ h => h
    refine update_return_lands ?_ fun c => Cpu.inRange_setRip _ _
    split <;> rintro _ ⟨⟩

/-! ## Control registers -/

theorem conduct_moveControl (i : Instruction) : Conduct (moveControl i : Exec M Outcome) := by
  refine .require_bind ?_
  split
  · refine .cpu_bind fun c => ?_
    extract_lets number gpr width
    split
    · exact .stop rfl
    · split
      · split
        · exact .of_lands (update_finish_lands _ i (by rintro _ ⟨⟩)).transaction
        · refine .of_lands (update_finish_lands _ i ?_).transaction
          split <;> rintro _ ⟨⟩
      · exact .of_lands (.throw _)
  · exact .of_lands (.throw _)

/-! ## All instructions -/

theorem transaction_retire (i : Instruction) :
    Transaction (retire i : Exec M Outcome) fun c o c' => o.Passes i.step c c' :=
  (update_finish i .proceed).transaction.weaken fun c _ _ h =>
    ⟨h.1, h.2 ▸ (Cpu.Stays.refl c).passes i.step⟩

/-- **An instruction with a straight effect passes its own bytes**, unless it is one without
    semantics here. -/
theorem transaction_execute {i : Instruction} (h : i.blockEffect = .straight)
    (hsupported : i.operation ≠ .unsupported) :
    Transaction (execute i : Exec M Outcome) fun c o c' => o.Passes i.step c c' := by
  unfold execute
  extract_lets size jp
  split
  · exact .throw_bind _ _
  dsimp only [jp]
  cases hop : i.operation with
  | unsupported => exact absurd hop hsupported
  | nop => exact transaction_retire i
  | aluRmReg | aluRegRm | aluAccImm | aluRmImm => exact transaction_executeAlu i
  | test => exact transaction_executeTest i
  | xchg => exact transaction_executeXchg i
  | incDecReg => exact transaction_executeIncDecReg i
  | incDecRm => exact transaction_executeIncDecRm i
  | movRmReg =>
    exact (query_readReg i _ size).bind fun v => (transaction_writeRm i size v).retire i
  | movRegRm =>
    exact (query_readRm i size).bind fun v => (update_writeGpr _ size v).transaction.retire i
  | movRegImm => exact (update_writeGpr _ size i.imm).transaction.retire i
  | movRmImm => exact (transaction_writeRm i size _).retire i
  | movzx => exact transaction_executeExtend i false
  | movsx => exact transaction_executeExtend i true
  | lea => exact transaction_executeLea i
  | movFromSreg => exact transaction_executeMovFromSreg i
  | pushReg => exact query_cpu.bind fun c => (transaction_push size _).retire i
  | popReg =>
    refine (transaction_pop size).then (fun v => update_modifyCpu_finish _ i .proceed) ?_
    rintro c v c₁ _ _ hc ⟨rfl, rfl⟩
    exact ⟨rfl, (hc.trans (Cpu.Stays.writeGpr c₁ _ size v)).passes i.step⟩
  | pushImm => exact (transaction_push size _).retire i
  | flagOp => exact transaction_executeFlagOp i
  | cli =>
    exact (query_require _).bind fun _ =>
      transaction_setFlag_retire i _ _ (by decide) (by decide)
  | _ =>
    rw [Instruction.blockEffect, hop] at h
    cases h

/-- An instruction without semantics here does not complete. -/
theorem conduct_execute_unsupported {i : Instruction} (hop : i.operation = .unsupported) :
    Transaction (execute i : Exec M Outcome) i.Ends ∧ Conduct (execute i : Exec M Outcome) := by
  unfold execute
  extract_lets size jp
  have hstop : jp () = (return .stop (.assist .unsupported) : Exec M Outcome) := by
    dsimp only [jp]
    rw [hop]
  have hends : Update (return .stop (.assist .unsupported) : Exec M Outcome) i.Ends :=
    Update.pure fun c => ⟨.inr ⟨_, rfl, rfl, rfl⟩, by rintro - ⟨⟩⟩
  split
  · exact ⟨.throw_bind _ _, .of_lands (.throw_bind _ _)⟩
  · exact hstop ▸ ⟨hends.transaction, .stop rfl⟩

/-- Near branches land, taken or not. -/
theorem transaction_execute_branch {i : Instruction}
    (h : i.blockEffect = .branch ∨ i.blockEffect = .condBranch) :
    Transaction (execute i : Exec M Outcome) fun _ o c' => o.Lands c' := by
  unfold execute
  extract_lets size jp
  split
  · exact .throw_bind _ _
  dsimp only [jp]
  cases hop : i.operation with
  | jmpRel => exact query_cpu.bind fun c => transaction_branchTo _ size
  | jcc =>
    refine query_cpu.bind fun c => ?_
    split
    · exact transaction_branchTo _ size
    · exact (transaction_retire i).weaken fun _ _ _ h => h.lands
  | loopRel => exact transaction_executeLoop i
  | callRel => exact query_cpu.bind fun c => transaction_callTo _ _ size
  | callRm =>
    exact (query_readRm i size).bind fun target =>
      query_cpu.bind fun c => transaction_callTo target _ size
  | jmpRm => exact (query_readRm i size).bind fun target => transaction_branchTo target size
  | ret => exact transaction_retNear size 0
  | retImm => exact transaction_retNear size i.imm
  | _ =>
    rw [Instruction.blockEffect, hop] at h
    obtain h | h := h <;> cases h

/-- Instructions that may change the mode land, or they are left to the monitor. -/
theorem conduct_execute_modeChange {i : Instruction} (h : i.blockEffect = .modeChange) :
    Conduct (execute i : Exec M Outcome) := by
  unfold execute
  extract_lets size jp
  split
  · exact .of_lands (.throw_bind _ _)
  dsimp only [jp]
  cases hop : i.operation with
  | farJmp | farCall | farRet | iret => exact conduct_farTransfer i
  | movToSreg => exact conduct_loadSegment i
  | movCr => exact conduct_moveControl i
  | popf =>
    exact .of_lands ((query_require _).bind fun _ => (transaction_pop size).then
      (fun image => update_finish_lands _ i (by rintro _ ⟨⟩)) fun _ _ _ _ _ _ h => h)
  | system => exact .stop rfl
  | _ =>
    rw [Instruction.blockEffect, hop] at h
    cases h

/-- Instructions that stop a block for another reason land, or they are left to the monitor. -/
theorem conduct_execute_stop {i : Instruction} (h : i.blockEffect = .stop) :
    Conduct (execute i : Exec M Outcome) := by
  unfold execute
  extract_lets size jp
  split
  · exact .of_lands (.throw_bind _ _)
  dsimp only [jp]
  cases hop : i.operation with
  | invalid | ud2 => exact .of_lands (.throw _)
  | io | cpuid => exact .stop rfl
  | hlt => exact .of_lands (transaction_halt i.step)
  | sti =>
    exact .of_lands ((query_require _).bind fun _ =>
      (update_finish_lands _ i (by rintro _ ⟨⟩)).transaction)
  | int3 => exact .of_lands (transaction_finish i (by rintro _ ⟨⟩; rfl))
  | intImm =>
    exact .of_lands ((query_require _).bind fun _ => transaction_finish i (by rintro _ ⟨⟩; rfl))
  | into =>
    refine .of_lands (query_cpu.bind fun c => ?_)
    split
    · exact transaction_finish i (by rintro _ ⟨⟩; rfl)
    · exact (transaction_retire i).weaken fun _ _ _ h => h.lands
  | _ =>
    rw [Instruction.blockEffect, hop] at h
    cases h

/-- **Executing any instruction is a transaction, and ends in one of the ways above.** -/
theorem execute_conduct (i : Instruction) :
    Transaction (execute i : Exec M Outcome) i.Ends ∧ Conduct (execute i : Exec M Outcome) := by
  -- The effect on the block decides in which of the ways an instruction can end.
  have hsettle (h : i.blockEffect ≠ .straight) (hf : Conduct (execute i : Exec M Outcome)) :
      Transaction (execute i : Exec M Outcome) i.Ends ∧ Conduct (execute i : Exec M Outcome) :=
    ⟨hf.transaction.weaken fun _ _ _ hs => ⟨hs, fun hi => absurd hi h⟩, hf⟩
  cases heffect : i.blockEffect with
  | straight =>
    by_cases hop : i.operation = .unsupported
    · exact conduct_execute_unsupported hop
    · have hpasses : Transaction (execute i : Exec M Outcome) _ := transaction_execute heffect hop
      exact ⟨hpasses.weaken fun _ _ _ h => h.ends, .of_lands (hpasses.weaken fun _ _ _ h => h.lands)⟩
  | branch =>
    exact hsettle (by rw [heffect]; decide) (.of_lands (transaction_execute_branch (.inl heffect)))
  | condBranch =>
    exact hsettle (by rw [heffect]; decide) (.of_lands (transaction_execute_branch (.inr heffect)))
  | modeChange => exact hsettle (by rw [heffect]; decide) (conduct_execute_modeChange heffect)
  | stop => exact hsettle (by rw [heffect]; decide) (conduct_execute_stop heffect)

end Exec

end X86Replay

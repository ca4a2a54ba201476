import X86Replay.Proofs.Atomicity
import X86Replay.Proofs.Replaying
import X86Replay.Proofs.StraightLine
import X86Replay.Proofs.WellFormedBlocks

/-!
# Where instructions fault and interrupt

* `Instruction.vector?`: the instructions that interrupt, with their vectors.
* `Exec.Quiet`: a computation that never interrupts.
* `execute_interrupt`, `Call.run_interrupt`: only those instructions do, and RIP is then past them. A
  call interrupts only if it is deferred.
* `Cpu.ripAt`, `CallsProceed`: where RIP stands after calls, each of which was to be followed by the
  next one.
* `Sequence.ripAt`: before a call of a block runs, RIP stands at its instruction.
-/

namespace X86Replay

variable {M : Type}

/-- The vector through which the instruction interrupts, if it does. -/
def Instruction.vector? (i : Instruction) : Option UInt8 :=
  match i.operation with
  | .int3 => some 3
  | .intImm => some i.imm.toUInt8
  | .into => some 4
  | _ => none

/-- The outcome is not a software interrupt. -/
def Outcome.Quiet (o : Outcome) : Prop :=
  ∀ v, o ≠ .stop (.softwareInterrupt v)

theorem Outcome.quiet_proceed : Outcome.Quiet .proceed := by
  rintro v ⟨⟩

theorem Outcome.quiet_leave : Outcome.Quiet .leave := by
  rintro v ⟨⟩

namespace Exec

/-! ## Computations that do not interrupt -/

/-- The computation never ends with a software interrupt. -/
def Quiet (f : Exec M Outcome) : Prop :=
  ∀ ⦃m o m'⦄, f m = (.ok o, m') → o.Quiet

variable {α : Type}

theorem quiet_pure {o : Outcome} (h : o.Quiet) : Quiet (pure o : Exec M Outcome) := by
  rintro m _ _ ⟨⟩
  exact h

theorem quiet_throw (e : Exception) : Quiet (throw e : Exec M Outcome) := by
  rintro m _ _ ⟨⟩

theorem quiet_throw_bind (e : Exception) (g : α → Exec M Outcome) :
    Quiet ((MonadExcept.throw e : Exec M α) >>= g) := by
  rintro m _ _ ⟨⟩

/-- Only the last part of a computation matters. -/
theorem Quiet.bind {f : Exec M α} {g : α → Exec M Outcome} (hg : ∀ a, Quiet (g a)) :
    Quiet (f >>= g) := by
  intro m o m' h
  obtain ⟨a, m₁, -, ha⟩ := bind_ok.1 h
  exact hg a ha

theorem quiet_finish (i : Instruction) {o : Outcome} (h : o.Quiet) :
    Quiet (finish i o : Exec M Outcome) :=
  .bind fun _ => quiet_pure h

theorem quiet_retire (i : Instruction) : Quiet (retire i : Exec M Outcome) :=
  quiet_finish i Outcome.quiet_proceed

theorem quiet_halt (length : UInt64) : Quiet (halt length : Exec M Outcome) :=
  .bind fun _ => .bind fun _ => quiet_pure (by rintro v ⟨⟩)

theorem quiet_branchTo (target : UInt64) (size : OperandSize) :
    Quiet (branchTo target size : Exec M Outcome) :=
  .bind fun _ => .bind fun _ => quiet_pure Outcome.quiet_proceed

theorem quiet_executeLoop (i : Instruction) : Quiet (executeLoop i : Exec M Outcome) := by
  refine .bind fun c => ?_
  split
  split
  · exact .bind fun _ => .bind fun _ => quiet_pure Outcome.quiet_proceed
  · exact .bind fun _ => quiet_retire i

theorem quiet_moveControl (i : Instruction) : Quiet (moveControl i : Exec M Outcome) := by
  refine .bind fun _ => ?_
  split
  · refine .bind fun c => ?_
    extract_lets number gpr width
    split
    · exact quiet_pure (by rintro v ⟨⟩)
    · split
      · split
        · exact .bind fun _ => quiet_retire i
        · refine .bind fun _ => quiet_finish i ?_
          split
          · exact Outcome.quiet_proceed
          · exact Outcome.quiet_leave
      · exact quiet_throw _
  · exact quiet_throw _

/-! ## Instructions -/

/-- The computation interrupts only as the instruction does, with RIP past it. -/
def Speaks (i : Instruction) (f : Exec M Outcome) : Prop :=
  ∀ ⦃m v m'⦄, f m = (.ok (.stop (.softwareInterrupt v)), m') →
    i.vector? = some v ∧ m'.cpu = m.cpu.advanceRip i.step

theorem Quiet.speaks {f : Exec M Outcome} (hf : Quiet f) (i : Instruction) : Speaks i f :=
  fun _ v _ h => absurd rfl (hf h v)

theorem speaks_interrupt {i : Instruction} {vector : UInt8} (h : i.vector? = some vector) :
    Speaks i (interrupt i vector : Exec M Outcome) := by
  rintro m _ _ ⟨⟩
  exact ⟨h, rfl⟩

theorem speaks_cpu_bind {i : Instruction} {g : Cpu → Exec M Outcome} (hg : ∀ c, Speaks i (g c)) :
    Speaks i (cpu >>= g) := by
  intro m v m' h
  rw [bind_apply, cpu_apply] at h
  exact hg m.cpu h

theorem speaks_require_bind {i : Instruction} {p : Cpu → Bool} {g : Unit → Exec M Outcome}
    (hg : Speaks i (g ())) : Speaks i (require p >>= g) := by
  intro m v m' h
  obtain ⟨_, m₁, hrequire, h⟩ := bind_ok.1 h
  rw [require_apply, Prod.mk.injEq] at hrequire
  obtain ⟨-, rfl⟩ := hrequire
  exact hg h

variable [GuestMemory M]

theorem quiet_callTo (target returnRip : UInt64) (size : OperandSize) :
    Quiet (callTo target returnRip size : Exec M Outcome) :=
  .bind fun _ => .bind fun _ => .bind fun _ => quiet_pure Outcome.quiet_proceed

theorem quiet_retNear (size : OperandSize) (release : UInt64) :
    Quiet (retNear size release : Exec M Outcome) :=
  .bind fun _ => .bind fun _ => .bind fun _ => .bind fun _ => quiet_pure Outcome.quiet_proceed

theorem quiet_loadSegment (i : Instruction) : Quiet (loadSegment i : Exec M Outcome) := by
  refine .bind fun c => ?_
  split
  · exact quiet_pure (by rintro v ⟨⟩)
  · refine .bind fun r => .bind fun _ => quiet_finish i ?_
    split
    · exact Outcome.quiet_leave
    · exact Outcome.quiet_proceed

theorem quiet_farTransfer (i : Instruction) : Quiet (farTransfer i : Exec M Outcome) := by
  refine .bind fun c => ?_
  split
  · exact quiet_pure (by rintro v ⟨⟩)
  · refine .bind fun r => .bind fun _ => .bind fun _ => .bind fun _ => quiet_pure ?_
    split
    · exact Outcome.quiet_leave
    · exact Outcome.quiet_proceed

/-- **Only `INT3`, `INT n` and `INTO` interrupt**, with RIP past the instruction and nothing else
    changed. -/
theorem execute_interrupt (i : Instruction) : Speaks i (execute i : Exec M Outcome) := by
  by_cases hstraight : i.blockEffect = .straight ∧ i.operation ≠ .unsupported
  · refine Quiet.speaks (fun m o m' h => ?_) i
    obtain ⟨rfl, -⟩ := (transaction_execute hstraight.1 hstraight.2).post h
    exact Outcome.quiet_proceed
  unfold execute
  extract_lets size jp
  have hjp : Speaks i (jp ()) := by
    dsimp only [jp]
    cases hop : i.operation with
    | invalid | ud2 => exact (quiet_throw _).speaks i
    | unsupported | io | system | cpuid => exact (quiet_pure (by rintro v ⟨⟩)).speaks i
    | movToSreg => exact (quiet_loadSegment i).speaks i
    | jmpRel => exact (Quiet.bind fun _ => quiet_branchTo _ size).speaks i
    | jcc =>
      refine (Quiet.bind fun c => ?_).speaks i
      split
      · exact quiet_branchTo _ size
      · exact quiet_retire i
    | loopRel => exact (quiet_executeLoop i).speaks i
    | callRel => exact (Quiet.bind fun _ => quiet_callTo _ _ size).speaks i
    | callRm => exact (Quiet.bind fun _ => .bind fun _ => quiet_callTo _ _ size).speaks i
    | jmpRm => exact (Quiet.bind fun _ => quiet_branchTo _ size).speaks i
    | ret => exact (quiet_retNear size 0).speaks i
    | retImm => exact (quiet_retNear size i.imm).speaks i
    | farJmp | farCall | farRet | iret => exact (quiet_farTransfer i).speaks i
    | hlt => exact (quiet_halt i.step).speaks i
    | sti =>
      exact (Quiet.bind fun _ => .bind fun _ => quiet_finish i Outcome.quiet_leave).speaks i
    | popf =>
      exact (Quiet.bind fun _ => .bind fun _ => .bind fun _ =>
        quiet_finish i Outcome.quiet_leave).speaks i
    | movCr => exact (quiet_moveControl i).speaks i
    | int3 => exact speaks_interrupt (by rw [Instruction.vector?, hop])
    | intImm => exact speaks_require_bind (speaks_interrupt (by rw [Instruction.vector?, hop]))
    | into =>
      refine speaks_cpu_bind fun c => ?_
      split
      · exact speaks_interrupt (by rw [Instruction.vector?, hop])
      · exact (quiet_retire i).speaks i
    | _ =>
      -- All others are straight.
      refine absurd ⟨?_, ?_⟩ hstraight
      · rw [Instruction.blockEffect, hop]
        rfl
      · rw [hop]
        decide
  split
  · exact (quiet_throw_bind _ _).speaks i
  · exact hjp

end Exec

/-! ## Calls -/

namespace Call

open Exec

variable (c : Call)

theorem quiet_retire : Quiet (c.retire : Exec M Outcome) :=
  .bind fun _ => quiet_pure Outcome.quiet_proceed

theorem quiet_runAlu (src : UInt64) : Quiet (c.runAlu src : Exec M Outcome) := by
  unfold runAlu
  refine .bind fun _ => ?_
  extract_lets
  split
  split
  · exact .bind fun _ => .bind fun _ => c.quiet_retire
  · exact .bind fun _ => c.quiet_retire

theorem quiet_runJump : Quiet (c.runJump : Exec M Outcome) :=
  .bind fun _ => quiet_branchTo _ _

variable [GuestMemory M]

/-- A call with a handler made for its instruction does not interrupt. -/
theorem quiet_run (h : c.handler ≠ .deferred) : Quiet (c.run : Exec M Outcome) := by
  unfold run
  cases hc : c.handler with
  | nop => exact c.quiet_retire
  | checkLimit => exact .bind fun _ => quiet_pure Outcome.quiet_proceed
  | movRegImm | movRegReg => exact .bind fun _ => c.quiet_retire
  | storeReg | incDecReg | pushReg => exact .bind fun _ => .bind fun _ => c.quiet_retire
  | loadReg => exact .bind fun _ => .bind fun _ => .bind fun _ => c.quiet_retire
  | popReg => exact .bind fun _ => .bind fun _ => c.quiet_retire
  | aluRegReg => exact .bind fun _ => c.quiet_runAlu _
  | aluRegImm => exact c.quiet_runAlu _
  | jmpRel => exact c.quiet_runJump
  | jccRel =>
    refine .bind fun _ => ?_
    split
    · exact c.quiet_runJump
    · exact c.quiet_retire
  | callRel => exact .bind fun _ => quiet_callTo _ _ _
  | ret => exact quiet_retNear _ _
  | hlt => exact quiet_halt _
  | deferred => exact absurd hc h

/-- **A call interrupts only if it is deferred and its bytes are those of an instruction that
    does.** -/
theorem run_interrupt {v : UInt8} {m m' : Machine M}
    (h : c.run m = (.ok (.stop (.softwareInterrupt v)), m')) :
    ∃ i, c.handler = .deferred ∧ decode m.cpu.codeWidth c.raw = .ok i ∧ i.vector? = some v ∧
      m'.cpu = m.cpu.advanceRip i.step := by
  by_cases hc : c.handler = .deferred
  · rw [c.run_deferred hc] at h
    obtain ⟨i, m₁, hcheck, hexecute⟩ := bind_ok.1 h
    rw [check_apply, Prod.mk.injEq] at hcheck
    obtain ⟨hdecode, rfl⟩ := hcheck
    obtain ⟨hvector, hcpu⟩ := execute_interrupt i hexecute
    refine ⟨i, hc, ?_, hvector, hcpu⟩
    unfold decodeOrFault at hdecode
    unfold raw
    revert hdecode
    cases decode m.cpu.codeWidth ((unpackBytes c.p0 c.p1).take c.p2.toNat) with
    | ok j =>
      rintro ⟨⟩
      rfl
    | error x => rintro ⟨⟩
  · exact absurd rfl (c.quiet_run hc h v)

end Call

variable [GuestMemory M]

/-! ## Calls that go on -/

/-- The calls were each to be followed by the next one. -/
inductive CallsProceed : List Call → Machine M → Machine M → Prop
  | nil (m : Machine M) : CallsProceed [] m m
  | cons {c : Call} {calls : List Call} {m m₁ m₂ : Machine M} :
      c.run m = (.ok .proceed, m₁) → CallsProceed calls m₁ m₂ → CallsProceed (c :: calls) m m₂

theorem CallsProceed.append {calls calls' : List Call} {m m₂ : Machine M}
    (h : CallsProceed (calls ++ calls') m m₂) :
    ∃ m₁, CallsProceed calls m m₁ ∧ CallsProceed calls' m₁ m₂ := by
  induction calls generalizing m with
  | nil => exact ⟨m, .nil m, h⟩
  | cons c calls ih =>
    cases h with
    | cons hc hrest =>
      obtain ⟨m₁, hcalls, hcalls'⟩ := ih hrest
      exact ⟨m₁, .cons hc hcalls, hcalls'⟩

/-! ## The calls of a block -/

/-- RIP at an offset of the code at CS:RIP. At the start it need not be one that the code can load. -/
def Cpu.ripAt (cpu : Cpu) (o : Nat) : UInt64 :=
  if o = 0 then cpu.rip else (cpu.advanceRip o.toUInt64).rip

/-- Straight-line code has led to an offset. -/
structure Cpu.Stands (cpu : Cpu) (o : Nat) (cpu' : Cpu) : Prop where
  width : cpu'.codeWidth = cpu.codeWidth
  rip : cpu'.rip = cpu.ripAt o

theorem Cpu.Stands.refl (cpu : Cpu) : cpu.Stands 0 cpu :=
  ⟨rfl, rfl⟩

/-- Straight-line code leads on by its size. -/
theorem Cpu.Stands.passes {cpu cpu₁ cpu₂ : Cpu} {o n : Nat} (h : cpu.Stands o cpu₁)
    (hpasses : cpu₁.Passes n.toUInt64 cpu₂) (hn : 0 < n) (hle : o + n < 2 ^ 64) :
    cpu.Stands (o + n) cpu₂ where
  width := hpasses.mode.codeWidth_eq.trans h.width
  rip := by
    have hsum : (o + n).toUInt64 = o.toUInt64 + n.toUInt64 := by
      rw [← UInt64.toNat_inj, UInt64.toNat_add, CompileContext.toNat_toUInt64 hle,
        CompileContext.toNat_toUInt64 (by omega), CompileContext.toNat_toUInt64 (by omega)]
      omega
    rw [hpasses.rip, h.width, h.rip, ripAt, ripAt, if_neg (by omega : ¬o + n = 0), hsum]
    show _ = (cpu.rip + (o.toUInt64 + n.toUInt64)) &&& cpu.codeWidth.ipLimit
    by_cases ho : o = 0
    · rw [if_pos ho, ho]
      show _ = (cpu.rip + (0 + n.toUInt64)) &&& _
      rw [UInt64.zero_add]
    · rw [if_neg ho, ← UInt64.add_assoc]
      exact Cpu.and_ipLimit_add _ _ _

namespace CompileContext

open Exec

variable {c : CompileContext} {cpu : Cpu} {e : Encoding} {es : List Encoding} {o : Nat}
  {m m₁ m₂ : Machine M}

/-- Once all calls of an instruction have gone on, the last one has. The check changes nothing. -/
theorem proceed_callsOf (he : c.ShapedAt o e) (h : CallsProceed (c.callsOf o e) m m₁) :
    (e.toCall o).run m = (.ok .proceed, m₁) := by
  have hone (m) (h : CallsProceed [e.toCall o] m m₁) : (e.toCall o).run m = (.ok .proceed, m₁) := by
    obtain _ | ⟨hcall, ⟨⟩⟩ := h
    exact hcall
  unfold callsOf at h
  split_ifs at h
  · cases h with
    | cons hcheck hcall =>
      rw [run_limitCheck (Encoding.length_pos he.decoded) (Encoding.length_le he.decoded)] at hcheck
      split_ifs at hcheck
      · cases hcheck
        exact hone _ hcall
      · cases hcheck
  · exact hone _ h

/-- Before the last call of an instruction nothing has changed. -/
theorem proceed_before (he : c.ShapedAt o e) {pre post : List Call} {call : Call}
    (hcalls : c.callsOf o e = pre ++ call :: post) (h : CallsProceed pre m m₁) : m₁ = m := by
  have hpre : pre = [] ∨ pre = [limitCheck o e] := by
    have hlength := congrArg List.length hcalls
    rw [length_callsOf, callsPerInstruction, List.length_append, List.length_cons] at hlength
    unfold callsOf at hcalls
    obtain _ | ⟨check, _ | ⟨_, _⟩⟩ := pre
    · exact .inl rfl
    · split_ifs at hcalls
      · cases hcalls
        exact .inr rfl
      · cases hcalls
    · rw [List.length_cons, List.length_cons] at hlength
      split_ifs at hlength <;> omega
  obtain rfl | rfl := hpre
  · cases h
    rfl
  · obtain _ | ⟨hcheck, ⟨⟩⟩ := h
    rw [run_limitCheck (Encoding.length_pos he.decoded) (Encoding.length_le he.decoded)] at hcheck
    split_ifs at hcheck
    · cases hcheck
      rfl
    · cases hcheck

/-- An instruction that goes on leads to the next offset. -/
theorem stands_next (hwidth : c.width = cpu.codeWidth) (ho : c.place o < 4096)
    (he : c.ShapedAt o e) (hgoes : e.GoesOn) (hm : cpu.Stands o m.cpu)
    (h : CallsProceed (c.callsOf o e) m m₁) : cpu.Stands (o + e.length) m₁.cpu := by
  obtain ⟨i, hi, hstraight⟩ := hgoes.decoded
  have hrun := proceed_callsOf he h
  rw [Encoding.run_toCall_ok he.decoded hi (hm.width.trans hwidth.symm)] at hrun
  have hpasses := ((execute_conduct i).1.post hrun).passes hstraight rfl
  have hpos := Encoding.length_pos he.decoded
  have hle := Encoding.length_le he.decoded
  have hstep : i.step = e.length.toUInt64 := by
    rw [Encoding.length_ok hi, ← UInt64.toNat_inj, toNat_toUInt64 (by
      have := i.length.toNat_lt
      omega)]
    exact UInt8.toNat_toUInt64 i.length
  rw [hstep] at hpasses
  unfold place at ho
  unfold maxInstructionLength at hle
  exact hm.passes hpasses hpos (by omega)

/-- **Before a call of a block runs, RIP stands at its instruction.** -/
theorem Sequence.ripAt {pre post : List Call} {call : Call} (h : c.Sequence o es)
    (hwidth : c.width = cpu.codeWidth) (hm : cpu.Stands o m.cpu)
    (hcalls : c.listing o es = pre ++ call :: post) (hpre : CallsProceed pre m m₁) :
    m₁.cpu.rip = cpu.ripAt call.offset.toNat := by
  induction es generalizing o m pre with
  | nil => cases pre <;> cases hcalls
  | cons e es ih =>
    obtain ⟨ho, he, hgoes, hes⟩ := h
    rw [listing] at hcalls
    -- The call is one of a later instruction, or of this one.
    have hsplit : (∃ l, pre = c.callsOf o e ++ l ∧ c.listing (o + e.length) es = l ++ call :: post) ∨
        ∃ l, c.callsOf o e = pre ++ call :: l := by
      obtain ⟨l, hpre, hl⟩ | ⟨_ | ⟨first, l⟩, hfirst, hrest⟩ := List.append_eq_append_iff.1 hcalls
      · exact .inl ⟨l, hpre, hl⟩
      · exact .inl ⟨[], by rw [hfirst, List.append_nil, List.append_nil], hrest.symm⟩
      · cases hrest
        exact .inr ⟨l, hfirst⟩
    obtain ⟨l, rfl, hl⟩ | ⟨l, hfirst⟩ := hsplit
    · obtain ⟨m', hdone, hpre⟩ := hpre.append
      have hne : es ≠ [] := by
        rintro rfl
        cases l <;> cases hl
      exact ih hes (stands_next hwidth ho he (hgoes hne) hm hdone) hl hpre
    · have hmem : call ∈ c.callsOf o e := by
        rw [hfirst]
        exact List.mem_append_right _ List.mem_cons_self
      rw [proceed_before he hfirst hpre, (he.of_mem_callsOf ho hmem).1]
      exact hm.rip

end CompileContext

end X86Replay

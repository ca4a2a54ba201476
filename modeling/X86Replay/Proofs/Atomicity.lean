import X86Replay.Block.Call
import X86Replay.Memory.Flat
import X86Replay.Proofs.Stepping

/-!
# Instructions that are not completed

* `Route`: the ways to execute one instruction: decoded before, from its bytes, from memory, or by a
  call of a block, whatever its words are.
* `Exec.Defers`: a transaction that changes nothing when it leaves the instruction to the monitor.
* `Route.defers`: this is what every instruction does on every way.
* `Route.cpu_eq_of_incomplete`: an instruction that faults, or is left to the monitor, leaves the
  processor as it was.
-/

namespace X86Replay

variable {M : Type}

/-! ## Answers that do not complete an instruction -/

/-- The answer is an exception, an I/O access or an assist. -/
inductive Incomplete : Except Exception Outcome → Prop
  | fault (e : Exception) : Incomplete (.error e)
  | io (request : IoRequest) : Incomplete (.ok (.stop (.io request)))
  | assist (reason : AssistReason) : Incomplete (.ok (.stop (.assist reason)))

theorem incomplete_ok {o : Outcome} : Incomplete (.ok o) ↔ o.retires = false := by
  constructor
  · rintro (_ | _)
    · rfl
    · rfl
  · intro h
    rcases o with _ | _ | ⟨_ | request | _ | reason⟩
    · cases h
    · cases h
    · cases h
    · exact .io request
    · cases h
    · exact .assist reason

theorem Outcome.Lands.retires {o : Outcome} {c' : Cpu} (h : o.Lands c') : o.retires := by
  cases o with
  | proceed | leave => rfl
  | stop s => exact h.1 s rfl

namespace Exec

variable [GuestMemory M] {f : Exec M Outcome}

/-- A transaction that changes nothing when it does not complete the instruction. -/
structure Defers (f : Exec M Outcome) : Prop where
  transaction : Transaction f fun _ _ _ => True
  pends : ∀ {m m' o}, f m = (.ok o, m') → o.retires = false → m' = m

theorem Conduct.defers (h : Conduct f) : Defers f where
  transaction := h.transaction.weaken fun _ _ _ _ => trivial
  pends {m m' o} hok hretires := by
    obtain hlands | ⟨s, rfl, hs, -⟩ := h.transaction.post hok
    · rw [hlands.retires] at hretires
      cases hretires
    · exact h.pends hok hs

theorem Defers.of_retires (h : Transaction f fun _ o _ => o.retires) : Defers f where
  transaction := h.weaken fun _ _ _ _ => trivial
  pends hok hretires := by
    rw [h.post hok] at hretires
    cases hretires

end Exec

/-! ## Calls -/

namespace Call

open Exec

variable (c : Call)

theorem update_retire : Update (c.retire : Exec M Outcome) fun _ o _ => o.retires := fun cpu =>
  ⟨.proceed, cpu.advanceRip c.step, rfl, fun _ _ => rfl⟩

theorem update_modifyCpu_retire (u : Cpu → Cpu) :
    Update (do modifyCpu u; c.retire : Exec M Outcome) fun _ o _ => o.retires := fun cpu =>
  ⟨.proceed, (u cpu).advanceRip c.step, rfl, fun _ _ => rfl⟩

theorem update_runAlu (src : UInt64) :
    Update (c.runAlu src : Exec M Outcome) fun _ o _ => o.retires := by
  intro cpu
  refine ⟨.proceed, (c.runAlu src (⟨cpu, (), #[]⟩ : Machine Unit)).2.cpu, rfl, fun mem log => ?_⟩
  unfold runAlu
  simp only [bind_apply, cpu_apply]
  split <;> rfl

variable [GuestMemory M]

/-- Work that leaves the completion of the instruction to the end. -/
theorem transaction_retire {α : Type} {f : Exec M α} {P : Cpu → α → Cpu → Prop}
    (hf : Transaction f P) :
    Transaction (f >>= fun _ => c.retire) fun _ o _ => o.retires :=
  hf.then (fun _ => c.update_retire) fun _ _ _ _ _ _ h => h

theorem transaction_runJump : Transaction (c.runJump : Exec M Outcome) fun _ o _ => o.retires :=
  query_cpu.bind fun _ => (transaction_branchTo _ _).weaken fun _ _ _ h => h.retires

/-- **Every call but the deferred one is a transaction that completes its instruction.** -/
theorem transaction_run (h : c.handler ≠ .deferred) :
    Transaction (c.run : Exec M Outcome) fun _ o _ => o.retires := by
  unfold run
  cases hc : c.handler with
  | nop => exact c.update_retire.transaction
  | checkLimit => exact (query_require _).bind fun _ => (Update.pure fun _ => rfl).transaction
  | movRegImm | movRegReg => exact Update.transaction (c.update_modifyCpu_retire _)
  | loadReg =>
    exact query_cpu.bind fun _ => (query_readMem _ _ _).bind fun _ =>
      (c.update_modifyCpu_retire _).transaction
  | storeReg => exact query_cpu.bind fun _ => c.transaction_retire (query_writeMem _ _ _ _)
  | aluRegReg => exact query_cpu.bind fun _ => (c.update_runAlu _).transaction
  | aluRegImm => exact (c.update_runAlu _).transaction
  | incDecReg => exact query_cpu.bind fun _ => (c.update_modifyCpu_retire _).transaction
  | pushReg => exact query_cpu.bind fun _ => c.transaction_retire (transaction_push _ _)
  | popReg =>
    exact (transaction_pop _).then (fun _ => c.update_modifyCpu_retire _) fun _ _ _ _ _ _ h => h
  | jmpRel => exact c.transaction_runJump
  | jccRel =>
    refine query_cpu.bind fun _ => ?_
    split
    · exact c.transaction_runJump
    · exact c.update_retire.transaction
  | callRel =>
    exact query_cpu.bind fun _ => (transaction_callTo _ _ _).weaken fun _ _ _ h => h.retires
  | ret => exact (transaction_retNear _ _).weaken fun _ _ _ h => h.retires
  | hlt => exact (transaction_halt _).weaken fun _ _ _ h => h.retires
  | deferred => exact absurd hc h

theorem run_deferred (h : c.handler = .deferred) :
    (c.run : Exec M Outcome) = executeBytes ((unpackBytes c.p0 c.p1).take c.p2.toNat) := by
  unfold run
  rw [h]

theorem defers_run : Defers (c.run : Exec M Outcome) := by
  by_cases h : c.handler = .deferred
  · rw [c.run_deferred h]
    exact (conduct_executeBytes _).defers
  · exact .of_retires (c.transaction_run h)

end Call

/-! ## All ways to execute an instruction -/

/-- A way to execute one instruction. -/
inductive Route where
  /-- An instruction that has been decoded. -/
  | decoded (i : Instruction)
  /-- An instruction of which the bytes are given. -/
  | raw (bytes : List UInt8)
  /-- The instruction at CS:RIP. -/
  | fetched
  /-- A call of a block. -/
  | compiled (c : Call)

namespace Route

variable [GuestMemory M]

/-- Executes the instruction. -/
def run : Route → Exec M Outcome
  | decoded i => Exec.execute i
  | raw bytes => Exec.executeBytes bytes
  | fetched => Exec.step
  | compiled c => c.run

theorem defers (r : Route) : Exec.Defers (r.run : Exec M Outcome) := by
  cases r with
  | decoded i => exact (Exec.execute_conduct i).2.defers
  | raw bytes => exact (Exec.conduct_executeBytes bytes).defers
  | fetched => exact Exec.conduct_step.defers
  | compiled c => exact c.defers_run

/-- **An instruction that is not completed leaves the whole processor as it was**, however it is
    executed. One that is left to the monitor leaves memory and log as they were, too. -/
theorem cpu_eq_of_incomplete (r : Route) {m m' : Machine M} {result : Except Exception Outcome}
    (hrun : r.run m = (result, m')) (h : Incomplete result) :
    m'.cpu = m.cpu ∧ ((∀ e, result ≠ .error e) → m' = m) := by
  cases result with
  | error e =>
    refine ⟨r.defers.transaction.fault hrun, fun hne => ?_⟩
    exact absurd rfl (hne e)
  | ok o =>
    have hsame : m' = m := r.defers.pends hrun (incomplete_ok.1 h)
    exact ⟨by rw [hsame], fun _ => hsame⟩

/-- The same for a `LOOP` whose target lies past the end of the code segment and so does not count,
    for a call that pushes to a protected page, and for an `OUT`. -/
theorem cpu_eq_of_incomplete_loop :
    ∃ (m : Machine FlatMemory) (push : Call),
      ((raw [0x66, 0xE2, 0x7F]).run m).1 = .error (.generalProtection 0) ∧
      ((compiled push).run m).1 = .error (.pageFault 0x1E 0x3) ∧
      ((raw [0xE6, 0x80]).run m).1 = .ok (.stop (.io ⟨some 0x80, 1, true, false, false⟩)) ∧
      ((raw [0x66, 0xE2, 0x7F]).run m).2.cpu = m.cpu ∧ ((compiled push).run m).2.cpu = m.cpu ∧
      ((raw [0xE6, 0x80]).run m).2 = m := by
  obtain ⟨m, hm⟩ : ∃ m : Machine FlatMemory,
      m = ⟨{ Cpu.realMode with rip := 0xFFF0, gpr := (Cpu.realMode.gpr.set 1 2).set 4 0x20 },
        (FlatMemory.zeros 0x40).protect 0, #[]⟩ := ⟨_, rfl⟩
  obtain ⟨push, hpush⟩ : ∃ push : Call,
      push = ⟨.pushReg, 1, 0, 0, RegisterOperand.pack ⟨0, .bits16⟩, 0, 0⟩ := ⟨_, rfl⟩
  have hloop : ((raw [0x66, 0xE2, 0x7F]).run m).1 = .error (.generalProtection 0) := by
    rw [hm]
    rfl
  have hfault : ((compiled push).run m).1 = .error (.pageFault 0x1E 0x3) := by
    rw [hm, hpush]
    rfl
  have hout : ((raw [0xE6, 0x80]).run m).1 =
      .ok (.stop (.io ⟨some 0x80, 1, true, false, false⟩)) := by
    rw [hm]
    rfl
  refine ⟨m, push, hloop, hfault, hout, ?_, ?_, ?_⟩
  · exact (cpu_eq_of_incomplete (raw _) (Prod.ext hloop rfl) (.fault _)).1
  · exact (cpu_eq_of_incomplete (compiled push) (Prod.ext hfault rfl) (.fault _)).1
  · refine (cpu_eq_of_incomplete (raw _) (Prod.ext hout rfl) (.io _)).2 ?_
    rintro e ⟨⟩

end Route

end X86Replay

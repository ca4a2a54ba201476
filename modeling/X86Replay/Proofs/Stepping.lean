import X86Replay.Proofs.Execution

/-!
# Executing one instruction after another

* `step_of_fetch`: a step whose instruction has been fetched is a check of the code limit and the
  instruction.
* `Retires`: the machine after a number of instructions that have all been completed. The log only
  grows, and what was in it before makes no difference.
* `Proceeds`: the same for instructions that are all followed by the next one in memory.
-/

namespace X86Replay

variable {M : Type} [GuestMemory M]

/-- Whether the instruction has been completed. -/
def Outcome.retires : Outcome → Bool
  | .proceed | .leave => true
  | .stop s => s.retires

namespace Exec

/-! ## One step -/

theorem step_of_fetch {m : Machine M} {i : Instruction}
    (h : fetchInstruction m.cpu m.mem m.cpu.linearPc = .ok i) :
    step m =
      if m.cpu.is64Bit || m.cpu.codeInLimit i.step then execute i m
      else (.error (.generalProtection 0), m) := by
  unfold step
  rw [bind_apply, check_apply, h]
  dsimp only
  rw [bind_apply, require_apply]
  by_cases hlimit : m.cpu.is64Bit || m.cpu.codeInLimit i.step
  · rw [if_pos hlimit, if_pos hlimit]
  · rw [if_neg hlimit, if_neg hlimit]

theorem conduct_executeBytes (bytes : List UInt8) :
    Conduct (executeBytes bytes : Exec M Outcome) :=
  .check_bind (fun _ _ _ => rfl) fun i => (execute_conduct i).2

/-- A step is a transaction, and leaves an instruction to the monitor only if nothing has
    changed. -/
theorem conduct_step : Conduct (step : Exec M Outcome) :=
  .check_bind (fun _ _ _ => rfl) fun i => .require_bind (execute_conduct i).2

/-- What a step does is the same whatever has been logged before. -/
theorem step_log {cpu : Cpu} {mem : M} {log : Array PhysSpan} {r : Except Exception Outcome}
    {m' : Machine M} (h : step ⟨cpu, mem, log⟩ = (r, m')) (log₂ : Array PhysSpan) :
    ∃ log', step ⟨cpu, mem, log₂⟩ = (r, ⟨m'.cpu, m'.mem, log'⟩) := by
  obtain ⟨r', cpu', mem', new, -, hstep⟩ := conduct_step.transaction.writes cpu mem
  rw [hstep log] at h
  cases h
  exact ⟨log₂ ++ new, hstep log₂⟩

/-- A completed step leaves the instruction pointer at a place that the code can load. -/
theorem inRange_step {m m' : Machine M} {o : Outcome} (h : step m = (.ok o, m'))
    (ho : o.retires) : m'.cpu.InRange := by
  obtain hlands | ⟨s, rfl, hs, -⟩ := conduct_step.transaction.post h
  · exact hlands.2
  · rw [Outcome.retires, hs] at ho
    cases ho

end Exec

/-! ## Steps that complete -/

/-- `n` instructions, executed one at a time, have all been completed. -/
inductive Retires : Nat → Machine M → Machine M → Prop
  | zero (m : Machine M) : Retires 0 m m
  | succ {n : Nat} {m m₁ m₂ : Machine M} {o : Outcome} :
      Exec.step m = (.ok o, m₁) → o.retires → Retires n m₁ m₂ → Retires (n + 1) m m₂

namespace Retires

variable {n k : Nat} {m m₁ m₂ : Machine M}

theorem one {o : Outcome} (h : Exec.step m = (.ok o, m₁)) (ho : o.retires) : Retires 1 m m₁ :=
  .succ h ho (.zero m₁)

theorem trans (h : Retires n m m₁) (h' : Retires k m₁ m₂) : Retires (n + k) m m₂ := by
  induction h with
  | zero => rwa [Nat.zero_add]
  | succ hstep ho _ ih =>
    rw [Nat.add_right_comm]
    exact .succ hstep ho (ih h')

/-- The steps are the same whatever has been logged before. -/
theorem relog (h : Retires n m m₁) (log : Array PhysSpan) :
    ∃ log', Retires n ⟨m.cpu, m.mem, log⟩ ⟨m₁.cpu, m₁.mem, log'⟩ := by
  induction h generalizing log with
  | zero m => exact ⟨log, .zero _⟩
  | succ hstep ho _ ih =>
    obtain ⟨log₁, hstep'⟩ := Exec.step_log hstep log
    obtain ⟨log', h'⟩ := ih log₁
    exact ⟨log', .succ hstep' ho h'⟩

theorem inRange (h : Retires n m m₁) (hm : m.cpu.InRange) : m₁.cpu.InRange := by
  induction h with
  | zero => exact hm
  | succ hstep ho _ ih => exact ih (Exec.inRange_step hstep ho)

end Retires

/-! ## Steps that go on -/

/-- `n` instructions, executed one at a time, were each to be followed by the next one in
    memory. -/
inductive Proceeds : Nat → Machine M → Machine M → Prop
  | zero (m : Machine M) : Proceeds 0 m m
  | succ {n : Nat} {m m₁ m₂ : Machine M} :
      Exec.step m = (.ok .proceed, m₁) → Proceeds n m₁ m₂ → Proceeds (n + 1) m m₂

namespace Proceeds

variable {n : Nat} {m m₁ m₂ : Machine M}

theorem retires (h : Proceeds n m m₁) : Retires n m m₁ := by
  induction h with
  | zero m => exact .zero m
  | succ hstep _ ih => exact .succ hstep rfl ih

theorem snoc (h : Proceeds n m m₁) (hstep : Exec.step m₁ = (.ok .proceed, m₂)) :
    Proceeds (n + 1) m m₂ := by
  induction h with
  | zero => exact .succ hstep (.zero m₂)
  | succ hfirst _ ih => exact .succ hfirst (ih hstep)

end Proceeds

end X86Replay

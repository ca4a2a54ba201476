import X86Replay.Proofs.Atomicity
import X86Replay.Proofs.PhysicalMemory

/-!
# Faulting instructions and memory

* `Dependable`: memory that can be written wherever an access has been mapped for writing. Flat
  memory is such.
* `Exec.Atomic`: on dependable memory, the computation changes nothing when it raises an exception.
* `Instruction.Tears`: a far call that stores the selector and then faults on the slot of the offset.
* `mayTear_execute`: no other instruction leaves anything behind when it faults.
* `Route.memory_unchanged_iff`: so a faulting instruction, however it is executed, leaves memory and
  log alone if and only if it is not such a far call.
* `Route.farCall_changes_memory`: there is one.
-/

namespace X86Replay

variable {M : Type}

namespace Exec

/-! ## Computations that change nothing or cannot fail -/

section

variable {α β : Type} {f : Exec M α}

/-- A computation that changes nothing. -/
def Inspects (f : Exec M α) : Prop :=
  ∀ m, (f m).2 = m

/-- A computation that cannot fail. -/
def Succeeds (f : Exec M α) : Prop :=
  ∀ m, ∃ a m', f m = (.ok a, m')

theorem Inspects.eq {m m' : Machine M} {r : Except Exception α} (hf : Inspects f)
    (h : f m = (r, m')) : m' = m := by
  have hm := hf m
  rw [h] at hm
  exact hm

theorem Inspects.bind {g : α → Exec M β} (hf : Inspects f) (hg : ∀ a, Inspects (g a)) :
    Inspects (f >>= g) := by
  intro m
  rw [bind_apply]
  rcases hrun : f m with ⟨e | a, m₁⟩
  · exact hf.eq hrun
  · obtain rfl : m₁ = m := hf.eq hrun
    exact hg a m₁

/-- After a computation that changes nothing, the rest is what fails, and on the same machine. -/
theorem Inspects.bind_error {g : α → Exec M β} {m m' : Machine M} {e : Exception} (hf : Inspects f)
    (h : (f >>= g) m = (.error e, m')) :
    m' = m ∨ ∃ a, f m = (.ok a, m) ∧ g a m = (.error e, m') := by
  obtain ha | ⟨a, m₁, ha, hb⟩ := Exec.bind_error.1 h
  · exact .inl (hf.eq ha)
  · obtain rfl : m₁ = m := hf.eq ha
    exact .inr ⟨a, ha, hb⟩

/-- The processor is the same before and behind a computation that only inspects the machine. -/
theorem Inspects.bind_cpu {m : Machine M} {g : α → Cpu → Exec M β} (hf : Inspects f) :
    (do let a ← f; let c ← cpu; g a c) m = (do let c ← cpu; let a ← f; g a c) m := by
  have hcpu (a : α) : (do let c ← cpu; g a c) m = g a m.cpu m := by rw [bind_apply, cpu_apply]
  rw [bind_apply, bind_apply, cpu_apply]
  dsimp only
  rw [bind_apply]
  rcases ha : f m with ⟨e | a, m₁⟩
  · rfl
  · obtain rfl : m₁ = m := hf.eq ha
    exact hcpu a

theorem inspects_pure (a : α) : Inspects (pure a : Exec M α) := fun _ =>
  rfl

theorem inspects_cpu : Inspects (cpu : Exec M Cpu) := fun _ =>
  rfl

theorem inspects_check (u : Machine M → Except Exception α) : Inspects (check u) := fun _ =>
  rfl

theorem inspects_require (p : Cpu → Bool) : Inspects (require p : Exec M Unit) :=
  inspects_check _

theorem inspects_withFlags (u : UInt64 → UInt64 × UInt64) :
    Inspects (withFlags u : Exec M (UInt64 × UInt64)) :=
  inspects_cpu.bind fun _ => inspects_pure _

theorem inspects_readReg (i : Instruction) (n : UInt8) (size : OperandSize) :
    Inspects (readReg i n size : Exec M UInt64) :=
  inspects_cpu.bind fun _ => inspects_pure _

theorem inspects_throw (e : Exception) : Inspects (throw e : Exec M α) := fun _ =>
  rfl

theorem succeeds_writeGpr (ref : UInt8) (size : OperandSize) (v : UInt64) :
    Succeeds (modifyCpu (·.writeGpr ref size v) : Exec M Unit) := fun _ =>
  ⟨_, _, rfl⟩

theorem succeeds_finish (i : Instruction) (o : Outcome) :
    Succeeds (finish i o : Exec M Outcome) := fun _ =>
  ⟨_, _, rfl⟩

end

end Exec

variable [GuestMemory M]

/-! ## Memory that can be written where it is mapped -/

/-- Writes to a span do not fail, now and after other writes. -/
def Writable (mem : M) (s : PhysSpan) : Prop :=
  ∀ (mem' : M) (new : List PhysSpan) (data : List UInt8), Writes mem new mem' →
    data.length = s.length → (GuestMemory.write mem' s.start data).1 = .ok ()

/-- An access that has been mapped for writing can be written back, now and after other writes. -/
def Dependable (mem : M) : Prop :=
  ∀ (mem' : M) (new : List PhysSpan) (linear : UInt64) (n : Nat) (cpl : UInt8) (m : Mapping),
    Writes mem new mem' → mapForAccess mem' linear n .write cpl = .ok m →
    ∀ s ∈ m.spans, Writable mem' s

section

variable {mem mem' : M} {new : List PhysSpan}

theorem Writable.after {s : PhysSpan} (h : Writable mem s) (hwrites : Writes mem new mem') :
    Writable mem' s := fun mem'' _ data hwrites' hlength =>
  h mem'' _ data (hwrites.trans hwrites') hlength

theorem Dependable.after (h : Dependable mem) (hwrites : Writes mem new mem') :
    Dependable mem' := fun mem'' _ linear n cpl m hwrites' hmap =>
  h mem'' _ linear n cpl m (hwrites.trans hwrites') hmap

/-- Memory stays dependable. -/
theorem Dependable.transaction {α : Type} {f : Exec M α} {Q : Cpu → α → Cpu → Prop}
    {m m' : Machine M} {r : Except Exception α} (h : Dependable m.mem)
    (hf : Exec.Transaction f Q) (hrun : f m = (r, m')) : Dependable m'.mem := by
  obtain ⟨r', cpu', mem', new, hwrites, hf'⟩ := hf.writes m.cpu m.mem
  have hsame : f m = (r', ⟨cpu', mem', m.log ++ new⟩) := hf' m.log
  rw [hrun] at hsame
  cases hsame
  exact h.after hwrites

/-- Spans that can be written are all written, and logged. -/
theorem commitSpans_of_writable {spans : List PhysSpan} {data : List UInt8}
    (h : ∀ s ∈ spans, Writable mem s) (hlength : data.length = (spans.map PhysSpan.length).sum)
    (hlt : ∀ s ∈ spans, s.length < 2 ^ 64) :
    ∃ mem', Writes mem spans mem' ∧
      ∀ log : Array PhysSpan, commitSpans mem log spans data = (.ok (), mem', log ++ spans) := by
  induction spans generalizing mem data with
  | nil => exact ⟨mem, .nil mem, fun log => by simp [commitSpans]⟩
  | cons s spans ih =>
    rw [List.map_cons, List.sum_cons] at hlength
    have htake : (data.take s.length).length = s.length := by
      rw [List.length_take]
      omega
    have hdrop : (data.drop s.length).length = (spans.map PhysSpan.length).sum := by
      rw [List.length_drop]
      omega
    have hok := h s List.mem_cons_self mem [] _ (.nil mem) htake
    rcases hwrite : GuestMemory.write mem s.start (data.take s.length) with ⟨r, mem₁⟩
    rw [hwrite] at hok
    obtain rfl : r = .ok () := hok
    obtain ⟨hs, hspans⟩ := List.forall_mem_cons.1 hlt
    have hfirst : Writes mem [s] mem₁ := .landed hwrite htake hs (.nil mem₁)
    obtain ⟨mem₂, hrest, hcommit⟩ :=
      ih (fun s' hs' => (h s' (List.mem_cons_of_mem _ hs')).after hfirst) hdrop hspans
    refine ⟨mem₂, .landed hwrite htake hs hrest, fun log => ?_⟩
    rw [commitSpans, hwrite]
    dsimp only
    rw [hcommit, push_append]

end

/-- What can be read of flat memory can be written. -/
theorem FlatMemory.dependable (mem : FlatMemory) : Dependable mem := by
  intro mem₁ _ linear n cpl m _ hmap s hs mem₂ _ data hwrites hlength
  obtain ⟨-, -, parts, -, hreads⟩ := mapForAccess_ok hmap
  obtain ⟨bytes, -, hread⟩ : ∃ bytes ∈ parts, .ok bytes = readBytes mem₁ s.start s.length := by
    rw [← List.mem_map, ← hreads]
    exact List.mem_map_of_mem hs
  have hinside : s.start.toNat + s.length ≤ (cells mem₁).size :=
    ((PhysicalMemory.readBytes_ok mem₁ s.start s.length bytes).1 hread.symm).1
  have hsize : (cells mem₂).size = (cells mem₁).size := hwrites.frame.1.size
  show (writeFlat mem₂ s.start data).1 = .ok ()
  unfold writeFlat
  rw [if_pos]
  show s.start.toNat + data.length ≤ (cells mem₂).size
  omega

namespace Exec

variable {α β : Type} {f : Exec M α}

/-! ## Computations that change nothing when they fail -/

/-- A computation that changes nothing when it raises an exception, if memory can be written where
    it is mapped. -/
def Atomic (f : Exec M α) : Prop :=
  ∀ m m' e, Dependable m.mem → f m = (.error e, m') → m' = m

theorem Inspects.atomic (hf : Inspects f) : Atomic f := fun _ _ _ _ h =>
  hf.eq h

theorem Succeeds.atomic (hf : Succeeds f) : Atomic f := by
  intro m m' e _ h
  obtain ⟨a, m₁, hm⟩ := hf m
  rw [hm] at h
  cases h

/-- **Checks come first.** After them nothing has changed yet. -/
theorem Inspects.then {g : α → Exec M β} (hf : Inspects f) (hg : ∀ a, Atomic (g a)) :
    Atomic (f >>= g) := by
  intro m m' e hmem h
  obtain hsame | ⟨a, -, hb⟩ := hf.bind_error h
  · exact hsame
  · exact hg a m m' e hmem hb

/-- **One store comes next**, and nothing that can fail after it. -/
theorem Atomic.then {g : α → Exec M β} (hf : Atomic f) (hg : ∀ a, Succeeds (g a)) :
    Atomic (f >>= g) := by
  intro m m' e hmem h
  obtain ha | ⟨a, m₁, _, hb⟩ := bind_error.1 h
  · exact hf m m' e hmem ha
  · obtain ⟨b, m₂, hok⟩ := hg a m₁
    rw [hok] at hb
    cases hb

/-- A computation that fails at once. -/
theorem atomic_throw (e : Exception) : Atomic (throw e : Exec M α) :=
  (inspects_throw e).atomic

/-! ## Stores -/

/-- A store to dependable memory fails before it has changed anything, or lands and is logged. -/
theorem writeMem_cases {m : Machine M} (hmem : Dependable m.mem) (s : SegmentName)
    (offset : UInt64) (size : OperandSize) (v : UInt64) :
    (∃ e, writeMem s offset size v m = (.error e, m)) ∨
      ∃ mem' new, new ≠ [] ∧ Writes m.mem new mem' ∧
        writeMem s offset size v m = (.ok (), ⟨m.cpu, mem', m.log ++ new⟩) := by
  obtain ⟨cpu, mem, log⟩ := m
  obtain ⟨e, hfault⟩ | ⟨linear, mapping, -, hmap, hstore⟩ := writeMem_stages cpu mem s offset size v
  · exact .inl ⟨e, hfault log⟩
  · right
    have hspans := hmem mem [] linear size.bytes cpu.cpl mapping (.nil mem) hmap
    have hlength := length_mapForAccess hmap
    rw [← length_overwrite mapping (bytesOfWord 8 v)] at hlength
    obtain ⟨mem', hwrites, hcommit⟩ :=
      commitSpans_of_writable hspans hlength (length_lt_of_mem_spans hmap)
    have haccess : (mapping.setWord v).access = .write := (mapForAccess_ok hmap).1
    refine ⟨mem', mapping.spans, List.cons_ne_nil _ _, hwrites, hstore log _ _ _ ?_⟩
    rw [Mapping.commit, if_pos haccess]
    exact hcommit log

theorem atomic_writeMem (s : SegmentName) (offset : UInt64) (size : OperandSize) (v : UInt64) :
    Atomic (writeMem s offset size v : Exec M Unit) := by
  intro m m' e hmem h
  obtain ⟨e', hfault⟩ | ⟨mem', new, -, -, hok⟩ := writeMem_cases hmem s offset size v
  · rw [hfault] at h
    cases h
    rfl
  · rw [hok] at h
    cases h

/-! ## Parts of instructions -/

theorem inspects_readMem (s : SegmentName) (offset : UInt64) (size : OperandSize) :
    Inspects (readMem s offset size : Exec M UInt64) :=
  inspects_check _

theorem inspects_readRm (i : Instruction) (size : OperandSize) :
    Inspects (readRm i size : Exec M UInt64) := by
  unfold readRm
  split
  · exact inspects_readReg i _ size
  · exact inspects_cpu.bind fun c => inspects_readMem _ _ size
  · exact inspects_throw _

theorem atomic_writeRm (i : Instruction) (size : OperandSize) (v : UInt64) :
    Atomic (writeRm i size v : Exec M Unit) := by
  unfold writeRm
  split
  · exact Succeeds.atomic fun _ => ⟨_, _, rfl⟩
  · exact inspects_cpu.then fun c => atomic_writeMem _ _ size v
  · exact atomic_throw _

/-- The stack pointer moves after the store. -/
theorem atomic_push (size : OperandSize) (v : UInt64) : Atomic (push size v : Exec M Unit) :=
  inspects_cpu.then fun _ => (atomic_writeMem _ _ size v).then fun _ _ => ⟨_, _, rfl⟩

theorem atomic_pop (size : OperandSize) : Atomic (pop size : Exec M UInt64) :=
  inspects_cpu.then fun _ => (inspects_readMem _ _ size).then fun _ =>
    Succeeds.atomic fun _ => ⟨_, _, rfl⟩

theorem atomic_branchTo (target : UInt64) (size : OperandSize) :
    Atomic (branchTo target size : Exec M Outcome) :=
  (inspects_check _).then fun _ => Succeeds.atomic fun _ => ⟨_, _, rfl⟩

/-- The target is checked before the return address is stored. -/
theorem atomic_callTo (target returnRip : UInt64) (size : OperandSize) :
    Atomic (callTo target returnRip size : Exec M Outcome) :=
  (inspects_check _).then fun _ => (atomic_push size _).then fun _ _ => ⟨_, _, rfl⟩

theorem atomic_retNear (size : OperandSize) (release : UInt64) :
    Atomic (retNear size release : Exec M Outcome) :=
  inspects_cpu.then fun _ => (inspects_readMem _ _ size).then fun _ =>
    (inspects_check _).then fun _ => Succeeds.atomic fun _ => ⟨_, _, rfl⟩

theorem atomic_halt (length : UInt64) : Atomic (halt length : Exec M Outcome) :=
  (inspects_require _).then fun _ => Succeeds.atomic fun _ => ⟨_, _, rfl⟩

/-! ## Instructions with one store at most -/

theorem atomic_setFlags (i : Instruction) (flags : UInt64) (b : Bool) {w : Exec M Unit}
    (hw : Atomic w) :
    Atomic (if b then do w; modifyCpu (·.setRflags flags); retire i
      else do modifyCpu (·.setRflags flags); retire i) := by
  split
  · exact hw.then fun _ _ => ⟨_, _, rfl⟩
  · exact Succeeds.atomic fun _ => ⟨_, _, rfl⟩

theorem atomic_executeAlu (i : Instruction) : Atomic (executeAlu i : Exec M Outcome) := by
  unfold executeAlu
  extract_lets size op jp
  have hend (dest src : UInt64) {w : UInt64 → Exec M Unit} (hw : ∀ v, Atomic (w v)) :
      Atomic (do
        let a ← withFlags (alu op size · dest src)
        if op.writesResult then do w a.1; modifyCpu (·.setRflags a.2); retire i
          else do modifyCpu (·.setRflags a.2); retire i) :=
    (inspects_withFlags _).then fun a => atomic_setFlags i a.2 op.writesResult (hw a.1)
  split
  · exact (inspects_readReg i _ size).then fun dest => (inspects_readRm i size).then fun src =>
      hend dest src fun v => (succeeds_writeGpr _ size v).atomic
  · exact inspects_cpu.then fun c => hend _ _ fun v => (succeeds_writeGpr 0 size v).atomic
  · refine (inspects_readRm i size).then fun dest => ?_
    extract_lets jp'
    have hjp' (src : UInt64) : Atomic (jp' src) := hend dest src fun v => atomic_writeRm i size v
    split
    · exact (inspects_pure _).then hjp'
    · exact (inspects_readReg i _ size).then hjp'

theorem atomic_executeTest (i : Instruction) : Atomic (executeTest i : Exec M Outcome) := by
  unfold executeTest
  refine (inspects_readRm i _).then fun dest => ?_
  extract_lets jp
  have hjp (src : UInt64) : Atomic (jp src) :=
    (inspects_withFlags _).then fun _ => Succeeds.atomic fun _ => ⟨_, _, rfl⟩
  split
  · exact (inspects_pure _).then hjp
  · exact (inspects_readReg i _ _).then hjp

theorem atomic_executeXchg (i : Instruction) : Atomic (executeXchg i : Exec M Outcome) :=
  (inspects_readRm i _).then fun _ => (inspects_readReg i _ _).then fun b =>
    (atomic_writeRm i _ b).then fun _ _ => ⟨_, _, rfl⟩

theorem atomic_executeIncDecRm (i : Instruction) : Atomic (executeIncDecRm i : Exec M Outcome) :=
  (inspects_readRm i _).then fun _ => (inspects_withFlags _).then fun a =>
    (atomic_writeRm i _ a.1).then fun _ _ => ⟨_, _, rfl⟩

theorem atomic_executeMovFromSreg (i : Instruction) :
    Atomic (executeMovFromSreg i : Exec M Outcome) := by
  unfold executeMovFromSreg
  refine Inspects.then (f := namedSegment i) (inspects_check _) fun s =>
    inspects_cpu.then fun c => ?_
  extract_lets selector jp
  split
  · exact Succeeds.atomic fun _ => ⟨_, _, rfl⟩
  · exact (atomic_writeRm i .bits16 selector).then fun _ => succeeds_finish i .proceed

theorem atomic_executeLea (i : Instruction) : Atomic (executeLea i : Exec M Outcome) := by
  unfold executeLea
  split
  · exact Succeeds.atomic fun _ => ⟨_, _, rfl⟩
  · exact atomic_throw _

theorem atomic_executeLoop (i : Instruction) : Atomic (executeLoop i : Exec M Outcome) := by
  refine inspects_cpu.then fun c => ?_
  split
  rename_i count taken _
  split
  · exact (inspects_check _).then fun _ => Succeeds.atomic fun _ => ⟨_, _, rfl⟩
  · exact Succeeds.atomic fun _ => ⟨_, _, rfl⟩

theorem atomic_executeFlagOp (i : Instruction) : Atomic (executeFlagOp i : Exec M Outcome) := by
  unfold executeFlagOp
  extract_lets jp
  split
  · exact Succeeds.atomic fun _ => ⟨_, _, rfl⟩
  · exact Succeeds.atomic fun _ => ⟨_, _, rfl⟩
  · exact Succeeds.atomic fun _ => ⟨_, _, rfl⟩
  · exact Succeeds.atomic fun _ => ⟨_, _, rfl⟩
  · exact Succeeds.atomic fun _ => ⟨_, _, rfl⟩
  · exact atomic_throw _

theorem atomic_segmentLoad (i : Instruction) :
    Atomic (segmentLoad i : Exec M (SegmentName × UInt16)) := by
  unfold segmentLoad
  split
  · exact Inspects.then (f := namedSegment i) (inspects_check _) fun s =>
      (inspects_readRm i .bits16).then fun v => (inspects_pure _).atomic
  · exact (inspects_check _).then fun s => (atomic_pop _).then fun _ _ => ⟨_, _, rfl⟩

theorem atomic_loadSegment (i : Instruction) : Atomic (loadSegment i : Exec M Outcome) := by
  refine inspects_cpu.then fun c => ?_
  split
  · exact (inspects_pure _).atomic
  · exact (atomic_segmentLoad i).then fun _ _ => ⟨_, _, rfl⟩

theorem atomic_moveControl (i : Instruction) : Atomic (moveControl i : Exec M Outcome) := by
  refine (inspects_require _).then fun _ => ?_
  split
  · refine inspects_cpu.then fun c => ?_
    extract_lets number gpr width
    split
    · exact (inspects_pure _).atomic
    · split
      · split
        · exact Succeeds.atomic fun _ => ⟨_, _, rfl⟩
        · exact Succeeds.atomic fun _ => ⟨_, _, rfl⟩
      · exact atomic_throw _
  · exact atomic_throw _

end Exec

/-! ## Far transfers -/

open Exec

/-- The lower slot of the frame that a far call stores its return address in. -/
def Instruction.callFrame (i : Instruction) (cpu : Cpu) : UInt64 :=
  (cpu.stackPointer - 2 * i.operandSize.step) &&& cpu.stackAddressSize.mask

/-- A far call that has stored the selector of its return address when the store of the offset
    faults. -/
structure Instruction.Tears (i : Instruction) (m : Machine M) (e : Exception) (m' : Machine M) :
    Prop where
  operation : i.operation = .farCall
  selector : writeMem .ss (i.callFrame m.cpu + i.operandSize.step) i.operandSize
    (m.cpu.seg .cs).selector.toUInt64 m = (.ok (), m')
  offset : writeMem .ss (i.callFrame m.cpu) i.operandSize (i.nextRip m.cpu) m' = (.error e, m')

/-- A computation that leaves nothing behind when it raises an exception, or a torn frame. -/
def Instruction.MayTear (i : Instruction) (f : Exec M Outcome) : Prop :=
  ∀ m m' e, Dependable m.mem → f m = (.error e, m') → m' = m ∨ i.Tears m e m'

variable {i : Instruction} {m m' : Machine M} {e : Exception}

/-- The selector that is left behind has been logged. -/
theorem Instruction.Tears.log_ne (h : i.Tears m e m') (hmem : Dependable m.mem) :
    m'.log ≠ m.log := by
  obtain ⟨e', hfault⟩ | ⟨mem', new, hnew, -, hok⟩ := writeMem_cases hmem .ss
    (i.callFrame m.cpu + i.operandSize.step) i.operandSize (m.cpu.seg .cs).selector.toUInt64
  · rw [h.selector] at hfault
    cases hfault
  · rw [h.selector] at hok
    cases hok
    intro hlog
    exact hnew (by simpa using congrArg Array.toList hlog)

namespace Exec

theorem inspects_farTarget (i : Instruction) :
    Inspects (farTarget i : Exec M (UInt64 × UInt16)) := by
  unfold farTarget
  extract_lets size
  refine inspects_cpu.bind fun c => ?_
  split
  · split
    · exact (inspects_readMem _ _ size).bind fun offset =>
        (inspects_readMem _ _ .bits16).bind fun _ => inspects_pure _
    · exact inspects_throw _
    · exact inspects_pure _
  · exact (inspects_readMem _ _ size).bind fun offset => (inspects_readMem _ _ size).bind fun _ =>
      inspects_pure _

theorem farFrame_of_farCall (h : i.operation = .farCall) :
    (farFrame i : Exec M Unit) = (do
      let c ← cpu
      writeMem .ss (i.callFrame c + i.operandSize.step) i.operandSize
        (c.seg .cs).selector.toUInt64
      writeMem .ss (i.callFrame c) i.operandSize (i.nextRip c)
      modifyCpu (·.setStackPointer (i.callFrame c))) := by
  unfold farFrame
  simp only [h]
  rfl

theorem atomic_farFrame (h : i.operation ≠ .farCall) : Atomic (farFrame i : Exec M Unit) := by
  unfold farFrame
  extract_lets size
  refine inspects_cpu.then fun c => ?_
  extract_lets sp
  split
  · rename_i hop
    exact absurd hop h
  · exact Succeeds.atomic fun _ => ⟨_, _, rfl⟩
  · exact (inspects_readMem _ _ size).then fun _ => Succeeds.atomic fun _ => ⟨_, _, rfl⟩
  · exact (inspects_pure _).atomic

/-- The frame of a far call takes two stores, and the second one may fault when the first one has
    landed. -/
theorem farFrame_fault (hmem : Dependable m.mem) (h : farFrame i m = (.error e, m')) :
    m' = m ∨ i.Tears m e m' := by
  by_cases hop : i.operation = .farCall
  · -- Each store is all or nothing, so something is left only if the second one faults.
    rw [farFrame_of_farCall hop, bind_apply, cpu_apply] at h
    obtain hselector | ⟨_, m₁, hselector, h₁⟩ := bind_error.1 h
    · exact .inl (atomic_writeMem _ _ _ _ m m' e hmem hselector)
    · have hmem₁ : Dependable m₁.mem := hmem.transaction (query_writeMem _ _ _ _) hselector
      obtain hoffset | ⟨_, m₂, _, h₂⟩ := bind_error.1 h₁
      · obtain rfl : m' = m₁ := atomic_writeMem _ _ _ _ m₁ m' e hmem₁ hoffset
        exact .inr ⟨hop, hselector, hoffset⟩
      · cases h₂
  · exact .inl (atomic_farFrame hop m m' e hmem h)

theorem mayTear_farTransfer (i : Instruction) : i.MayTear (farTransfer i : Exec M Outcome) := by
  intro m m' e hmem h
  obtain hsame | ⟨c, -, h₁⟩ := inspects_cpu.bind_error h
  · exact .inl hsame
  · split at h₁
    · cases h₁
    · obtain hsame | ⟨r, -, h₂⟩ := (inspects_farTarget i).bind_error h₁
      · exact .inl hsame
      · obtain hsame | ⟨_, -, h₃⟩ := (inspects_require _).bind_error h₂
        · exact .inl hsame
        · obtain hframe | ⟨_, m₁, _, h₄⟩ := bind_error.1 h₃
          · exact farFrame_fault hmem hframe
          · cases h₄

/-! ## All instructions -/

/-- **No instruction leaves anything behind when it faults, but for a far call with a torn
    frame.** -/
theorem mayTear_execute (i : Instruction) : i.MayTear (execute i : Exec M Outcome) := by
  unfold execute
  extract_lets size jp
  have hatomic {f : Exec M Outcome} (hf : Atomic f) : i.MayTear f := fun m m' e hmem h =>
    .inl (hf m m' e hmem h)
  have hjp : i.MayTear (jp ()) := by
    dsimp only [jp]
    cases i.operation with
    | invalid | ud2 => exact hatomic (atomic_throw _)
    | unsupported | io | system | cpuid => exact hatomic (inspects_pure _).atomic
    | nop => exact hatomic (succeeds_finish i _).atomic
    | aluRmReg | aluRegRm | aluAccImm | aluRmImm => exact hatomic (atomic_executeAlu i)
    | test => exact hatomic (atomic_executeTest i)
    | xchg => exact hatomic (atomic_executeXchg i)
    | incDecReg =>
      exact hatomic (inspects_cpu.then fun _ => (inspects_withFlags _).then fun _ =>
        Succeeds.atomic fun _ => ⟨_, _, rfl⟩)
    | incDecRm => exact hatomic (atomic_executeIncDecRm i)
    | movRmReg =>
      exact hatomic ((inspects_readReg i _ size).then fun v =>
        (atomic_writeRm i size v).then fun _ => succeeds_finish i _)
    | movRegRm =>
      exact hatomic ((inspects_readRm i size).then fun _ => Succeeds.atomic fun _ => ⟨_, _, rfl⟩)
    | movRegImm => exact hatomic (Succeeds.atomic fun _ => ⟨_, _, rfl⟩)
    | movRmImm => exact hatomic ((atomic_writeRm i size _).then fun _ => succeeds_finish i _)
    | movzx | movsx =>
      exact hatomic ((inspects_readRm i _).then fun _ => Succeeds.atomic fun _ => ⟨_, _, rfl⟩)
    | lea => exact hatomic (atomic_executeLea i)
    | movFromSreg => exact hatomic (atomic_executeMovFromSreg i)
    | movToSreg => exact hatomic (atomic_loadSegment i)
    | pushReg =>
      exact hatomic (inspects_cpu.then fun _ =>
        (atomic_push size _).then fun _ => succeeds_finish i _)
    | popReg => exact hatomic ((atomic_pop size).then fun _ _ => ⟨_, _, rfl⟩)
    | pushImm => exact hatomic ((atomic_push size _).then fun _ => succeeds_finish i _)
    | jmpRel => exact hatomic (inspects_cpu.then fun _ => atomic_branchTo _ size)
    | jcc =>
      refine hatomic (inspects_cpu.then fun c => ?_)
      split
      · exact atomic_branchTo _ size
      · exact (succeeds_finish i _).atomic
    | loopRel => exact hatomic (atomic_executeLoop i)
    | callRel => exact hatomic (inspects_cpu.then fun _ => atomic_callTo _ _ size)
    | callRm =>
      exact hatomic ((inspects_readRm i size).then fun target =>
        inspects_cpu.then fun _ => atomic_callTo target _ size)
    | jmpRm => exact hatomic ((inspects_readRm i size).then fun target => atomic_branchTo target size)
    | ret => exact hatomic (atomic_retNear size 0)
    | retImm => exact hatomic (atomic_retNear size i.imm)
    | farJmp | farCall | farRet | iret => exact mayTear_farTransfer i
    | hlt => exact hatomic (atomic_halt i.step)
    | flagOp => exact hatomic (atomic_executeFlagOp i)
    | cli | sti =>
      exact hatomic ((inspects_require _).then fun _ => Succeeds.atomic fun _ => ⟨_, _, rfl⟩)
    | popf =>
      exact hatomic ((inspects_require _).then fun _ => (atomic_pop size).then fun _ _ =>
        ⟨_, _, rfl⟩)
    | int3 => exact hatomic (succeeds_finish i _).atomic
    | intImm => exact hatomic ((inspects_require _).then fun _ => (succeeds_finish i _).atomic)
    | into =>
      refine hatomic (inspects_cpu.then fun c => ?_)
      split
      · exact (succeeds_finish i _).atomic
      · exact (succeeds_finish i _).atomic
    | movCr => exact hatomic (atomic_moveControl i)
  split
  · exact hatomic (atomic_throw _)
  · exact hjp

end Exec

/-! ## Calls -/

namespace Call

variable (c : Call)

theorem atomic_runJump : Atomic (c.runJump : Exec M Outcome) :=
  inspects_cpu.then fun _ => atomic_branchTo _ _

theorem atomic_runAlu (src : UInt64) : Atomic (c.runAlu src : Exec M Outcome) := by
  refine Succeeds.atomic fun m => ?_
  obtain ⟨o, cpu', -, hrun⟩ := c.update_runAlu (M := M) src m.cpu
  exact ⟨o, _, hrun m.mem m.log⟩

/-- Every call but the deferred one leaves nothing behind when it faults. -/
theorem atomic_run (h : c.handler ≠ .deferred) : Atomic (c.run : Exec M Outcome) := by
  unfold run
  cases hc : c.handler with
  | nop | movRegImm | movRegReg => exact Succeeds.atomic fun _ => ⟨_, _, rfl⟩
  | checkLimit => exact (inspects_require _).then fun _ => (inspects_pure _).atomic
  | loadReg =>
    exact inspects_cpu.then fun _ => (inspects_readMem _ _ _).then fun _ =>
      Succeeds.atomic fun _ => ⟨_, _, rfl⟩
  | storeReg =>
    exact inspects_cpu.then fun _ => (atomic_writeMem _ _ _ _).then fun _ _ => ⟨_, _, rfl⟩
  | aluRegReg => exact inspects_cpu.then fun _ => c.atomic_runAlu _
  | aluRegImm => exact c.atomic_runAlu _
  | incDecReg => exact inspects_cpu.then fun _ => Succeeds.atomic fun _ => ⟨_, _, rfl⟩
  | pushReg => exact inspects_cpu.then fun _ => (atomic_push _ _).then fun _ _ => ⟨_, _, rfl⟩
  | popReg => exact (atomic_pop _).then fun _ _ => ⟨_, _, rfl⟩
  | jmpRel => exact c.atomic_runJump
  | jccRel =>
    refine inspects_cpu.then fun _ => ?_
    split
    · exact c.atomic_runJump
    · exact Succeeds.atomic fun _ => ⟨_, _, rfl⟩
  | callRel => exact inspects_cpu.then fun _ => atomic_callTo _ _ _
  | ret => exact atomic_retNear _ _
  | hlt => exact atomic_halt _
  | deferred => exact absurd hc h

end Call

/-! ## All ways to execute an instruction -/

namespace Route

/-- The instruction is decoded and executed on this way. -/
def Executes (r : Route) (m : Machine M) (i : Instruction) : Prop :=
  match r with
  | decoded j => j = i
  | raw bytes => decodeOrFault m.cpu.codeWidth bytes = .ok i
  | fetched => fetchInstruction m.cpu m.mem m.cpu.linearPc = .ok i
  | compiled c => c.handler = .deferred ∧
      decodeOrFault m.cpu.codeWidth ((unpackBytes c.p0 c.p1).take c.p2.toNat) = .ok i

theorem executeBytes_fault {bytes : List UInt8} (hmem : Dependable m.mem)
    (h : executeBytes bytes m = (.error e, m')) :
    m' = m ∨ ∃ i, decodeOrFault m.cpu.codeWidth bytes = .ok i ∧ i.Tears m e m' := by
  obtain hsame | ⟨i, hdecode, hrun⟩ := (inspects_check _).bind_error h
  · exact .inl hsame
  · rw [check_apply, Prod.mk.injEq] at hdecode
    obtain hsame | htears := mayTear_execute i m m' e hmem hrun
    · exact .inl hsame
    · exact .inr ⟨i, hdecode.1, htears⟩

/-- A fault leaves nothing behind, or a torn frame. -/
theorem fault_cases (r : Route) (hmem : Dependable m.mem) (h : r.run m = (.error e, m')) :
    m' = m ∨ ∃ i, r.Executes m i ∧ i.Tears m e m' := by
  cases r with
  | decoded i =>
    obtain hsame | htears := mayTear_execute i m m' e hmem h
    · exact .inl hsame
    · exact .inr ⟨i, rfl, htears⟩
  | raw bytes => exact executeBytes_fault hmem h
  | fetched =>
    obtain hsame | ⟨i, hfetch, h₁⟩ := (inspects_check _).bind_error h
    · exact .inl hsame
    · rw [check_apply, Prod.mk.injEq] at hfetch
      obtain hsame | ⟨_, -, hrun⟩ := (inspects_require _).bind_error h₁
      · exact .inl hsame
      · obtain hsame | htears := mayTear_execute i m m' e hmem hrun
        · exact .inl hsame
        · exact .inr ⟨i, hfetch.1, htears⟩
  | compiled c =>
    by_cases hc : c.handler = .deferred
    · rw [run, c.run_deferred hc] at h
      obtain hsame | ⟨i, hdecode, htears⟩ := executeBytes_fault hmem h
      · exact .inl hsame
      · exact .inr ⟨i, ⟨hc, hdecode⟩, htears⟩
    · exact .inl (c.atomic_run hc m m' e hmem h)

/-- **A faulting instruction leaves memory and log alone, unless it is a far call whose selector has
    been stored when the store of its offset faults**, on every way to execute it and for all memory
    that can be written where it is mapped. -/
theorem memory_unchanged_iff (r : Route) (hmem : Dependable m.mem)
    (h : r.run m = (.error e, m')) :
    m'.mem = m.mem ∧ m'.log = m.log ↔ ¬ ∃ i, r.Executes m i ∧ i.Tears m e m' := by
  constructor
  · rintro ⟨-, hlog⟩ ⟨i, -, htears⟩
    exact htears.log_ne hmem hlog
  · intro hnone
    obtain rfl | htears := r.fault_cases hmem h
    · exact ⟨rfl, rfl⟩
    · exact absurd htears hnone

/-- The same for a near call whose return address falls on a protected page. -/
theorem memory_unchanged_iff_call :
    ∃ m : Machine FlatMemory, ((raw [0xE8, 0x10, 0x00]).run m).1 = .error (.pageFault 0x1E 0x3) ∧
      ((raw [0xE8, 0x10, 0x00]).run m).2.mem = m.mem ∧
      ((raw [0xE8, 0x10, 0x00]).run m).2.log = m.log := by
  obtain ⟨m, hm⟩ : ∃ m : Machine FlatMemory,
      m = ⟨{ Cpu.realMode with gpr := Cpu.realMode.gpr.set 4 0x20 },
        (FlatMemory.zeros 0x40).protect 0, #[]⟩ := ⟨_, rfl⟩
  have hfault : ((raw [0xE8, 0x10, 0x00]).run m).1 = .error (.pageFault 0x1E 0x3) := by
    rw [hm]
    rfl
  refine ⟨m, hfault, ?_⟩
  refine (memory_unchanged_iff _ (FlatMemory.dependable m.mem) (Prod.ext hfault rfl)).2 ?_
  rintro ⟨i, hi, htears⟩
  have hop : (decodeOrFault m.cpu.codeWidth [0xE8, 0x10, 0x00]).map Instruction.operation =
      .ok .callRel := by
    rw [hm]
    rfl
  rw [show decodeOrFault m.cpu.codeWidth [0xE8, 0x10, 0x00] = .ok i from hi] at hop
  have hcall : i.operation = .callRel := Except.ok.inj hop
  rw [htears.operation] at hcall
  cases hcall

/-- There is such a far call: at `SP = 0x1002` with page zero protected its frame lies across the
    boundary, so that the selector `0x123` goes to `0x1000` before the store of the offset to `0xFFE`
    faults. -/
theorem farCall_changes_memory :
    ∃ (m : Machine FlatMemory) (e : Exception), Dependable m.mem ∧
      ((raw [0x9A, 0x34, 0x12, 0x00, 0x20]).run m).1 = .error e ∧
      m.mem.bytes[0x1000]? = some 0 ∧
      ((raw [0x9A, 0x34, 0x12, 0x00, 0x20]).run m).2.mem.bytes[0x1000]? = some 0x23 ∧
      ((raw [0x9A, 0x34, 0x12, 0x00, 0x20]).run m).2.log = m.log.push ⟨0x1000, 2⟩ := by
  obtain ⟨m, hm⟩ : ∃ m : Machine FlatMemory,
      m = ⟨{ Cpu.realMode with
          gpr := Cpu.realMode.gpr.set 4 0x1002
          segments := Cpu.realMode.segments.set .cs (.realCode 0x123) },
        (FlatMemory.zeros 0x2000).protect 0, #[]⟩ := ⟨_, rfl⟩
  have hrun : ((raw [0x9A, 0x34, 0x12, 0x00, 0x20]).run m).1.isOk = false ∧
      m.mem.bytes[0x1000]? = some 0 ∧
      ((raw [0x9A, 0x34, 0x12, 0x00, 0x20]).run m).2.mem.bytes[0x1000]? = some 0x23 ∧
      ((raw [0x9A, 0x34, 0x12, 0x00, 0x20]).run m).2.log = m.log.push ⟨0x1000, 2⟩ := by
    rw [hm]
    decide +kernel
  rcases hresult : ((raw [0x9A, 0x34, 0x12, 0x00, 0x20]).run m).1 with e | o
  · exact ⟨m, e, FlatMemory.dependable m.mem, hresult, hrun.2⟩
  · rw [hresult] at hrun
    cases hrun.1

end Route

end X86Replay

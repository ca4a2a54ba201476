import X86Replay.Block.Call
import X86Replay.Proofs.Atomicity
import X86Replay.Proofs.Computation

/-!
# Maps of memories

Instructions act on memory only by translating, reading and writing.

* `MemoryMap`: a map from one type of memory to another that keeps bytes and the translations of
  some addresses, and that goes along with writes.
* `MemoryMap.Follows`: translating an address is the same on both sides, unless it raises one of
  some exceptions on the mapped memory.
* `Cpu.Within`: a processor state from which no other addresses are reached.
* `Exec.Commutes`: running a computation and then mapping its memory is the same as the reverse,
  unless that raises one of the exceptions.
* `Exec.commutes_execute`, `Exec.commutes_step`, `Call.commutes_run`: so it is with all instructions
  and calls.
-/

namespace X86Replay

variable {N M : Type} [GuestMemory N] [GuestMemory M] {kept : UInt64 → Prop}

/-! ## Results up to exceptions -/

/-- The first result is the second one, unless it is one of the exceptions. -/
def AgreesUpTo {α : Type} (E : Exception → Prop) (x y : Except Exception α) : Prop :=
  (∃ e, E e ∧ x = .error e) ∨ x = y

namespace AgreesUpTo

variable {α β : Type} {E : Exception → Prop} {x y : Except Exception α}

theorem of_eq (h : x = y) : AgreesUpTo E x y :=
  .inr h

theorem bind {f g : α → Except Exception β} (h : AgreesUpTo E x y)
    (h' : ∀ a, AgreesUpTo E (f a) (g a)) : AgreesUpTo E (x >>= f) (y >>= g) := by
  obtain ⟨e, he, rfl⟩ | rfl := h
  · exact .inl ⟨e, he, rfl⟩
  · cases x with
    | error e => exact .inr rfl
    | ok a => exact h' a

theorem map (f : α → β) (h : AgreesUpTo E x y) : AgreesUpTo E (x.map f) (y.map f) := by
  obtain ⟨e, he, rfl⟩ | rfl := h
  · exact .inl ⟨e, he, rfl⟩
  · exact .inr rfl

end AgreesUpTo

/-! ## Maps -/

/-- A map of memories that reading and writing go along with, and so does translating the addresses
    that are kept. -/
structure MemoryMap (N M : Type) [GuestMemory N] [GuestMemory M] (kept : UInt64 → Prop) where
  toFun : N → M
  translate : ∀ mem a, kept a → translate (toFun mem) a = translate mem a
  read : ∀ mem start n, GuestMemory.read (toFun mem) start n = GuestMemory.read mem start n
  write : ∀ mem start data, GuestMemory.write (toFun mem) start data =
    ((GuestMemory.write mem start data).1, toFun (GuestMemory.write mem start data).2)

/-- The machine with its memory mapped. -/
def Machine.map (φ : MemoryMap N M kept) (m : Machine N) : Machine M :=
  ⟨m.cpu, φ.toFun m.mem, m.log⟩

/-- An access to `n` bytes is translated at addresses that are kept: at its first byte and, if it
    reaches the next page, at the start of that. -/
def AccessWithin (kept : UInt64 → Prop) (linear : UInt64) (n : Nat) : Prop :=
  kept linear ∧ (pageRoom linear < n → kept (nextPage linear))

/-- The next instruction and all operands are translated at addresses that are kept. -/
structure Cpu.Within (kept : UInt64 → Prop) (c : Cpu) : Prop where
  code : AccessWithin (fun a => kept (pageOf a)) c.linearPc maxInstructionLength
  data : ∀ (s : SegmentName) (offset : UInt64) (size : OperandSize) (write : Bool)
    (linear : UInt64), c.linearAddress s offset size.step write = .ok linear →
      AccessWithin kept linear size.bytes

theorem Cpu.within_of_forall (h : ∀ a, kept a) (c : Cpu) : c.Within kept where
  code := ⟨h _, fun _ => h _⟩
  data _ _ _ _ _ _ := ⟨h _, fun _ => h _⟩

namespace MemoryMap

variable (φ : MemoryMap N M kept) (mem : N)

theorem readBytes_eq (start : UInt64) (n : Nat) :
    readBytes (φ.toFun mem) start n = readBytes mem start n := by
  rw [readBytes, φ.read, readBytes]

theorem mapForFetch_eq {linear : UInt64} (h : kept (pageOf linear)) (cpl : UInt8) :
    mapForFetch (φ.toFun mem) linear cpl = mapForFetch mem linear cpl := by
  rw [mapForFetch, φ.translate mem _ h, mapForFetch]

/-- Translating the address goes along with the map, unless it raises one of the exceptions. -/
def Follows (φ : MemoryMap N M kept) (E : Exception → Prop) (a : UInt64) : Prop :=
  ∀ mem access cpl, AgreesUpTo E (GuestMemory.translate (φ.toFun mem) a access cpl)
    (GuestMemory.translate mem a access cpl)

variable {E : Exception → Prop}

theorem follows_of_kept {a : UInt64} (h : kept a) : φ.Follows E a := fun mem _ _ =>
  .of_eq (by rw [φ.translate mem a h])

theorem mapForFetch_agrees {linear : UInt64} (h : φ.Follows E (pageOf linear)) (cpl : UInt8) :
    AgreesUpTo E (mapForFetch (φ.toFun mem) linear cpl) (mapForFetch mem linear cpl) :=
  (h mem .execute cpl).map pageOf

theorem mapSpans_agrees {linear : UInt64} {n : Nat} (h : AccessWithin (φ.Follows E) linear n)
    (access : Access) (cpl : UInt8) :
    AgreesUpTo E (mapSpans (φ.toFun mem) linear n access cpl)
      (mapSpans mem linear n access cpl) := by
  refine (h.1 mem access cpl).bind fun first => ?_
  dsimp only
  split_ifs with hroom
  · exact (h.2 hroom mem access cpl).bind fun _ => .of_eq rfl
  · exact .of_eq rfl

theorem mapForAccess_agrees {linear : UInt64} {n : Nat} (h : AccessWithin (φ.Follows E) linear n)
    (access : Access) (cpl : UInt8) :
    AgreesUpTo E (mapForAccess (φ.toFun mem) linear n access cpl)
      (mapForAccess mem linear n access cpl) := by
  unfold mapForAccess
  simp only [φ.readBytes_eq]
  exact (φ.mapSpans_agrees mem h access cpl).bind fun _ => .of_eq rfl

theorem fetchInstruction_agrees (cpu : Cpu) {pc : UInt64}
    (h : AccessWithin (fun a => φ.Follows E (pageOf a)) pc maxInstructionLength) :
    AgreesUpTo E (fetchInstruction cpu (φ.toFun mem) pc) (fetchInstruction cpu mem pc) := by
  unfold fetchInstruction
  simp only [φ.readBytes_eq]
  refine (φ.mapForFetch_agrees mem h.1 _).bind fun page => ?_
  refine AgreesUpTo.bind (.of_eq rfl) fun near => ?_
  split_ifs with hcut
  · have hroom : pageRoom pc < maxInstructionLength := by omega
    exact (φ.mapForFetch_agrees mem (h.2 hroom) _).bind fun _ => .of_eq rfl
  · exact .of_eq rfl

theorem commitSpans_eq (log : Array PhysSpan) (spans : List PhysSpan) (data : List UInt8) :
    commitSpans (φ.toFun mem) log spans data =
      ((commitSpans mem log spans data).1, φ.toFun (commitSpans mem log spans data).2.1,
        (commitSpans mem log spans data).2.2) := by
  induction spans generalizing mem log data with
  | nil => rfl
  | cons s spans ih =>
    simp only [commitSpans, φ.write]
    rcases GuestMemory.write mem s.start (data.take s.length) with ⟨e | u, mem₁⟩
    · rfl
    · exact ih mem₁ _ _

theorem commit_eq (m : Mapping) (log : Array PhysSpan) :
    m.commit (φ.toFun mem) log =
      ((m.commit mem log).1, φ.toFun (m.commit mem log).2.1, (m.commit mem log).2.2) := by
  unfold Mapping.commit
  split
  · exact φ.commitSpans_eq mem log m.spans m.data
  · rfl

end MemoryMap

namespace Exec

variable {α β : Type} {φ : MemoryMap N M kept} {E : Exception → Prop} {P Q R : Cpu → Prop}

/-! ## Computations that commute with a map -/

/-- Running the first computation on a machine and mapping its memory is the same as running the
    second one on the mapped machine. -/
def CommutesAt (φ : MemoryMap N M kept) (m : Machine N) (f : Exec N α) (g : Exec M α) : Prop :=
  g (m.map φ) = ((f m).1, (f m).2.map φ)

/-- So it is unless the second computation raises one of the exceptions. -/
def CommutesUpTo (φ : MemoryMap N M kept) (E : Exception → Prop) (m : Machine N) (f : Exec N α)
    (g : Exec M α) : Prop :=
  (∃ e, E e ∧ (g (m.map φ)).1 = .error e) ∨ CommutesAt φ m f g

theorem CommutesUpTo.commutesAt {m : Machine N} {f : Exec N α} {g : Exec M α}
    (h : CommutesUpTo φ (fun _ => False) m f g) : CommutesAt φ m f g := by
  obtain ⟨_, ⟨⟩, -⟩ | h := h
  exact h

/-- This is so wherever the processor satisfies the first condition. After success it satisfies the
    second one. -/
def CommutesFrom (φ : MemoryMap N M kept) (E : Exception → Prop) (P Q : Cpu → Prop) (f : Exec N α)
    (g : Exec M α) : Prop :=
  ∀ m : Machine N, P m.cpu → CommutesUpTo φ E m f g ∧ ∀ a m', f m = (.ok a, m') → Q m'.cpu

/-- The same for a computation that reaches only addresses that go along with the map. -/
abbrev Commutes (φ : MemoryMap N M kept) (E : Exception → Prop) (f : Exec N α) (g : Exec M α) :
    Prop :=
  CommutesFrom φ E (Cpu.Within (φ.Follows E)) (fun _ => True) f g

theorem CommutesFrom.bind {f : Exec N α} {f' : α → Exec N β} {g : Exec M α} {g' : α → Exec M β}
    (h : CommutesFrom φ E P Q f g) (h' : ∀ a, CommutesFrom φ E Q R (f' a) (g' a)) :
    CommutesFrom φ E P R (f >>= f') (g >>= g') := by
  intro m hP
  obtain ⟨hrun, hQ⟩ := h m hP
  have hlast (b : β) (m₂ : Machine N) (hok : (f >>= f') m = (.ok b, m₂)) : R m₂.cpu := by
    rw [bind_apply] at hok
    rcases hf : f m with ⟨e | a, m₁⟩
    · rw [hf] at hok
      cases hok
    · rw [hf] at hok
      exact (h' a m₁ (hQ a m₁ hf)).2 b m₂ hok
  refine ⟨?_, hlast⟩
  unfold CommutesUpTo CommutesAt at hrun ⊢
  rw [bind_apply, bind_apply]
  obtain ⟨e, he, hraises⟩ | hrun := hrun
  · refine .inl ⟨e, he, ?_⟩
    rcases hg : g (m.map φ) with ⟨e' | a, m₁⟩
    · rw [hg] at hraises
      cases hraises
      rfl
    · rw [hg] at hraises
      cases hraises
  · rw [hrun]
    rcases hf : f m with ⟨e | a, m₁⟩
    · exact .inr rfl
    · exact (h' a m₁ (hQ a m₁ hf)).1

/-- Nothing is asked of the processor after the last part of a computation. -/
theorem CommutesFrom.last {f : Exec N α} {g : Exec M α} (h : CommutesFrom φ E P Q f g) :
    CommutesFrom φ E P (fun _ => True) f g := fun m hP =>
  ⟨(h m hP).1, fun _ _ _ => trivial⟩

theorem commutes_pure (a : α) : CommutesFrom φ E P P (pure a) (pure a) := by
  rintro m hP
  refine ⟨.inr rfl, ?_⟩
  rintro _ _ ⟨⟩
  exact hP

/-- The last part of a computation that only answers. -/
theorem commutes_return (a : α) : CommutesFrom φ E P (fun _ => True) (pure a) (pure a) :=
  (commutes_pure a).last

theorem commutes_throw (e : Exception) :
    CommutesFrom φ E P Q (throw e : Exec N α) (throw e) := fun _ _ =>
  ⟨.inr rfl, fun _ _ h => nomatch h⟩

theorem commutes_throw_bind (e : Exception) (f : α → Exec N β) (g : α → Exec M β) :
    CommutesFrom φ E P Q ((MonadExcept.throw e : Exec N α) >>= f)
      ((MonadExcept.throw e : Exec M α) >>= g) := fun _ _ =>
  ⟨.inr rfl, fun _ _ h => nomatch h⟩

theorem commutes_modifyCpu (u : Cpu → Cpu) :
    CommutesFrom φ E P (fun _ => True) (modifyCpu u) (modifyCpu u) :=
  fun _ _ => ⟨.inr rfl, fun _ _ _ => trivial⟩

/-- Checks that agree commute. -/
theorem commutesUpTo_check {f : Machine N → Except Exception α} {g : Machine M → Except Exception α}
    {m : Machine N} (h : AgreesUpTo E (g (m.map φ)) (f m)) :
    CommutesUpTo φ E m (check f) (check g) :=
  h.imp_right fun hsame => congrArg (·, m.map φ) hsame

theorem commutes_check {f : Machine N → Except Exception α} {g : Machine M → Except Exception α}
    (h : ∀ m, P m.cpu → AgreesUpTo E (g (m.map φ)) (f m)) :
    CommutesFrom φ E P P (check f) (check g) := by
  refine fun m hP => ⟨commutesUpTo_check (h m hP), fun a m' hok => ?_⟩
  rw [show m' = m from (congrArg Prod.snd hok).symm]
  exact hP

theorem commutes_cpu : CommutesFrom φ E P P cpu cpu :=
  commutes_check (f := fun m => .ok m.cpu) fun _ _ => .of_eq rfl

theorem commutes_require (p : Cpu → Bool) : CommutesFrom φ E P P (require p) (require p) :=
  commutes_check fun _ _ => .of_eq rfl

theorem commutes_withFlags (u : UInt64 → UInt64 × UInt64) :
    CommutesFrom φ E P P (withFlags u) (withFlags u) :=
  commutes_check (f := fun m => .ok (u m.cpu.rflags)) fun _ _ => .of_eq rfl

/-! ## Memory -/

theorem commutesUpTo_readMem {m : Machine N} {s : SegmentName} {offset : UInt64}
    {size : OperandSize} (h : ∀ linear, m.cpu.linearAddress s offset size.step false = .ok linear →
      AccessWithin (φ.Follows E) linear size.bytes) :
    CommutesUpTo φ E m (readMem s offset size) (readMem s offset size) := by
  refine commutesUpTo_check ?_
  simp only [Machine.map]
  cases hlinear : m.cpu.linearAddress s offset size.step false with
  | error e => exact .of_eq rfl
  | ok linear =>
    exact (φ.mapForAccess_agrees m.mem (h linear hlinear) .read m.cpu.cpl).bind fun _ => .of_eq rfl

theorem commutesUpTo_writeMem {m : Machine N} {s : SegmentName} {offset : UInt64}
    {size : OperandSize} (h : ∀ linear, m.cpu.linearAddress s offset size.step true = .ok linear →
      AccessWithin (φ.Follows E) linear size.bytes) (v : UInt64) :
    CommutesUpTo φ E m (writeMem s offset size v) (writeMem s offset size v) := by
  obtain ⟨cpu, mem, log⟩ := m
  unfold CommutesUpTo CommutesAt writeMem
  cases hlinear : cpu.linearAddress s offset size.step true with
  | error e => exact .inr (by simp only [Machine.map, hlinear, bind, Except.bind])
  | ok linear =>
    simp only [Machine.map, hlinear, bind, Except.bind]
    obtain ⟨e, he, hraises⟩ | hsame := φ.mapForAccess_agrees mem (h linear hlinear) .write cpu.cpl
    · exact .inl ⟨e, he, by rw [hraises]⟩
    · refine .inr ?_
      rw [hsame]
      split
      · rfl
      · rw [φ.commit_eq]

/-- A store leaves the processor alone. -/
theorem cpu_writeMem (s : SegmentName) (offset : UInt64) (size : OperandSize) (v : UInt64)
    (m : Machine N) : (writeMem s offset size v m).2.cpu = m.cpu := by
  obtain ⟨cpu, mem, log⟩ := m
  unfold writeMem
  dsimp only
  split
  · rfl
  · rfl

theorem commutes_readMem (s : SegmentName) (offset : UInt64) (size : OperandSize) :
    CommutesFrom φ E (Cpu.Within (φ.Follows E)) (Cpu.Within (φ.Follows E)) (readMem s offset size)
      (readMem s offset size) := by
  intro m hm
  refine ⟨commutesUpTo_readMem fun linear h => hm.data _ _ _ _ linear h, fun a m' hok => ?_⟩
  rw [show m' = m from (congrArg Prod.snd hok).symm]
  exact hm

theorem commutes_writeMem (s : SegmentName) (offset : UInt64) (size : OperandSize) (v : UInt64) :
    CommutesFrom φ E (Cpu.Within (φ.Follows E)) (Cpu.Within (φ.Follows E))
      (writeMem s offset size v) (writeMem s offset size v) := by
  intro m hm
  refine ⟨commutesUpTo_writeMem (fun linear h => hm.data _ _ _ _ linear h) v, fun a m' hok => ?_⟩
  have hcpu := cpu_writeMem s offset size v m
  rw [hok] at hcpu
  rw [hcpu]
  exact hm

theorem commutes_push (size : OperandSize) (v : UInt64) :
    Commutes φ E (push size v) (push size v) :=
  commutes_cpu.bind fun _ => (commutes_writeMem _ _ size v).bind fun _ => commutes_modifyCpu _

theorem commutes_pop (size : OperandSize) : Commutes φ E (pop size) (pop size) :=
  commutes_cpu.bind fun _ => (commutes_readMem _ _ size).bind fun v =>
    (commutes_modifyCpu _).bind fun _ => commutes_pure v

/-! ## Parts of instructions -/

theorem commutes_finish (i : Instruction) (o : Outcome) :
    CommutesFrom φ E P (fun _ => True) (finish i o) (finish i o) :=
  (commutes_modifyCpu _).bind fun _ => commutes_pure o

theorem commutes_retire (i : Instruction) :
    CommutesFrom φ E P (fun _ => True) (retire i) (retire i) :=
  commutes_finish i .proceed

theorem commutes_setRip (target : UInt64) :
    CommutesFrom φ E P (fun _ => True) (do modifyCpu (·.setRip target); return Outcome.proceed)
      (do modifyCpu (·.setRip target); return Outcome.proceed) :=
  (commutes_modifyCpu _).bind fun _ => commutes_pure _

theorem commutes_readReg (i : Instruction) (n : UInt8) (size : OperandSize) :
    CommutesFrom φ E P P (readReg i n size) (readReg i n size) :=
  commutes_cpu.bind fun _ => commutes_pure _

theorem commutes_writeReg (i : Instruction) (n : UInt8) (size : OperandSize) (v : UInt64) :
    CommutesFrom φ E P (fun _ => True) (writeReg i n size v) (writeReg i n size v) :=
  commutes_modifyCpu _

theorem commutes_readRm (i : Instruction) (size : OperandSize) :
    CommutesFrom φ E (Cpu.Within (φ.Follows E)) (Cpu.Within (φ.Follows E)) (readRm i size)
      (readRm i size) := by
  unfold readRm
  split
  · exact commutes_readReg i _ size
  · exact commutes_cpu.bind fun c => commutes_readMem _ _ size
  · exact commutes_throw _

theorem commutes_writeRm (i : Instruction) (size : OperandSize) (v : UInt64) :
    Commutes φ E (writeRm i size v) (writeRm i size v) := by
  unfold writeRm
  split
  · exact commutes_writeReg i _ size v
  · exact commutes_cpu.bind fun c => (commutes_writeMem _ _ size v).last
  · exact commutes_throw _

/-! ## Near transfers -/

theorem commutes_branchTo (target : UInt64) (size : OperandSize) :
    CommutesFrom φ E P (fun _ => True) (branchTo target size) (branchTo target size) :=
  (commutes_check fun _ _ => .of_eq rfl).bind fun target => commutes_setRip target

theorem commutes_callTo (target returnRip : UInt64) (size : OperandSize) :
    Commutes φ E (callTo target returnRip size) (callTo target returnRip size) :=
  (commutes_check fun _ _ => .of_eq rfl).bind fun target => (commutes_push size _).bind fun _ =>
    commutes_setRip target

theorem commutes_retNear (size : OperandSize) (release : UInt64) :
    Commutes φ E (retNear size release) (retNear size release) :=
  commutes_cpu.bind fun _ => (commutes_readMem _ _ size).bind fun _ =>
    (commutes_check fun _ _ => .of_eq rfl).bind fun _ => (commutes_modifyCpu _).bind fun _ =>
      commutes_pure _

theorem commutes_executeLoop (i : Instruction) :
    Commutes φ E (executeLoop i) (executeLoop i) := by
  refine commutes_cpu.bind fun c => ?_
  split
  split
  · exact (commutes_check fun _ _ => .of_eq rfl).bind fun _ => (commutes_modifyCpu _).bind fun _ =>
      commutes_pure _
  · exact (commutes_modifyCpu _).bind fun _ => commutes_retire i

/-! ## Arithmetic -/

/-- The end of an arithmetic instruction: the result is written if there is one to write, then the
    flags. -/
theorem commutes_setFlags (i : Instruction) (b : Bool) (flags : UInt64) {f : Exec N Unit}
    {g : Exec M Unit} (h : CommutesFrom φ E P (fun _ => True) f g) :
    CommutesFrom φ E P (fun _ => True)
      (if b then do f; modifyCpu (·.setRflags flags); retire i
        else do modifyCpu (·.setRflags flags); retire i)
      (if b then do g; modifyCpu (·.setRflags flags); retire i
        else do modifyCpu (·.setRflags flags); retire i) := by
  have hend (P : Cpu → Prop) : CommutesFrom φ E P (fun _ => True)
      (do modifyCpu (·.setRflags flags); retire i)
      (do modifyCpu (·.setRflags flags); retire i) :=
    (commutes_modifyCpu _).bind fun _ => commutes_retire i
  split
  · exact h.bind fun _ => hend _
  · exact hend _

theorem commutes_executeAlu (i : Instruction) : Commutes φ E (executeAlu i) (executeAlu i) := by
  unfold executeAlu
  split
  · exact (commutes_readReg i _ _).bind fun _ => (commutes_readRm i _).bind fun _ =>
      (commutes_withFlags _).bind fun _ => commutes_setFlags i _ _ (commutes_writeReg i _ _ _)
  · exact commutes_cpu.bind fun _ => (commutes_withFlags _).bind fun _ =>
      commutes_setFlags i _ _ (commutes_modifyCpu _)
  · refine (commutes_readRm i _).bind fun dest => ?_
    extract_lets jp jp'
    have hjp (src : UInt64) : Commutes φ E (jp src) (jp' src) :=
      (commutes_withFlags _).bind fun _ => commutes_setFlags i _ _ (commutes_writeRm i _ _)
    split
    · exact (commutes_pure _).bind hjp
    · exact (commutes_readReg i _ _).bind hjp

theorem commutes_executeTest (i : Instruction) : Commutes φ E (executeTest i) (executeTest i) := by
  refine (commutes_readRm i _).bind fun dest => ?_
  extract_lets jp jp'
  have hjp (src : UInt64) : Commutes φ E (jp src) (jp' src) :=
    (commutes_withFlags _).bind fun _ => (commutes_modifyCpu _).bind fun _ => commutes_retire i
  split
  · exact (commutes_pure _).bind hjp
  · exact (commutes_readReg i _ _).bind hjp

theorem commutes_executeXchg (i : Instruction) : Commutes φ E (executeXchg i) (executeXchg i) :=
  (commutes_readRm i _).bind fun _ => (commutes_readReg i _ _).bind fun _ =>
    (commutes_writeRm i _ _).bind fun _ => (commutes_writeReg i _ _ _).bind fun _ =>
      commutes_retire i

theorem commutes_executeIncDecReg (i : Instruction) :
    Commutes φ E (executeIncDecReg i) (executeIncDecReg i) :=
  commutes_cpu.bind fun _ => (commutes_withFlags _).bind fun _ =>
    (commutes_modifyCpu _).bind fun _ => commutes_retire i

theorem commutes_executeIncDecRm (i : Instruction) :
    Commutes φ E (executeIncDecRm i) (executeIncDecRm i) :=
  (commutes_readRm i _).bind fun _ => (commutes_withFlags _).bind fun _ =>
    commutes_setFlags i true _ (commutes_writeRm i _ _)

theorem commutes_executeFlagOp (i : Instruction) :
    Commutes φ E (executeFlagOp i) (executeFlagOp i) := by
  have hput (u : Cpu → Cpu) :
      Commutes φ E (do modifyCpu u; retire i) (do modifyCpu u; retire i) :=
    (commutes_modifyCpu u).bind fun _ => commutes_retire i
  unfold executeFlagOp
  split
  · exact hput _
  · exact hput _
  · exact hput _
  · exact hput _
  · exact hput _
  · exact commutes_throw_bind _ _ _

/-! ## Moves -/

theorem commutes_executeExtend (i : Instruction) (isSigned : Bool) :
    Commutes φ E (executeExtend i isSigned) (executeExtend i isSigned) :=
  (commutes_readRm i _).bind fun _ => (commutes_writeReg i _ _ _).bind fun _ => commutes_retire i

theorem commutes_executeLea (i : Instruction) : Commutes φ E (executeLea i) (executeLea i) := by
  unfold executeLea
  split
  · exact commutes_cpu.bind fun _ => (commutes_writeReg i _ _ _).bind fun _ => commutes_retire i
  · exact commutes_throw _

theorem commutes_namedSegment (i : Instruction) :
    CommutesFrom φ E P P (namedSegment i) (namedSegment i) :=
  commutes_check fun _ _ => .of_eq rfl

theorem commutes_executeMovFromSreg (i : Instruction) :
    Commutes φ E (executeMovFromSreg i) (executeMovFromSreg i) := by
  refine (commutes_namedSegment i).bind fun s => commutes_cpu.bind fun c => ?_
  split
  · exact (commutes_modifyCpu _).bind fun _ => commutes_retire i
  · exact (commutes_writeRm i _ _).bind fun _ => commutes_retire i

/-! ## System instructions -/

theorem commutes_segmentLoad (i : Instruction) :
    Commutes φ E (segmentLoad i) (segmentLoad i) := by
  unfold segmentLoad
  split
  · exact (commutes_namedSegment i).bind fun _ => (commutes_readRm i _).bind fun _ =>
      commutes_return _
  · exact (commutes_check fun _ _ => .of_eq rfl).bind fun _ => (commutes_pop _).bind fun _ =>
      commutes_pure _

theorem commutes_loadSegment (i : Instruction) :
    Commutes φ E (loadSegment i) (loadSegment i) := by
  refine commutes_cpu.bind fun c => ?_
  split
  · exact commutes_return _
  · exact (commutes_segmentLoad i).bind fun _ => (commutes_modifyCpu _).bind fun _ =>
      commutes_finish i _

theorem commutes_farTarget (i : Instruction) :
    CommutesFrom φ E (Cpu.Within (φ.Follows E)) (Cpu.Within (φ.Follows E)) (farTarget i)
      (farTarget i) := by
  refine commutes_cpu.bind fun c => ?_
  split
  · split
    · exact (commutes_readMem _ _ _).bind fun _ => (commutes_readMem _ _ _).bind fun _ =>
        commutes_pure _
    · exact commutes_throw _
    · exact commutes_pure _
  · exact (commutes_readMem _ _ _).bind fun _ => (commutes_readMem _ _ _).bind fun _ =>
      commutes_pure _

theorem commutes_farFrame (i : Instruction) : Commutes φ E (farFrame i) (farFrame i) := by
  refine commutes_cpu.bind fun c => ?_
  split
  · exact (commutes_writeMem _ _ _ _).bind fun _ => (commutes_writeMem _ _ _ _).bind fun _ =>
      commutes_modifyCpu _
  · exact commutes_modifyCpu _
  · exact (commutes_readMem _ _ _).bind fun _ => commutes_modifyCpu _
  · exact commutes_return _

theorem commutes_farTransfer (i : Instruction) :
    Commutes φ E (farTransfer i) (farTransfer i) := by
  refine commutes_cpu.bind fun c => ?_
  split
  · exact commutes_return _
  · exact (commutes_farTarget i).bind fun _ => (commutes_require _).bind fun _ =>
      (commutes_farFrame i).bind fun _ => (commutes_modifyCpu _).bind fun _ => commutes_pure _

theorem commutes_moveControl (i : Instruction) :
    Commutes φ E (moveControl i) (moveControl i) := by
  refine (commutes_require _).bind fun _ => ?_
  split
  · refine commutes_cpu.bind fun c => ?_
    extract_lets number gpr width
    split
    · exact commutes_return _
    · split
      · split
        · exact (commutes_modifyCpu _).bind fun _ => commutes_retire i
        · exact (commutes_modifyCpu _).bind fun _ => commutes_finish i _
      · exact commutes_throw _
  · exact commutes_throw _

theorem commutes_halt (length : UInt64) : Commutes φ E (halt length) (halt length) :=
  (commutes_require _).bind fun _ => (commutes_modifyCpu _).bind fun _ => commutes_pure _

/-! ## All instructions -/

/-- **Every instruction commutes with maps of memories.** -/
theorem commutes_execute (i : Instruction) : Commutes φ E (execute i) (execute i) := by
  unfold execute
  extract_lets size jp jp'
  have hjp : Commutes φ E (jp ()) (jp' ()) := by
    dsimp only [jp, jp']
    cases i.operation with
    | invalid | ud2 => exact commutes_throw _
    | unsupported | io | system | cpuid => exact commutes_return _
    | nop => exact commutes_retire i
    | aluRmReg | aluRegRm | aluAccImm | aluRmImm => exact commutes_executeAlu i
    | test => exact commutes_executeTest i
    | xchg => exact commutes_executeXchg i
    | incDecReg => exact commutes_executeIncDecReg i
    | incDecRm => exact commutes_executeIncDecRm i
    | movRmReg =>
      exact (commutes_readReg i _ _).bind fun _ => (commutes_writeRm i _ _).bind fun _ =>
        commutes_retire i
    | movRegRm =>
      exact (commutes_readRm i _).bind fun _ => (commutes_writeReg i _ _ _).bind fun _ =>
        commutes_retire i
    | movRegImm => exact (commutes_writeReg i _ _ _).bind fun _ => commutes_retire i
    | movRmImm => exact (commutes_writeRm i _ _).bind fun _ => commutes_retire i
    | movzx => exact commutes_executeExtend i false
    | movsx => exact commutes_executeExtend i true
    | lea => exact commutes_executeLea i
    | movFromSreg => exact commutes_executeMovFromSreg i
    | movToSreg => exact commutes_loadSegment i
    | pushReg =>
      exact commutes_cpu.bind fun _ => (commutes_push _ _).bind fun _ => commutes_retire i
    | popReg =>
      exact (commutes_pop _).bind fun _ => (commutes_modifyCpu _).bind fun _ => commutes_retire i
    | pushImm => exact (commutes_push _ _).bind fun _ => commutes_retire i
    | jmpRel => exact commutes_cpu.bind fun _ => commutes_branchTo _ _
    | jcc =>
      refine commutes_cpu.bind fun c => ?_
      split
      · exact commutes_branchTo _ _
      · exact commutes_retire i
    | loopRel => exact commutes_executeLoop i
    | callRel => exact commutes_cpu.bind fun _ => commutes_callTo _ _ _
    | callRm =>
      exact (commutes_readRm i _).bind fun _ => commutes_cpu.bind fun _ => commutes_callTo _ _ _
    | jmpRm => exact (commutes_readRm i _).bind fun _ => commutes_branchTo _ _
    | ret => exact commutes_retNear _ _
    | retImm => exact commutes_retNear _ _
    | farJmp | farCall | farRet | iret => exact commutes_farTransfer i
    | hlt => exact commutes_halt _
    | flagOp => exact commutes_executeFlagOp i
    | cli =>
      exact (commutes_require _).bind fun _ => (commutes_modifyCpu _).bind fun _ =>
        commutes_retire i
    | sti =>
      exact (commutes_require _).bind fun _ => (commutes_modifyCpu _).bind fun _ =>
        commutes_finish i _
    | popf =>
      exact (commutes_require _).bind fun _ => (commutes_pop _).bind fun _ =>
        (commutes_modifyCpu _).bind fun _ => commutes_finish i _
    | int3 => exact commutes_finish i _
    | intImm => exact (commutes_require _).bind fun _ => commutes_finish i _
    | into =>
      refine commutes_cpu.bind fun c => ?_
      split
      · exact commutes_finish i _
      · exact commutes_retire i
    | movCr => exact commutes_moveControl i
  split
  · exact commutes_throw_bind _ _ _
  · exact hjp

theorem commutes_executeBytes (bytes : List UInt8) :
    Commutes φ E (executeBytes bytes) (executeBytes bytes) :=
  (commutes_check fun _ _ => .of_eq rfl).bind fun i => commutes_execute i

/-- Every step commutes with maps of memories. -/
theorem commutes_step : Commutes φ E step step :=
  (commutes_check fun m hm => φ.fetchInstruction_agrees m.mem m.cpu hm.code).bind fun i =>
    (commutes_require _).bind fun _ => commutes_execute i

end Exec

/-! ## Calls and routes -/

open Exec

variable {φ : MemoryMap N M kept} {E : Exception → Prop} {P : Cpu → Prop}

namespace Call

variable (c : Call)

theorem commutes_retire : CommutesFrom φ E P (fun _ => True) c.retire c.retire :=
  (commutes_modifyCpu _).bind fun _ => commutes_pure _

theorem commutes_runAlu (src : UInt64) :
    CommutesFrom φ E P (fun _ => True) (c.runAlu src) (c.runAlu src) := by
  refine commutes_cpu.bind fun cpu => ?_
  dsimp only
  split
  · exact (commutes_modifyCpu _).bind fun _ => (commutes_modifyCpu _).bind fun _ =>
      c.commutes_retire
  · exact (commutes_modifyCpu _).bind fun _ => c.commutes_retire

theorem commutes_runJump : CommutesFrom φ E P (fun _ => True) c.runJump c.runJump :=
  commutes_cpu.bind fun _ => commutes_branchTo _ _

/-- **Every call commutes with maps of memories.** -/
theorem commutes_run : Commutes φ E c.run c.run := by
  unfold run
  cases c.handler with
  | nop => exact c.commutes_retire
  | checkLimit => exact (commutes_require _).bind fun _ => commutes_return _
  | movRegImm | movRegReg => exact (commutes_modifyCpu _).bind fun _ => c.commutes_retire
  | loadReg =>
    exact commutes_cpu.bind fun _ => (commutes_readMem _ _ _).bind fun _ =>
      (commutes_modifyCpu _).bind fun _ => c.commutes_retire
  | storeReg =>
    exact commutes_cpu.bind fun _ => (commutes_writeMem _ _ _ _).bind fun _ => c.commutes_retire
  | aluRegReg => exact commutes_cpu.bind fun _ => c.commutes_runAlu _
  | aluRegImm => exact c.commutes_runAlu _
  | incDecReg =>
    exact commutes_cpu.bind fun _ => (commutes_modifyCpu _).bind fun _ => c.commutes_retire
  | pushReg =>
    exact commutes_cpu.bind fun _ => (commutes_push _ _).bind fun _ => c.commutes_retire
  | popReg =>
    exact (commutes_pop _).bind fun _ => (commutes_modifyCpu _).bind fun _ => c.commutes_retire
  | jmpRel => exact c.commutes_runJump
  | jccRel =>
    refine commutes_cpu.bind fun cpu => ?_
    split
    · exact c.commutes_runJump
    · exact c.commutes_retire
  | callRel => exact commutes_cpu.bind fun _ => commutes_callTo _ _ _
  | ret => exact commutes_retNear _ _
  | hlt => exact commutes_halt _
  | deferred => exact commutes_executeBytes _

end Call

theorem Route.commutes_run (r : Route) : Commutes φ E r.run r.run := by
  cases r with
  | decoded i => exact commutes_execute i
  | raw bytes => exact commutes_executeBytes bytes
  | fetched => exact commutes_step
  | compiled c => exact c.commutes_run

end X86Replay

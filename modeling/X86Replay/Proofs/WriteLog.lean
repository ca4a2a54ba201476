import X86Replay.Proofs.MemoryMaps
import X86Replay.Proofs.PhysicalMemory

/-!
# The write log

Code that has been written to is found through the log of writes alone, so the log has to be
complete also after an instruction that has failed half-way.

* `Journal`: any memory with a journal of the writes that it has let succeed.
* `WritesInPlace`: a write changes the bytes of its own span only, and none if it fails.
* `Route.log_exact`: what an instruction appends to the log is what the memory enters into its
  journal, and every byte that has changed is in one of these spans, whatever the result.
* `Route.runAll_log_exact`: so it is over any number of instructions.
-/

namespace X86Replay

variable {M : Type} [GuestMemory M]

/-! ## Bytes in place -/

/-- The byte at a physical address, if it can be read. -/
def byteAt (mem : M) (a : UInt64) : Option UInt8 :=
  (readBytes mem a 1).toOption.bind List.head?

/-- The address is one of the bytes of the span. -/
def PhysSpan.Covers (s : PhysSpan) (a : UInt64) : Prop :=
  s.start.toNat ≤ a.toNat ∧ a.toNat < s.start.toNat + s.length

/-- A write changes the bytes of its own span only if it succeeds, and none if it fails. -/
structure WritesInPlace (M : Type) [GuestMemory M] : Prop where
  landed : ∀ (mem mem' : M) (start : UInt64) (data : List UInt8),
    GuestMemory.write mem start data = (.ok (), mem') →
      ∀ a, byteAt mem' a ≠ byteAt mem a → PhysSpan.Covers ⟨start, data.length⟩ a
  failed : ∀ (mem mem' : M) (start : UInt64) (data : List UInt8) (e : Exception),
    GuestMemory.write mem start data = (.error e, mem') → ∀ a, byteAt mem' a = byteAt mem a

/-- The bytes of memory that is an array are the elements of the array. -/
theorem byteAt_eq [PhysicalMemory M] (mem : M) (a : UInt64) :
    byteAt mem a = (cells mem)[a.toNat]? := by
  unfold byteAt
  by_cases hsize : a.toNat + 1 ≤ (cells mem).size
  · rw [(PhysicalMemory.readBytes_ok mem a 1 _).2 ⟨hsize, rfl⟩]
    simp [Except.toOption, List.head?_take, List.head?_drop]
  · rw [Array.getElem?_eq_none (by omega)]
    rcases hread : readBytes mem a 1 with e | bytes
    · rfl
    · exact absurd ((PhysicalMemory.readBytes_ok mem a 1 bytes).1 hread).1 hsize

/-- Memory that is an array of bytes is written in place. -/
theorem writesInPlace [PhysicalMemory M] : WritesInPlace M where
  landed mem mem' start data h a hne := by
    obtain ⟨-, hcells⟩ := PhysicalMemory.write_ok mem start data mem' h
    by_contra hcovers
    apply hne
    rw [byteAt_eq, byteAt_eq, hcells a.toNat]
    simp only [PhysSpan.Covers] at hcovers
    omega
  failed mem mem' start data e h a := by
    rw [byteAt_eq, byteAt_eq, PhysicalMemory.write_error mem start data e mem' h]

/-- **Bytes that logged writes have changed are in the logged spans.** -/
theorem WritesInPlace.covers (hM : WritesInPlace M) {mem mem' : M} {spans : List PhysSpan}
    (h : Writes mem spans mem') {a : UInt64} (hne : byteAt mem' a ≠ byteAt mem a) :
    ∃ s ∈ spans, s.Covers a := by
  induction h with
  | nil mem => exact absurd rfl hne
  | @landed mem mem₁ mem₂ s spans data hwrite hlength _ _ ih =>
    by_cases hfirst : byteAt mem₁ a = byteAt mem a
    · rw [← hfirst] at hne
      obtain ⟨s', hs', hcovers⟩ := ih hne
      exact ⟨s', List.mem_cons_of_mem _ hs', hcovers⟩
    · have hcovers := hM.landed mem mem₁ s.start data hwrite a hfirst
      rw [hlength] at hcovers
      exact ⟨s, List.mem_cons_self, hcovers⟩
  | @failed mem mem₁ mem₂ start e spans data hwrite _ ih =>
    rw [← hM.failed mem mem₁ start data e hwrite a] at hne
    exact ih hne

/-! ## Journals -/

/-- Memory with the spans of all writes that it has let succeed, in their order. -/
structure Journal (M : Type) where
  mem : M
  written : List PhysSpan := []

namespace Journal

/-- A write, and its span entered if the memory has let it succeed. -/
def write (j : Journal M) (start : UInt64) (data : List UInt8) :
    Except Exception Unit × Journal M :=
  match GuestMemory.write j.mem start data with
  | (.ok (), mem) => (.ok (), ⟨mem, j.written ++ [⟨start, data.length⟩]⟩)
  | (.error e, mem) => (.error e, ⟨mem, j.written⟩)

instance : GuestMemory (Journal M) where
  translate j := translate j.mem
  read j := GuestMemory.read j.mem
  write := write

/-- The memory without its journal. -/
def forget : MemoryMap (Journal M) M fun _ => True where
  toFun := mem
  translate _ _ _ := rfl
  read _ _ _ := rfl
  write j start data := by
    show _ = ((write j start data).1, (write j start data).2.mem)
    unfold write
    rcases GuestMemory.write j.mem start data with ⟨e | u, mem⟩
    · rfl
    · rfl

/-- Logged writes are those that have been entered. -/
theorem written_of_writes {j j' : Journal M} {spans : List PhysSpan} (h : Writes j spans j') :
    Writes j.mem spans j'.mem ∧ j'.written = j.written ++ spans := by
  induction h with
  | nil j => exact ⟨.nil j.mem, by simp⟩
  | @landed j j₁ j₂ s spans data hwrite hlength hlt _ ih =>
    obtain ⟨hwrites, hwritten⟩ := ih
    change write j s.start data = _ at hwrite
    unfold write at hwrite
    rcases hmem : GuestMemory.write j.mem s.start data with ⟨e | u, mem₁⟩
    · rw [hmem] at hwrite
      cases hwrite
    · rw [hmem] at hwrite
      cases hwrite
      refine ⟨.landed hmem hlength hlt hwrites, ?_⟩
      rw [hwritten, hlength, List.append_assoc]
      rfl
  | @failed j j₁ j₂ start e spans data hwrite _ ih =>
    obtain ⟨hwrites, hwritten⟩ := ih
    change write j start data = _ at hwrite
    unfold write at hwrite
    rcases hmem : GuestMemory.write j.mem start data with ⟨e' | u, mem₁⟩
    · rw [hmem] at hwrite
      cases hwrite
      exact ⟨.failed hmem hwrites, hwritten⟩
    · rw [hmem] at hwrite
      cases hwrite

end Journal

/-- The machine with a journal in which some writes have been entered. -/
def Machine.journaled (m : Machine M) (written : List PhysSpan) : Machine (Journal M) :=
  ⟨m.cpu, ⟨m.mem, written⟩, m.log⟩

/-! ## The log of instructions -/

namespace Route

/-- What an instruction appends to the log explains how memory has changed, and is what a journal
    would have. -/
theorem exists_writes (r : Route) (m : Machine M) (written : List PhysSpan) :
    ∃ new : List PhysSpan, Writes m.mem new (r.run m).2.mem ∧
      (r.run m).2.log = m.log ++ new ∧
      r.run (m.journaled written) =
        ((r.run m).1, (r.run m).2.journaled (written ++ new)) := by
  obtain ⟨result, cpu', j', new, hwrites, hrun⟩ :=
    (r.defers (M := Journal M)).transaction.writes m.cpu ⟨m.mem, written⟩
  obtain ⟨hplain, hwritten⟩ := Journal.written_of_writes hwrites
  have hjournaled : r.run (m.journaled written) = (result, ⟨cpu', j', m.log ++ new⟩) :=
    hrun m.log
  have hforget : r.run m = (result, ⟨cpu', j'.mem, m.log ++ new⟩) := by
    have hwithin : m.cpu.Within ((Journal.forget (M := M)).Follows fun _ => False) :=
      Cpu.within_of_forall (fun _ => MemoryMap.follows_of_kept _ trivial) m.cpu
    have hcommutes := (r.commutes_run (m.journaled written) hwithin).1.commutesAt
    rw [Exec.CommutesAt, hjournaled] at hcommutes
    exact hcommutes
  rw [hforget]
  refine ⟨new, hplain, rfl, ?_⟩
  rw [hjournaled, ← hwritten]
  rfl

/-- **The write log is complete and exact.** An instruction appends to the log the spans of its
    successful writes, in their order, and nothing else; every byte that it has changed is in one of
    them. This is so whatever its result. -/
theorem log_exact (hM : WritesInPlace M) (r : Route) (m : Machine M) (written : List PhysSpan) :
    ∃ new : List PhysSpan,
      (r.run m).2.log = m.log ++ new ∧
      r.run (m.journaled written) = ((r.run m).1, (r.run m).2.journaled (written ++ new)) ∧
      ∀ a, byteAt (r.run m).2.mem a ≠ byteAt m.mem a → ∃ s ∈ new, s.Covers a := by
  obtain ⟨new, hwrites, hlog, hjournal⟩ := r.exists_writes m written
  exact ⟨new, hlog, hjournal, fun a hne => hM.covers hwrites hne⟩

/-- The same for a store of AX across a page boundary. Its first byte has landed when the write of
    the second one fails. -/
theorem log_exact_store :
    ∃ (m : Machine RemappedMemory) (new : List PhysSpan),
      ((raw [0x89, 0x06, 0xFF, 0x0F]).run m).1.isOk = false ∧
      ((raw [0x89, 0x06, 0xFF, 0x0F]).run m).2.log = m.log ++ new ∧ new = [⟨0xFFF, 1⟩] ∧
      ((raw [0x89, 0x06, 0xFF, 0x0F]).run (m.journaled [])).2.mem.written = new ∧
      byteAt ((raw [0x89, 0x06, 0xFF, 0x0F]).run m).2.mem 0xFFF ≠ byteAt m.mem 0xFFF ∧
      ∀ a, byteAt ((raw [0x89, 0x06, 0xFF, 0x0F]).run m).2.mem a ≠ byteAt m.mem a →
        ∃ s ∈ new, s.Covers a := by
  obtain ⟨m, hm⟩ : ∃ m : Machine RemappedMemory,
      m = ⟨{ Cpu.realMode with gpr := Cpu.realMode.gpr.set 0 0x1234 },
        { flat := FlatMemory.zeros 0x2000, bad := [0x1000] }, #[]⟩ := ⟨_, rfl⟩
  obtain ⟨new, hlog, hjournal, hbytes⟩ :=
    log_exact writesInPlace (raw [0x89, 0x06, 0xFF, 0x0F]) m []
  have hrun : ((raw [0x89, 0x06, 0xFF, 0x0F]).run m).1.isOk = false ∧
      ((raw [0x89, 0x06, 0xFF, 0x0F]).run m).2.log = #[⟨0xFFF, 1⟩] ∧
      byteAt ((raw [0x89, 0x06, 0xFF, 0x0F]).run m).2.mem 0xFFF ≠ byteAt m.mem 0xFFF := by
    rw [hm]
    decide +kernel
  have hnew : new = [⟨0xFFF, 1⟩] := by
    rw [hrun.2.1, show m.log = #[] by rw [hm]] at hlog
    simpa using congrArg Array.toList hlog.symm
  exact ⟨m, new, hrun.1, hlog, hnew, by rw [hjournal]; rfl, hrun.2.2, hbytes⟩

/-- The machine after some instructions, whatever their results. -/
def runAll (rs : List Route) (m : Machine M) : Machine M :=
  rs.foldl (fun m r => (r.run m).2) m

/-- **The log stays complete and exact over any number of instructions.** -/
theorem runAll_log_exact (hM : WritesInPlace M) (rs : List Route) (m : Machine M)
    (written : List PhysSpan) :
    ∃ new : List PhysSpan,
      (runAll rs m).log = m.log ++ new ∧
      runAll rs (m.journaled written) = (runAll rs m).journaled (written ++ new) ∧
      ∀ a, byteAt (runAll rs m).mem a ≠ byteAt m.mem a → ∃ s ∈ new, s.Covers a := by
  suffices h : ∃ new : List PhysSpan, Writes m.mem new (runAll rs m).mem ∧
      (runAll rs m).log = m.log ++ new ∧
      runAll rs (m.journaled written) = (runAll rs m).journaled (written ++ new) by
    obtain ⟨new, hwrites, hlog, hjournal⟩ := h
    exact ⟨new, hlog, hjournal, fun a hne => hM.covers hwrites hne⟩
  induction rs generalizing m written with
  | nil => exact ⟨[], .nil m.mem, by simp [runAll], by simp [runAll]⟩
  | cons r rs ih =>
    obtain ⟨new, hwrites, hlog, hjournal⟩ := r.exists_writes m written
    obtain ⟨new', hwrites', hlog', hjournal'⟩ := ih (r.run m).2 (written ++ new)
    refine ⟨new ++ new', hwrites.trans hwrites', ?_, ?_⟩
    · show (runAll rs (r.run m).2).log = _
      rw [hlog', hlog, append_append]
    · show runAll rs (r.run (m.journaled written)).2 = _
      rw [hjournal, ← List.append_assoc]
      exact hjournal'

end Route

end X86Replay

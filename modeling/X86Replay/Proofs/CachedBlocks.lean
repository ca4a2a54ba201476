import X86Replay.Proofs.Replaying

/-!
# Blocks that are replayed later

A cached block is replayed for other processor states than the one it was compiled for, after memory
has changed elsewhere.

* `Logs`: a computation changes memory by logged writes only.
* `Block.UpToDate`: flat memory still holds the code that the block was compiled from.
* `UpToDate.logs_replay`: whatever the processor state, replaying the block logs its writes.
* `UpToDate.replay`: for a processor state that finds the block, replaying it is executing its
  instructions one at a time, unless it faults.
-/

namespace X86Replay

open CompileContext

/-! ## Logged writes -/

section

variable {M : Type} [GuestMemory M] {α : Type}

/-- Memory changes by writes whose spans are logged. -/
def Logs (f : Machine M → α × Machine M) : Prop :=
  ∀ m, ∃ new, Writes m.mem new (f m).2.mem ∧ (f m).2.log = m.log ++ new

theorem Exec.Transaction.logs {f : Exec M α} {Q : Cpu → α → Cpu → Prop} (h : Transaction f Q) :
    Logs f := by
  intro m
  obtain ⟨r, cpu', mem', new, hwrites, hlog⟩ := h.writes m.cpu m.mem
  refine ⟨new, ?_⟩
  rw [show f m = _ from hlog m.log]
  exact ⟨hwrites, rfl⟩

theorem logs_step : Logs (Exec.step : Exec M Outcome) :=
  Exec.conduct_step.transaction.logs

theorem logs_executeBytes (bytes : List UInt8) : Logs (Exec.executeBytes bytes : Exec M Outcome) :=
  ((Exec.query_check fun _ _ _ => rfl).bind fun i =>
    (Exec.execute_conduct i).2.transaction).logs

theorem logs_limitCheck (o : Nat) (e : Encoding) :
    Logs (Call.run (limitCheck o e) : Exec M Outcome) :=
  ((Exec.query_require _).bind fun _ =>
    (Exec.Update.pure (Q := fun _ _ _ => True) fun _ => trivial).transaction).logs

/-- The call of an encoding logs its writes, whatever the width of the code is when it runs. -/
theorem logs_toCall {e : Encoding} {width : CodeWidth} (h : e.decoded = decode width e.bytes)
    (o : Nat) : Logs (Call.run (e.toCall o) : Exec M Outcome) := by
  have hdeferred : Logs (Call.run (deferredCall (e.bytes.take e.length) o) : Exec M Outcome) := by
    rw [run_deferredCall]
    · exact logs_executeBytes _
    · rw [List.length_take]
      exact (Nat.min_le_left _ _).trans (Encoding.length_le h)
  unfold Encoding.toCall
  split
  · rename_i i hi
    unfold Instruction.toCall
    split
    · rename_i handler p0 p1 p2 hfast
      split at hfast
      · cases hfast
      · rename_i hlock
        rw [run_fastCall (by simpa using hlock) (fun m hm => decode_encodable (h.symm.trans hi) hm)
          hfast]
        exact (Exec.execute_conduct i).2.transaction.logs
    · exact hdeferred
  · exact hdeferred

theorem logs_listing {c : CompileContext} {es : List Encoding} (o : Nat)
    (h : ∀ e ∈ es, e.decoded = decode c.width e.bytes) :
    ∀ call ∈ c.listing o es, Logs (Call.run call : Exec M Outcome) := by
  induction es generalizing o with
  | nil => exact fun _ hcall => absurd hcall List.not_mem_nil
  | cons e es ih =>
    have he := h e List.mem_cons_self
    intro call hcall
    obtain hcall | hcall := List.mem_append.1 hcall
    · unfold callsOf at hcall
      split_ifs at hcall
      · obtain rfl | hcall := List.mem_cons.1 hcall
        · exact logs_limitCheck o e
        · exact List.mem_singleton.1 hcall ▸ logs_toCall he o
      · exact List.mem_singleton.1 hcall ▸ logs_toCall he o
    · exact ih _ (fun e' he' => h e' (List.mem_cons_of_mem _ he')) call hcall

/-- Calls that log their writes are replayed with their writes logged. -/
theorem logs_replayCalls (b : Block) {calls : List Call}
    (h : ∀ call ∈ calls, Logs (Call.run call : Exec M Outcome)) (n : Nat) :
    Logs (b.replayCalls (M := M) calls n) := by
  induction calls generalizing n with
  | nil => exact fun m => ⟨[], .nil m.mem, (by simp [Block.replayCalls])⟩
  | cons call rest ih =>
    intro m
    obtain ⟨new, hwrites, hlog⟩ := h call List.mem_cons_self m
    rw [Block.replayCalls]
    generalize call.run m = result at hwrites hlog
    obtain ⟨x | _ | _ | s, m'⟩ := result
    · exact ⟨new, hwrites, hlog⟩
    · dsimp only at hwrites hlog ⊢
      generalize (if Block.isLastOfInstruction call rest then n + 1 else n) = n'
      split_ifs
      · exact ⟨new, hwrites, hlog⟩
      · obtain ⟨new', hwrites', hlog'⟩ :=
          ih (fun call hcall => h call (List.mem_cons_of_mem _ hcall)) n' m'
        refine ⟨new ++ new', hwrites.trans hwrites', ?_⟩
        rw [hlog', hlog, append_append]
    · exact ⟨new, hwrites, hlog⟩
    · exact ⟨new, hwrites, hlog⟩

end

/-! ## Chains for another processor state -/

namespace CompileContext

variable {M : Type} [GuestMemory M] {c c' : CompileContext} {mem : M} {page : UInt64} {o : Nat}
  {e : Encoding} {es : List Encoding}

/-- Two contexts in which the same code is found at the same places. -/
structure Alike (c c' : CompileContext) (mem : M) : Prop where
  flags : c'.flags = c.flags
  rip : c'.cpu.rip = c.cpu.rip
  linearIp : ∀ ip, c'.cpu.linearIp c.width ip = c.cpu.linearIp c.width ip
  mapped : ∀ pc page, mapForFetch mem pc c.cpu.cpl = .ok page →
    mapForFetch mem pc c'.cpu.cpl = .ok page

namespace Alike

theorem width_eq (h : Alike c c' mem) : c'.width = c.width := by
  rw [width, h.flags, width]

theorem pcAt_eq (h : Alike c c' mem) (o : Nat) : c'.pcAt o = c.pcAt o := by
  rw [pcAt, h.width_eq, h.rip, h.linearIp, pcAt]

theorem start_eq (h : Alike c c' mem) : c'.start = c.start := by
  rw [← c'.pcAt_zero, h.pcAt_eq, c.pcAt_zero]

theorem place_eq (h : Alike c c' mem) (o : Nat) : c'.place o = c.place o := by
  rw [place, h.start_eq, place]

theorem reads (h : Alike c c' mem) (he : c.Reads mem page o e) : c'.Reads mem page o e := by
  cases he with
  | near hlength hholds hdecode =>
    rw [← h.place_eq] at hlength hholds
    rw [← h.width_eq] at hdecode ⊢
    exact .near hlength hholds hdecode
  | far ho hlength hholds hdecode hnext hfarLength hfarHolds =>
    rw [← h.place_eq] at hlength hholds
    rw [← h.width_eq] at hdecode ⊢
    rw [← h.start_eq] at hnext
    exact .far ho hlength hholds hdecode (h.mapped _ _ hnext) hfarLength hfarHolds

theorem chain (h : Alike c c' mem) (hes : c.Chain mem page o es) : c'.Chain mem page o es := by
  induction es generalizing o with
  | nil => exact trivial
  | cons e es ih =>
    obtain ⟨⟨hplace, hip⟩, he, hgoes, hes⟩ := hes
    rw [← h.place_eq] at hplace
    rw [← h.width_eq, ← h.rip] at hip
    exact ⟨⟨hplace, hip⟩, h.reads he, hgoes, ih hes⟩

theorem listing_eq (h : Alike c c' mem) (o : Nat) (es : List Encoding) :
    c'.listing o es = c.listing o es := by
  induction es generalizing o with
  | nil => rfl
  | cons e es ih => rw [listing, listing, ih, callsOf, h.flags, callsOf]

theorem takes_iff (h : Alike c c' mem) (o : Nat) (es : List Encoding) (a : Nat) :
    c'.Takes page o es a ↔ c.Takes page o es a := by
  induction es generalizing o with
  | nil => exact Iff.rfl
  | cons e es ih => rw [Takes, Takes, ih, h.place_eq]

end Alike

end CompileContext

/-! ## Flat memory -/

section

variable {mem : FlatMemory} {c : CompileContext} {pc page : UInt64} {o : Nat} {e : Encoding}
  {es : List Encoding} {cpl : UInt8}

/-- Code pages of flat memory lie at their linear addresses, for every privilege level. -/
theorem mapForFetch_flat (h : mapForFetch mem pc cpl = .ok page) :
    page = pageOf pc ∧ ∀ cpl', mapForFetch mem pc cpl' = .ok page := by
  have htranslate (cpl : UInt8) : translate mem (pageOf pc) .execute cpl =
      if mem.unmapped.contains (pageOf (pageOf pc)) || mem.bytes.size ≤ (pageOf pc).toNat then
        .error (.pageFault (pageOf pc) (pageFaultCode .execute cpl))
      else .ok (pageOf pc) :=
    rfl
  unfold mapForFetch at h ⊢
  simp only [htranslate] at h ⊢
  split_ifs at h ⊢
  · cases h
  · cases h
    exact ⟨pageOf_pageOf pc, fun _ => rfl⟩

/-- The bytes of an encoding lie at their linear addresses. -/
theorem address_flat (hsize : mem.bytes.size ≤ 2 ^ 32) (hpage : page = pageOf c.start)
    (ho : c.place o < 4096) (he : c.Reads mem page o e) (j : Nat) :
    e.address (page.toNat + c.place o) j = c.start.toNat + o + j := by
  have hplace : page.toNat + c.place o = c.start.toNat + o := by
    rw [hpage, toNat_pageOf, place]
    omega
  cases he with
  | near =>
    show page.toNat + c.place o + j = _
    rw [hplace]
  | @far near far next hzero hlength hholds hcut hnext =>
    subst hzero
    show (if j < near.length then page.toNat + c.place 0 + j
      else next.toNat + (j - near.length)) = _
    split_ifs with hj
    · rw [hplace]
    · have hshort := length_lt_of_unexpectedEnd hcut
      have hroom : near.length = 4096 - c.place 0 := by omega
      have hbyte := (hholds 0 _ (List.getElem?_eq_getElem (by omega))).lt_size
      change _ < mem.bytes.size at hbyte
      have hnext' : next.toNat = page.toNat + 4096 := by
        rw [(mapForFetch_flat hnext).1, hpage, toNat_pageOf, toNat_nextPage, toNat_pageOf]
        rw [hpage, toNat_pageOf] at hbyte
        omega
      rw [hnext', hroom]
      omega

/-- The bytes of a chain are inside memory. -/
theorem end_le_size (hsize : mem.bytes.size ≤ 2 ^ 32) (hpage : page = pageOf c.start)
    (h : c.Chain mem page o es) : ∀ call ∈ c.listing o es,
      c.start.toNat + call.offset.toNat + call.length.toNat ≤ mem.bytes.size := by
  induction es generalizing o with
  | nil => exact fun _ hcall => absurd hcall List.not_mem_nil
  | cons e es ih =>
    obtain ⟨hstart, he, -, hes⟩ := h
    intro call hcall
    obtain hcall | hcall := List.mem_append.1 hcall
    · obtain ⟨hoffset, hlength⟩ := he.shapedAt.of_mem_callsOf hstart.1 hcall
      have hpos := Encoding.length_pos he.decoded
      have hbytes := he.shapedAt.length_le_bytes hstart.1
      have hlast := (he.readsByte (List.getElem?_eq_getElem (i := e.length - 1) (by omega))).lt_size
      rw [address_flat hsize hpage hstart.1 he] at hlast
      change _ < mem.bytes.size at hlast
      omega
    · exact ih hes call hcall

/-- A block of flat memory lies at its linear address. -/
theorem CompileContext.Makes.physPc_eq_start {b : Block} (h : c.Makes mem page e es b) :
    b.physPc = c.start := by
  rw [← UInt64.toNat_inj, h.physPc, (mapForFetch_flat h.mapped).1, toNat_pageOf, place]
  omega

/-- In a context that is like the one that a block was compiled in, the block could have been
    compiled. -/
theorem CompileContext.Alike.compiled {c' : CompileContext} {b : Block} (h : Alike c c' mem)
    (hb : c.Makes mem page e es b) (hsize : mem.bytes.size ≤ 2 ^ 32)
    (hwidth : c'.width = c'.cpu.codeWidth)
    (hlimited : c'.flags.needsLimitChecks = true → c'.cpu.is64Bit = false) :
    c'.Compiled mem page b where
  width := hwidth
  limited := hlimited
  mapped := by
    rw [h.start_eq]
    exact h.mapped _ _ hb.mapped
  pc := by rw [h.start_eq, hb.pc]
  ranges := hb.ranges_lt (by show mem.bytes.size < 2 ^ 64; omega)

/-- In such a context the block is replayed as its instructions are executed one at a time, unless
    it faults. -/
theorem CompileContext.Alike.replay {c' : CompileContext} {b : Block} {m : Machine FlatMemory}
    (h : Alike c c' mem) (hb : c.Makes mem page e es b) (hsize : mem.bytes.size ≤ 2 ^ 32)
    (hcompiled : c'.Compiled mem page b)
    (hflat : c'.flags.needsLimitChecks = false →
      c'.cpu.is64Bit = true ∨ (c'.cpu.seg .cs).base = 0 ∧ (c'.cpu.seg .cs).limit = 0xFFFFFFFF)
    (hm : c'.Reached mem b 0 m) :
    SingleSteps m (b.replay m) ∨ ∃ f m', b.replay m = (.error f, m') := by
  have hunlimited (hchecks : c'.flags.needsLimitChecks = false) (call : Call)
      (hcall : call ∈ c'.listing 0 (e :: es)) :
      c'.Unlimited call.offset.toNat call.length.toNat := by
    rw [h.listing_eq] at hcall
    have hend := end_le_size hsize (mapForFetch_flat hb.mapped).1 hb.chain call hcall
    rw [← h.start_eq] at hend
    obtain h64 | ⟨hbase, hlimit⟩ := hflat hchecks
    · exact .inl h64
    · exact .inr ⟨hbase, hlimit, by omega⟩
  have hcovers (a : Nat) (ha : c'.Takes page 0 (e :: es) a) : ∃ r ∈ b.ranges, r.Covers a :=
    (hb.covers_iff a).2 ((h.takes_iff 0 _ a).1 ha)
  rw [Block.replay, hb.calls, ← h.listing_eq]
  obtain hsteps | ⟨hfault, -⟩ := replayCalls_listing hcompiled
    (h.chain hb.chain) hcovers hunlimited (.zero _) fun _ => hm
  · exact .inl hsteps
  · exact .inr hfault

end

/-! ## Blocks whose code is still there -/

namespace Block

variable {b : Block} {config : Config} {mem mem' : FlatMemory} {cpu : Cpu}

/-- The block has been compiled, for some processor state, from memory that has the same code. -/
def UpToDate (b : Block) (config : Config) (mem : FlatMemory) : Prop :=
  ∃ cpu mem₀ page e es,
    Makes ⟨cpu, .ofCpu cpu config.target config.disregardLock, config⟩ mem₀ page e es b ∧
      SameCode b.ranges mem₀ mem

theorem UpToDate.of_compile {s s' : FetchStream} (hs : s.Current mem)
    (h : compileBlock cpu mem s (.ofCpu cpu config.target config.disregardLock) config =
      (.ok b, s')) : b.UpToDate config mem := by
  obtain ⟨page, e, es, hb⟩ := makes_of_ok (ModeFlags.codeWidth_ofCpu _ _ _) hs h
  exact ⟨cpu, mem, page, e, es, hb, .refl _ _⟩

/-- A block is found for the processor state that it has been compiled for. -/
theorem isFor_of_compile {s s' : FetchStream} (hs : s.Current mem)
    (h : compileBlock cpu mem s (.ofCpu cpu config.target config.disregardLock) config =
      (.ok b, s')) :
    b.isFor cpu.linearPc (.ofCpu cpu config.target config.disregardLock) (.ofCpu cpu) := by
  have hwidth := ModeFlags.codeWidth_ofCpu cpu config.target config.disregardLock
  obtain ⟨page, e, es, hb⟩ := makes_of_ok hwidth hs h
  have hphysPc : b.physPc = cpu.linearPc := hb.physPc_eq_start.trans (start_eq hwidth)
  simp only [Block.isFor, Block.key, hphysPc, hb.flags, hb.identity, CodeIdentity.agrees,
    beq_self_eq_true, Bool.and_self, Bool.or_true]

theorem UpToDate.trans (h : b.UpToDate config mem) (hcode : SameCode b.ranges mem mem') :
    b.UpToDate config mem' := by
  obtain ⟨cpu, mem₀, page, e, es, hb, hsame⟩ := h
  exact ⟨cpu, mem₀, page, e, es, hb, hsame.trans hcode⟩

theorem UpToDate.ranges (h : b.UpToDate config mem) (hsize : mem.bytes.size ≤ 2 ^ 32) :
    ∀ r ∈ b.ranges, r.start.toNat + r.length.toNat < 2 ^ 64 := by
  obtain ⟨cpu, mem₀, page, e, es, hb, hsame⟩ := h
  have hsize₀ : mem.bytes.size = mem₀.bytes.size := hsame.size
  refine hb.ranges_lt ?_
  show mem₀.bytes.size < 2 ^ 64
  omega

/-- Replaying the block logs its writes. -/
theorem UpToDate.logs_replay (h : b.UpToDate config mem) : Logs (b.replay (M := FlatMemory)) := by
  obtain ⟨cpu, mem₀, page, e, es, hb, -⟩ := h
  refine logs_replayCalls b ?_ 0
  rw [hb.calls]
  exact logs_listing 0 hb.chain.sequence.decoded

/-- Where the base of the code segment matters, a block is only found under the same one. -/
theorem base_eq_of_agrees {cpu₀ : Cpu} {target : CpuTarget} {lock : Bool}
    (hlow : (ModeFlags.ofCpu cpu₀ target lock).low = (ModeFlags.ofCpu cpu target lock).low)
    (hagrees : (CodeIdentity.ofCpu cpu₀).agrees (.ofCpu cpu)
      (ModeFlags.ofCpu cpu target lock).isFlat) :
    cpu₀.codeWidth = .bits64 ∨ (cpu.seg .cs).base = (cpu₀.seg .cs).base := by
  have hwidth : cpu₀.codeWidth = cpu.codeWidth := by
    rw [← ModeFlags.codeWidth_ofCpu cpu₀ target lock, ModeFlags.codeWidth_congr hlow,
      ModeFlags.codeWidth_ofCpu]
  have h64 {c : Cpu} (h : c.is64Bit = true) : c.codeWidth = .bits64 := beq_iff_eq.1 h
  simp only [CodeIdentity.agrees, Bool.and_eq_true, Bool.or_eq_true, beq_iff_eq] at hagrees
  obtain ⟨-, hflat | ⟨⟨hbase, -⟩, -⟩⟩ := hagrees
  · have hchecks : (ModeFlags.ofCpu cpu target lock).needsLimitChecks = false := by
      rw [ModeFlags.needsLimitChecks, hflat, Bool.not_true]
    obtain hwide | ⟨hbase, -⟩ := ModeFlags.unlimited_ofCpu cpu target lock hchecks
    · exact .inl (hwidth.trans (h64 hwide))
    · rw [← ModeFlags.needsLimitChecks_congr hlow] at hchecks
      obtain hwide | ⟨hbase₀, -⟩ := ModeFlags.unlimited_ofCpu cpu₀ target lock hchecks
      · exact .inl (h64 hwide)
      · exact .inr (hbase.trans hbase₀.symm)
  · exact .inr hbase.symm

/-- The context that a block was compiled in is like that of a processor state that finds it. -/
theorem alike_of_agrees {cpu₀ : Cpu} (mem : FlatMemory)
    (hlow : (ModeFlags.ofCpu cpu₀ config.target config.disregardLock).low =
      (ModeFlags.ofCpu cpu config.target config.disregardLock).low)
    (hagrees : (CodeIdentity.ofCpu cpu₀).agrees (.ofCpu cpu)
      (ModeFlags.ofCpu cpu config.target config.disregardLock).isFlat) :
    Alike ⟨cpu₀, .ofCpu cpu₀ config.target config.disregardLock, config⟩
      ⟨{ cpu with rip := cpu₀.rip }, .ofCpu cpu₀ config.target config.disregardLock, config⟩
      mem where
  flags := rfl
  rip := rfl
  linearIp ip := by
    rw [width, ModeFlags.codeWidth_ofCpu]
    obtain hwidth | hbase := base_eq_of_agrees hlow hagrees
    · rw [hwidth]
      rfl
    · show ({ cpu with rip := cpu₀.rip } : Cpu).linearIp cpu₀.codeWidth ip =
        cpu₀.linearIp cpu₀.codeWidth ip
      have hbase' : (({ cpu with rip := cpu₀.rip } : Cpu).seg .cs).base = (cpu₀.seg .cs).base :=
        hbase
      unfold Cpu.linearIp
      rw [hbase']
  mapped pc page h := (mapForFetch_flat h).2 _

/-- **A block that is found and up to date is replayed as its instructions are executed one at a
    time**, unless it faults. -/
theorem UpToDate.replay (h : b.UpToDate config mem) (hsize : mem.bytes.size ≤ 2 ^ 32)
    (hrip : cpu.InRange)
    (hfor : b.isFor cpu.linearPc (.ofCpu cpu config.target config.disregardLock) (.ofCpu cpu))
    (log : Array PhysSpan) :
    SingleSteps ⟨cpu, mem, log⟩ (b.replay ⟨cpu, mem, log⟩) ∨
      ∃ f m', b.replay ⟨cpu, mem, log⟩ = (.error f, m') := by
  obtain ⟨cpu₀, mem₀, page, e, es, hb, hcode⟩ := h
  have hsize₀ : mem₀.bytes.size ≤ 2 ^ 32 := by
    have heq : mem.bytes.size = mem₀.bytes.size := hcode.size
    omega
  simp only [Block.isFor, Block.key, hb.flags, hb.identity, Bool.and_eq_true, beq_iff_eq] at hfor
  obtain ⟨⟨hphysPc, hkey⟩, hagrees⟩ := hfor
  have hlow := ModeFlags.low_eq_of_key_eq hkey
  have halike := alike_of_agrees mem₀ hlow hagrees
  have hchecks := ModeFlags.needsLimitChecks_congr hlow
  have hwidth := ModeFlags.codeWidth_congr hlow
  rw [ModeFlags.codeWidth_ofCpu cpu] at hwidth
  have hcompiled := halike.compiled hb hsize₀ hwidth fun h =>
    ModeFlags.limited_ofCpu _ _ _ (hchecks.symm.trans h)
  refine halike.replay hb hsize₀ hcompiled
    (fun h => ModeFlags.unlimited_ofCpu _ _ _ (hchecks.symm.trans h))
    ⟨⟨⟨rfl, rfl⟩, hrip, ?_⟩, hcode⟩
  rw [pcAt_zero, halike.start_eq, ← hb.physPc_eq_start, hphysPc]

end Block

end X86Replay

import X86Replay.Proofs.Aliasing
import X86Replay.Proofs.CodeBytes
import X86Replay.Proofs.Transparency

/-!
# What compiling from flat memory depends on

Once CS:RIP has been resolved, a block depends on the bytes of memory and on whether the next page is
mapped. Neither what the fetch window has read before nor the mapping of other pages makes a
difference, to blocks as little as to faults.

* `mapForFetch_flat_iff`: which code pages are mapped.
* `firstStep_twin_flat`, `compileBlock_twin_flat`: twin windows give the same block or fault.
* `compileBlock_remap`: so do memories of the same bytes that agree on the next page.
-/

namespace X86Replay

open CompileContext

/-! ## Code pages -/

section

variable {mem : FlatMemory} {pc page : UInt64} {cpl : UInt8}

/-- A code page is mapped to itself if it starts inside of memory and is not unmapped. -/
theorem mapForFetch_flat_iff : mapForFetch mem pc cpl = .ok page ↔
    page = pageOf pc ∧ pageOf pc ∉ mem.unmapped ∧ (pageOf pc).toNat < mem.bytes.size := by
  have htranslate : mapForFetch mem pc cpl =
      if pageOf pc ∈ mem.unmapped ∨ mem.bytes.size ≤ (pageOf pc).toNat then
        .error (.pageFault (pageOf pc) (pageFaultCode .execute cpl))
      else .ok (pageOf pc) := by
    rw [mapForFetch, FlatMemory.translate_execute, pageOf_pageOf]
    simp only [List.contains_iff_mem, Bool.or_eq_true, decide_eq_true_eq]
    split_ifs
    · rfl
    · exact congrArg Except.ok (pageOf_pageOf pc)
  rw [htranslate]
  split_ifs with hmissing
  · constructor
    · intro h
      cases h
    · rintro ⟨-, hmapped, hinside⟩
      exact absurd hmissing (not_or.2 ⟨hmapped, Nat.not_le.2 hinside⟩)
  · rw [not_or, Nat.not_le] at hmissing
    exact ⟨fun h => ⟨(Except.ok.inj h).symm, hmissing⟩, fun h => congrArg Except.ok h.1.symm⟩

/-- The page after that of an address is another one. -/
theorem pageOf_nextPage_ne (pc : UInt64) : pageOf (nextPage pc) ≠ pageOf pc := by
  have hnext := toNat_nextPage pc
  have htop := pc.toNat_lt
  rw [Ne, pageOf_eq_iff]
  omega

end

/-! ## Twin windows -/

section

variable {mem : FlatMemory} {cpu : Cpu} {pc : UInt64} {s s' t t' : FetchStream}
  {c : CompileContext} {d : Draft}

theorem CompileContext.Aliases.refl (c : CompileContext) : Aliases c c :=
  ⟨rfl, rfl, rfl, rfl⟩

theorem readNear_twin_flat (width : CodeWidth) (h : FetchStream.Twin mem s cpu pc s' cpu pc) :
    (readNear s' mem width pc).1 = (readNear s mem width pc).1 ∧
      FetchStream.Twin mem (readNear s mem width pc).2 cpu pc (readNear s' mem width pc).2 cpu
        pc := by
  have hcopy := h.copyBytes_flat maxInstructionLength
  unfold readNear
  exact ⟨congrArg (Except.map _) hcopy.symm, (h.copyBytes maxInstructionLength rfl).2⟩

/-- No window on the page of a program counter is used for the next page. -/
theorem readFar_twin_flat (width : CodeWidth) (near : List UInt8)
    (h : FetchStream.Twin mem s cpu pc s' cpu pc) :
    (readFar s' cpu mem width pc near).1 = (readFar s cpu mem width pc near).1 := by
  obtain ⟨w, w', hw, hw', hon, hon', -⟩ := h
  have hmiss : s.window.filter (·.covers cpu (nextPage pc)) = none := by
    rw [hw, Option.filter_some, hon.covers_nextPage]
    rfl
  have hmiss' : s'.window.filter (·.covers cpu (nextPage pc)) = none := by
    rw [hw', Option.filter_some, hon'.covers_nextPage]
    rfl
  unfold readFar
  rw [FetchStream.resolve_of_missing hmiss, FetchStream.resolve_of_missing hmiss']
  cases mapForFetch mem (nextPage pc) cpu.cpl with
  | error x => rfl
  | ok page =>
    have htwin (s s' : FetchStream) : FetchStream.Twin mem
        { s with window := some ⟨pageOf (nextPage pc), page, #[], cpu.epoch, cpu.cpl⟩
                 misses := s.misses + 1 } cpu (nextPage pc)
        { s' with window := some ⟨pageOf (nextPage pc), page, #[], cpu.epoch, cpu.cpl⟩
                  misses := s'.misses + 1 } cpu (nextPage pc) :=
      ⟨_, _, rfl, rfl, ⟨rfl, rfl, rfl⟩, ⟨rfl, rfl, rfl⟩, rfl, .inl rfl⟩
    have hcopy := (htwin s s').copyBytes_flat (maxInstructionLength - near.length)
    dsimp only
    rw [hcopy]

/-- **Twin windows give the same first instruction**, or the same fault. -/
theorem firstStep_twin_flat (hd : d.size = 0)
    (h : FetchStream.Twin mem s c.cpu c.start s' c.cpu c.start) :
    (c.firstStep mem s' d).1 = (c.firstStep mem s d).1 := by
  have hpc : c.pc d = c.start := by rw [c.pc_eq, hd, c.pcAt_zero]
  obtain ⟨hnear, htwin⟩ := readNear_twin_flat c.width h
  unfold firstStep
  dsimp only
  rw [hpc]
  generalize readNear s mem c.width c.start = r at hnear htwin ⊢
  generalize readNear s' mem c.width c.start = r' at hnear htwin ⊢
  obtain ⟨x | e, t⟩ := r <;> obtain ⟨x' | e', t'⟩ := r' <;> cases hnear
  · rfl
  · dsimp only
    split_ifs
    · have hfar := readFar_twin_flat c.width e.bytes htwin
      dsimp only at hfar
      generalize readFar t c.cpu mem c.width c.start e.bytes = r at hfar ⊢
      generalize readFar t' c.cpu mem c.width c.start e.bytes = r' at hfar ⊢
      obtain ⟨x | e, u⟩ := r <;> obtain ⟨x' | e', u'⟩ := r' <;> cases hfar <;> rfl
    · rfl

/-- If another instruction follows the first one, it is on the same page, and the windows are twins
    still. -/
theorem firstStep_more_flat {d' : Draft} (hd : d.size = 0)
    (h : FetchStream.Twin mem s c.cpu c.start s' c.cpu c.start)
    (hmore : (c.firstStep mem s d).1 = .more d') :
    c.place d'.size < 4096 ∧
      FetchStream.Twin mem (c.firstStep mem s d).2 c.cpu c.start (c.firstStep mem s' d).2 c.cpu
        c.start := by
  have hsame := firstStep_twin_flat hd h
  obtain ⟨e, he, hlength, -, htwin⟩ | ⟨e, -, he, -⟩ := firstStep_twin (Aliases.refl c)
    hd h (by rw [hmore]; rintro x ⟨⟩) (by rw [hsame, hmore]; rintro x ⟨⟩)
  · rw [hmore] at he
    exact ⟨place_of_accept (hd ▸ c.place_zero_lt) hlength he.symm, htwin⟩
  · rw [hmore] at he
    cases he

/-- From twin windows all steps lead to the same draft, or fail in the same way. -/
theorem steps_twin_flat (fuel : Nat) (hd : d.size = 0)
    (h : FetchStream.Twin mem s c.cpu c.start s' c.cpu c.start) :
    (∃ x, (c.extend mem fuel (c.firstStep mem s d).1 (c.firstStep mem s d).2).1 = .fault x ∧
        (c.extend mem fuel (c.firstStep mem s' d).1 (c.firstStep mem s' d).2).1 = .fault x) ∨
      ∃ d', (c.extend mem fuel (c.firstStep mem s d).1 (c.firstStep mem s d).2).1.Has d' ∧
        (c.extend mem fuel (c.firstStep mem s' d).1 (c.firstStep mem s' d).2).1.Has d' := by
  rw [firstStep_twin_flat hd h]
  cases hfirst : (c.firstStep mem s d).1 with
  | fault x =>
    rw [extend_fault, extend_fault]
    exact .inl ⟨x, rfl, rfl⟩
  | finished d' =>
    rw [extend_finished, extend_finished]
    exact .inr ⟨d', .inr rfl, .inr rfl⟩
  | more d' =>
    obtain ⟨hplace, htwin⟩ := firstStep_more_flat hd h hfirst
    -- The two contexts are one, so neither instruction pointer passes the last one before the other.
    obtain ⟨d₁, d₁', hd₁, hd₁', rfl | hstops | hstops⟩ := extend_twin
      (Aliases.refl c) fuel hplace htwin rfl rfl
    · exact .inr ⟨_, hd₁, hd₁'⟩
    · exact absurd hstops.past hstops.within
    · exact absurd hstops.past hstops.within

/-- **Twin windows give the same block**, or the same fault. -/
theorem compileBlock_twin_flat {a : UInt64} {flags : ModeFlags} (config : Config)
    (hwidth : flags.codeWidth = cpu.codeWidth)
    (hs : s.resolve cpu mem cpu.linearPc = (.ok a, t))
    (hs' : s'.resolve cpu mem cpu.linearPc = (.ok a, t'))
    (h : FetchStream.Twin mem t cpu cpu.linearPc t' cpu cpu.linearPc) :
    (compileBlock cpu mem s' flags config).1 = (compileBlock cpu mem s flags config).1 := by
  have hstart : start ⟨cpu, flags, config⟩ = cpu.linearPc := start_eq hwidth
  have hsteps := steps_twin_flat (c := ⟨cpu, flags, config⟩) pageSize.toNat
    (d := { first := ⟨a, 0⟩ }) rfl (hstart.symm ▸ h)
  unfold compileBlock
  dsimp only
  rw [hs, hs']
  dsimp only
  generalize extend ⟨cpu, flags, config⟩ mem pageSize.toNat _ _ = r at hsteps ⊢
  generalize extend ⟨cpu, flags, config⟩ mem pageSize.toNat _ _ = r' at hsteps ⊢
  obtain ⟨q, u⟩ := r
  obtain ⟨q', u'⟩ := r'
  obtain ⟨x, hq, hq'⟩ | ⟨d, rfl | rfl, rfl | rfl⟩ := hsteps
  · dsimp only at hq hq'
    rw [hq, hq']
  all_goals rfl

end

/-! ## Pages mapped elsewhere -/

section

variable {mem mem' : FlatMemory} {cpu : Cpu} {pc : UInt64} {s t : FetchStream}
  {c : CompileContext} {d : Draft}

/-- The stream has a window on the page of a program counter. -/
def FetchStream.IsOn (s : FetchStream) (cpu : Cpu) (pc : UInt64) : Prop :=
  ∃ w, s.window = some w ∧ w.IsOn cpu pc

theorem FetchStream.IsOn.twin (h : s.IsOn cpu pc) (mem : FlatMemory) :
    FetchStream.Twin mem s cpu pc s cpu pc := by
  obtain ⟨w, hw, hon⟩ := h
  exact ⟨w, w, hw, hw, hon, hon, rfl, .inl rfl⟩

theorem FetchStream.Twin.isOn {s' : FetchStream} {cpu' : Cpu} {pc' : UInt64}
    (h : FetchStream.Twin mem s cpu pc s' cpu' pc') : s.IsOn cpu pc := by
  obtain ⟨w, -, hw, -, hon, -⟩ := h
  exact ⟨w, hw, hon⟩

/-- Copying reads bytes only. -/
theorem FetchStream.copyBytes_remap (hbytes : mem'.bytes = mem.bytes) (s : FetchStream)
    (pc : UInt64) (limit : Nat) : s.copyBytes mem' pc limit = s.copyBytes mem pc limit := by
  obtain ⟨bytes, unmapped, writeProtected⟩ := mem
  obtain ⟨bytes', unmapped', writeProtected'⟩ := mem'
  obtain rfl : bytes' = bytes := hbytes
  rfl

theorem readNear_remap (hbytes : mem'.bytes = mem.bytes) (s : FetchStream) (width : CodeWidth)
    (pc : UInt64) : readNear s mem' width pc = readNear s mem width pc := by
  unfold readNear
  rw [FetchStream.copyBytes_remap hbytes]

theorem readFar_remap (hbytes : mem'.bytes = mem.bytes) (width : CodeWidth) (near : List UInt8)
    (hs : s.IsOn cpu pc)
    (hnext : mapForFetch mem' (nextPage pc) cpu.cpl = mapForFetch mem (nextPage pc) cpu.cpl) :
    readFar s cpu mem' width pc near = readFar s cpu mem width pc near := by
  obtain ⟨w, hw, hon⟩ := hs
  have hmiss : s.window.filter (·.covers cpu (nextPage pc)) = none := by
    rw [hw, Option.filter_some, hon.covers_nextPage]
    rfl
  unfold readFar
  rw [FetchStream.resolve_of_missing hmiss, FetchStream.resolve_of_missing hmiss, hnext]
  simp only [FetchStream.copyBytes_remap hbytes]

theorem firstStep_remap (hbytes : mem'.bytes = mem.bytes) (hd : d.size = 0)
    (hs : s.IsOn c.cpu c.start)
    (hnext : mapForFetch mem' (nextPage c.start) c.cpu.cpl =
      mapForFetch mem (nextPage c.start) c.cpu.cpl) :
    c.firstStep mem' s d = c.firstStep mem s d := by
  have hpc : c.pc d = c.start := by rw [c.pc_eq, hd, c.pcAt_zero]
  have hkept := ((readNear_twin_flat c.width (hs.twin mem)).2).isOn
  unfold firstStep
  dsimp only
  rw [hpc, readNear_remap hbytes]
  generalize readNear s mem c.width c.start = r at hkept
  obtain ⟨x | e, t⟩ := r
  · rfl
  · dsimp only
    rw [readFar_remap hbytes c.width e.bytes hkept hnext]

/-- A later instruction is on the page of the window. -/
theorem nextStep_remap (hbytes : mem'.bytes = mem.bytes) (hs : s.IsOn c.cpu (c.pc d)) :
    c.nextStep mem' s d = c.nextStep mem s d := by
  obtain ⟨w, hw, hon⟩ := hs
  unfold nextStep
  dsimp only
  rw [FetchStream.resolve_of_covers hw hon.covers, FetchStream.resolve_of_covers hw hon.covers]
  simp only [readNear_remap hbytes]

theorem extend_remap (hbytes : mem'.bytes = mem.bytes) (fuel : Nat) (hd : c.place d.size < 4096)
    (hs : s.IsOn c.cpu c.start) :
    c.extend mem' fuel (.more d) s = c.extend mem fuel (.more d) s := by
  induction fuel generalizing d s with
  | zero => rfl
  | succ fuel ih =>
    have hpage : pageOf (c.pc d) = pageOf c.start := c.pageOf_pcAt hd
    have hon : s.IsOn c.cpu (c.pc d) := ((hs.twin mem).congr hpage hpage).isOn
    rw [extend_succ, extend_succ, nextStep_remap hbytes hon]
    by_cases hlimit : c.PastLimit d
    · rw [nextStep_of_pastLimit mem s hlimit, extend_finished, extend_finished]
    · have hkept := (nextStep_twin (Aliases.refl c) hd (hs.twin mem) hlimit hlimit).2.isOn
      obtain ⟨d', hd', -, hplace⟩ := c.nextStep_grows mem s d
      generalize (c.nextStep mem s d).1 = p at hd' hplace ⊢
      obtain rfl | rfl := hd'
      · exact ih (hplace hd rfl) hkept
      · rw [extend_finished, extend_finished]

/-- **Compiling does not depend on which pages are mapped**, once CS:RIP has been resolved, but for
    the next page. -/
theorem compileBlock_remap {a : UInt64} {flags : ModeFlags} (config : Config)
    (hbytes : mem'.bytes = mem.bytes) (hwidth : flags.codeWidth = cpu.codeWidth)
    (hs : s.resolve cpu mem cpu.linearPc = (.ok a, t))
    (hs' : s.resolve cpu mem' cpu.linearPc = (.ok a, t)) (ht : t.IsOn cpu cpu.linearPc)
    (hnext : mapForFetch mem' (nextPage cpu.linearPc) cpu.cpl =
      mapForFetch mem (nextPage cpu.linearPc) cpu.cpl) :
    compileBlock cpu mem' s flags config = compileBlock cpu mem s flags config := by
  have hstart : start ⟨cpu, flags, config⟩ = cpu.linearPc := start_eq hwidth
  rw [← hstart] at ht hnext
  have hfirst := firstStep_remap (c := ⟨cpu, flags, config⟩) (d := { first := ⟨a, 0⟩ }) hbytes rfl
    ht hnext
  have hmore {d' : Draft}
      (h : (firstStep ⟨cpu, flags, config⟩ mem t { first := ⟨a, 0⟩ }).1 = .more d') :=
    firstStep_more_flat rfl (ht.twin mem) h
  unfold compileBlock
  dsimp only
  rw [hs, hs']
  dsimp only
  rw [hfirst]
  generalize firstStep ⟨cpu, flags, config⟩ mem t { first := ⟨a, 0⟩ } = r at hmore
  obtain ⟨d' | d' | x, u⟩ := r
  · obtain ⟨hplace, htwin⟩ := hmore rfl
    dsimp only at hplace htwin ⊢
    rw [extend_remap hbytes _ hplace htwin.isOn]
  · dsimp only
    rw [extend_finished, extend_finished]
  · dsimp only
    rw [extend_fault, extend_fault]

end

end X86Replay

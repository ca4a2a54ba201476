import X86Replay.Proofs.Consistency

/-!
# Flags and identities determine how code is decoded and checked

A block is found by the flags that tell blocks apart and by the identity of its code segment, of
which flat code compares the access rights alone. All that is left out cannot matter.

* `ModeFlags.sameCode_of_key_eq`: processor states that blocks are not told apart by.
* `ModeFlags.flags_determine_code`: what the flags of one processor state say, and what two of them
  have in common.
-/

namespace X86Replay

namespace ModeFlags

/-- **Processor states that find the same blocks decode and check code alike.** -/
theorem sameCode_of_key_eq {cpu cpu' : Cpu} {target target' : CpuTarget} {lock lock' : Bool}
    (hkey : (ofCpu cpu target lock).key = (ofCpu cpu' target' lock').key)
    (hagrees : (CodeIdentity.ofCpu cpu).agrees (.ofCpu cpu') (ofCpu cpu target lock).isFlat) :
    cpu.codeWidth = cpu'.codeWidth ∧
    (ofCpu cpu target lock).needsLimitChecks = (ofCpu cpu' target' lock').needsLimitChecks ∧
    (cpu.context = .smm ↔ cpu'.context = .smm) ∧
    (cpu.is64Bit = false → (cpu.seg .cs).base = (cpu'.seg .cs).base ∧
      (cpu.seg .cs).limit = (cpu'.seg .cs).limit) := by
  have hlow := low_eq_of_key_eq hkey
  have hwidth : cpu.codeWidth = cpu'.codeWidth := by
    rw [← codeWidth_ofCpu cpu target lock, codeWidth_congr hlow, codeWidth_ofCpu]
  refine ⟨hwidth, needsLimitChecks_congr hlow, ?_, fun h64 => ?_⟩
  · rw [← smm_ofCpu cpu target lock, smm_eq_of_key_eq hkey, smm_ofCpu]
  · have h64' : cpu'.is64Bit = false := by rw [Cpu.is64Bit, ← hwidth]; exact h64
    cases hflat : (ofCpu cpu target lock).isFlat with
    | true =>
      -- Neither base nor limit has been compared, but both segments are flat.
      have hflat' : (ofCpu cpu' target' lock').isFlat := by rw [← isFlat_congr hlow, hflat]
      have hcs := (flat_ofCpu cpu target lock hflat).resolve_left (by simp [h64]) .cs (by simp)
      have hcs' := (flat_ofCpu cpu' target' lock' hflat').resolve_left (by simp [h64']) .cs (by simp)
      exact ⟨hcs.1.trans hcs'.1.symm, hcs.2.trans hcs'.2.symm⟩
    | false =>
      obtain ⟨-, hsegment⟩ := Block.agrees_iff.1 hagrees
      exact ⟨(hsegment hflat).1, (hsegment hflat).2.1⟩

/-- **Flags and identities determine how code is decoded and checked.** The flags of a processor
    state hold a valid mode of its width, its width and its privilege level, and if they are flat,
    code has 64 bits or CS, DS, ES and SS all cover the first 4 GiB. Two processor states whose
    flags have the same key and whose identities agree have the same width and the same need for
    limit checks, either both or none of them are in system management mode, and outside of 64-bit
    code base and limit of their code segments are the same. -/
theorem flags_determine_code :
    (∀ (cpu : Cpu) (target : CpuTarget) (lock : Bool),
      (∃ mode, (ofCpu cpu target lock).mode? = some mode ∧ mode.codeWidth = cpu.codeWidth) ∧
      (ofCpu cpu target lock).codeWidth = cpu.codeWidth ∧
      (ofCpu cpu target lock).is64Bit = cpu.is64Bit ∧
      (ofCpu cpu target lock).cpl = cpu.cpl ∧
      ((ofCpu cpu target lock).isFlat → cpu.is64Bit = true ∨
        ∀ s ∈ [SegmentName.cs, .ds, .es, .ss],
          (cpu.seg s).base = 0 ∧ (cpu.seg s).limit = 0xFFFFFFFF)) ∧
    ∀ (cpu cpu' : Cpu) (target target' : CpuTarget) (lock lock' : Bool),
      (ofCpu cpu target lock).key = (ofCpu cpu' target' lock').key →
      (CodeIdentity.ofCpu cpu).agrees (.ofCpu cpu') (ofCpu cpu target lock).isFlat →
        cpu.codeWidth = cpu'.codeWidth ∧
        (ofCpu cpu target lock).needsLimitChecks = (ofCpu cpu' target' lock').needsLimitChecks ∧
        (cpu.context = .smm ↔ cpu'.context = .smm) ∧
        (cpu.is64Bit = false → (cpu.seg .cs).base = (cpu'.seg .cs).base ∧
          (cpu.seg .cs).limit = (cpu'.seg .cs).limit) :=
  ⟨fun cpu target lock => ⟨mode_ofCpu cpu target lock, codeWidth_ofCpu cpu target lock,
      is64Bit_ofCpu cpu target lock, cpl_ofCpu cpu target lock, flat_ofCpu cpu target lock⟩,
    fun _ _ _ _ _ _ => sameCode_of_key_eq⟩

/-- The same for flat code of the system and of a program in a guest, whose selectors, levels and
    contexts differ, for different targets. -/
theorem flags_determine_code_flat :
    ∃ cpu cpu' : Cpu, cpu.cpl = 0 ∧ cpu'.cpl = 3 ∧ cpu.context = .normal ∧
      cpu'.context = .vmx true ∧
      (ofCpu cpu .current false).key = (ofCpu cpu' .i386 false).key ∧
      (ofCpu cpu .current false).isFlat = true ∧
      (∃ mode, (ofCpu cpu' .i386 false).mode? = some mode ∧ mode.codeWidth = .bits32) ∧
      cpu'.codeWidth = .bits32 ∧ (cpu'.seg .cs).base = (cpu.seg .cs).base ∧
      (cpu'.seg .cs).limit = (cpu.seg .cs).limit := by
  obtain ⟨cpu', hcpu'⟩ : ∃ cpu' : Cpu, cpu' = { Cpu.flat32 with
      context := .vmx true
      segments := Cpu.flat32.segments.set .cs (.flatCode32 0x1B) } := ⟨_, rfl⟩
  have hkey : (ofCpu Cpu.flat32 .current false).key = (ofCpu cpu' .i386 false).key := by
    rw [hcpu']
    decide +kernel
  have hagrees : (CodeIdentity.ofCpu Cpu.flat32).agrees (.ofCpu cpu')
      (ofCpu Cpu.flat32 .current false).isFlat := by
    rw [hcpu']
    decide +kernel
  obtain ⟨hflags, hpairs⟩ := flags_determine_code
  obtain ⟨hwidth, -, -, hcs⟩ := hpairs _ _ _ _ _ _ hkey hagrees
  obtain ⟨hbase, hlimit⟩ := hcs (by decide +kernel)
  have hwidth' : cpu'.codeWidth = .bits32 := by
    rw [← hwidth]
    decide +kernel
  obtain ⟨mode, hmode, hmodeWidth⟩ := (hflags cpu' .i386 false).1
  refine ⟨.flat32, cpu', by decide +kernel, ?_, rfl, by rw [hcpu'], hkey, by decide +kernel,
    ⟨mode, hmode, hmodeWidth.trans hwidth'⟩, hwidth', hbase.symm, hlimit.symm⟩
  rw [hcpu']
  decide +kernel

end ModeFlags

end X86Replay

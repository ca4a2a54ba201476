import X86Replay.Cpu.Mode
import Mathlib.Tactic.SplitIfs

/-!
# What mode flags say of a processor

* `ModeFlags.ofCpu_and`: the flags of a processor state are five fields that do not overlap.
* `ofCpu_and_modeMask`, `ofCpu_and_cplMask`, `ofCpu_and_contextMask`, `low_ofCpu`: the mode proper,
  the level, the context, and what the low three bits hold of the mode.
* `mode_ofCpu`, `codeWidth_ofCpu`, `is64Bit_ofCpu`, `cpl_ofCpu`, `isFlat_ofCpu`: the flags of a
  processor state give its mode, width and level, and are flat in 64-bit code and in 32-bit code with
  flat segments.
* `low_eq_of_key_eq`, `smm_eq_of_key_eq`: blocks with the same key agree on width, flatness and
  system management mode.
-/

namespace X86Replay

namespace ModeFlags

/-- The flags of width and flatness. -/
def low (f : ModeFlags) : UInt32 :=
  f.bits &&& 7

theorem and_widthMask (f : ModeFlags) : f.bits &&& widthMask = f.low &&& widthMask := by
  rw [low, UInt32.and_assoc]
  rfl

theorem and_flatOrPre386 (f : ModeFlags) : f.bits &&& flatOrPre386 = f.low &&& flatOrPre386 := by
  rw [low, UInt32.and_assoc]
  rfl

theorem codeWidth_congr {f g : ModeFlags} (h : f.low = g.low) : f.codeWidth = g.codeWidth := by
  rw [codeWidth, and_widthMask, h, ← and_widthMask, codeWidth]

theorem isFlat_congr {f g : ModeFlags} (h : f.low = g.low) : f.isFlat = g.isFlat := by
  unfold isFlat is64Bit
  rw [and_widthMask, and_flatOrPre386, h, ← and_widthMask, ← and_flatOrPre386]

theorem needsLimitChecks_congr {f g : ModeFlags} (h : f.low = g.low) :
    f.needsLimitChecks = g.needsLimitChecks := by
  rw [needsLimitChecks, isFlat_congr h, needsLimitChecks]

/-- Width and flatness are among the flags that tell blocks apart. -/
theorem low_eq_of_key_eq {f g : ModeFlags} (h : f.key = g.key) : f.low = g.low := by
  have hlow (f : ModeFlags) : f.low = f.key &&& 7 := by
    rw [key, UInt32.and_assoc]
    rfl
  rw [hlow, h, ← hlow]

/-- So is system management mode. -/
theorem smm_eq_of_key_eq {f g : ModeFlags} (h : f.key = g.key) : f.bits &&& smm = g.bits &&& smm := by
  have hsmm (f : ModeFlags) : f.bits &&& smm = f.key &&& smm := by
    rw [key, UInt32.and_assoc]
    rfl
  rw [hsmm, h, ← hsmm]

/-! ## Fields -/

/-- A word that is inside its field has no bits in the other ones. -/
theorem and_eq_zero_of_field {x field mask : UInt32} (hx : x &&& field = x)
    (h : field &&& mask = 0) : x &&& mask = 0 := by
  rw [← hx, UInt32.and_assoc, h, UInt32.and_zero]

theorem or_and (x y mask : UInt32) : (x ||| y) &&& mask = (x &&& mask) ||| (y &&& mask) := by
  rw [← UInt32.toNat_inj]
  simp only [UInt32.toNat_and, UInt32.toNat_or, Nat.and_or_distrib_right]

theorem flagIf_and (c : Bool) (flag : UInt32) : flagIf c flag &&& flag = flagIf c flag := by
  cases c with
  | false => exact UInt32.zero_and
  | true => exact UInt32.and_self

theorem breakpointBits_and (cpu : Cpu) (i : Nat) :
    breakpointBits cpu i &&& 0x700 = breakpointBits cpu i := by
  unfold breakpointBits
  split_ifs
  · rfl
  · split
    · rfl
    · generalize (cpu.cr4 &&& Cr4.debugExtensions != 0) = extended
      cases extended <;> rfl
    · rfl

theorem pendingBreakpoints_and (cpu : Cpu) :
    pendingBreakpoints cpu &&& 0x700 = pendingBreakpoints cpu := by
  have hfold (l : List Nat) (bits : UInt32) (h : bits &&& 0x700 = bits) :
      l.foldl (fun bits i => bits ||| breakpointBits cpu i) bits &&& 0x700 =
        l.foldl (fun bits i => bits ||| breakpointBits cpu i) bits := by
    induction l generalizing bits with
    | nil => exact h
    | cons i l ih =>
      refine ih _ ?_
      rw [or_and, breakpointBits_and, h]
  exact hfold _ 0 rfl

/-- The field of the privilege level, which is below four. -/
theorem cplBits_and (cpu : Cpu) : (cpu.cpl.toUInt32 <<< 12) &&& cplMask = cpu.cpl.toUInt32 <<< 12 ∧
    (((cpu.cpl.toUInt32 <<< 12) >>> 12).toUInt8 = cpu.cpl) := by
  have hlevels : ∀ s : UInt16, s &&& 3 = 0 ∨ s &&& 3 = 1 ∨ s &&& 3 = 2 ∨ s &&& 3 = 3 := by
    intro s
    have hlt : (s &&& 3).toNat < 4 := by
      rw [UInt16.toNat_and]
      exact Nat.and_lt_two_pow _ (n := 2) (by decide)
    simp only [← UInt16.toNat_inj]
    change _ = 0 ∨ _ = 1 ∨ _ = 2 ∨ _ = 3
    omega
  unfold Cpu.cpl
  split_ifs
  · decide
  · decide
  · obtain h | h | h | h := hlevels (cpu.seg .cs).selector
    all_goals
      rw [h]
      decide

theorem contextBits_and (context : ExecContext) :
    contextBits context &&& contextMask = contextBits context := by
  cases context with
  | normal | smm => rfl
  | vmx guest | svm guest => cases guest <;> rfl

variable (cpu : Cpu) (target : CpuTarget) (lock : Bool)

/-- The mode proper is in the low five bits. -/
theorem modeBits_and : modeBits cpu target &&& 0x1F = modeBits cpu target := by
  unfold modeBits
  generalize cpu.isProtected = prot, cpu.isVirtual8086 = virt, target.isPre386 = old,
    hasFlatSegments cpu = flat
  cases cpu.codeWidth with
  | bits64 => decide +revert
  | bits32 => decide +revert
  | bits16 => decide +revert

/-- The five fields of the flags. -/
theorem ofCpu_and (mask : UInt32) :
    (ofCpu cpu target lock).bits &&& mask =
      (modeBits cpu target &&& mask) ||| (flagIf lock disregardLock &&& mask)
        ||| (pendingBreakpoints cpu &&& mask) ||| ((cpu.cpl.toUInt32 <<< 12) &&& mask)
        ||| (contextBits cpu.context &&& mask) := by
  unfold ofCpu
  simp only [or_and]

/-- What the low five bits of the flags hold. -/
theorem ofCpu_and_modeMask :
    (ofCpu cpu target lock).bits &&& 0x1F = modeBits cpu target := by
  rw [ofCpu_and, modeBits_and, and_eq_zero_of_field (flagIf_and lock _) rfl,
    and_eq_zero_of_field (pendingBreakpoints_and cpu) rfl,
    and_eq_zero_of_field (cplBits_and cpu).1 rfl,
    and_eq_zero_of_field (contextBits_and _) rfl]
  simp only [UInt32.or_zero]

theorem ofCpu_and_cplMask :
    (ofCpu cpu target lock).bits &&& cplMask = cpu.cpl.toUInt32 <<< 12 := by
  rw [ofCpu_and, (cplBits_and cpu).1, and_eq_zero_of_field (modeBits_and cpu target) rfl,
    and_eq_zero_of_field (flagIf_and lock _) rfl,
    and_eq_zero_of_field (pendingBreakpoints_and cpu) rfl,
    and_eq_zero_of_field (contextBits_and _) rfl]
  simp only [UInt32.or_zero, UInt32.zero_or]

theorem ofCpu_and_contextMask :
    (ofCpu cpu target lock).bits &&& contextMask = contextBits cpu.context := by
  rw [ofCpu_and, contextBits_and, and_eq_zero_of_field (modeBits_and cpu target) rfl,
    and_eq_zero_of_field (flagIf_and lock _) rfl,
    and_eq_zero_of_field (pendingBreakpoints_and cpu) rfl,
    and_eq_zero_of_field (cplBits_and cpu).1 rfl]
  simp only [UInt32.zero_or]

/-- Only the mode proper has flags of width and flatness. -/
theorem low_ofCpu : (ofCpu cpu target lock).low = modeBits cpu target &&& 7 := by
  rw [← ofCpu_and_modeMask cpu target lock, UInt32.and_assoc]
  rfl

/-! ## Flags of a processor -/

/-- The flags hold a valid mode, and it has the width of the code. -/
theorem mode_ofCpu :
    ∃ mode, (ofCpu cpu target lock).mode? = some mode ∧ mode.codeWidth = cpu.codeWidth := by
  unfold mode? ExecMode.ofBits?
  rw [ofCpu_and_modeMask]
  unfold modeBits
  generalize cpu.isProtected = prot, cpu.isVirtual8086 = virt, target.isPre386 = old,
    hasFlatSegments cpu = flat
  cases cpu.codeWidth with
  | bits64 => exact ⟨_, rfl, rfl⟩
  | bits32 => cases prot <;> cases flat <;> exact ⟨_, rfl, rfl⟩
  | bits16 => cases virt <;> cases prot <;> cases old <;> exact ⟨_, rfl, rfl⟩

theorem cpl_ofCpu : (ofCpu cpu target lock).cpl = cpu.cpl := by
  rw [cpl, ofCpu_and_cplMask]
  exact (cplBits_and cpu).2

/-- System management mode has a flag of its own. -/
theorem smm_ofCpu : (ofCpu cpu target lock).bits &&& smm ≠ 0 ↔ cpu.context = .smm := by
  have hsmm : (ofCpu cpu target lock).bits &&& smm = contextBits cpu.context &&& smm := by
    rw [← ofCpu_and_contextMask cpu target lock, UInt32.and_assoc]
    rfl
  rw [hsmm]
  cases cpu.context with
  | normal => decide
  | smm => decide
  | vmx guest | svm guest => cases guest <;> decide

/-- The low flags of the three widths. -/
theorem modeBits_and_seven :
    modeBits cpu target &&& 7 =
      match cpu.codeWidth with
      | .bits64 => 2
      | .bits32 => if hasFlatSegments cpu then 5 else 1
      | .bits16 => if !cpu.isVirtual8086 && target.isPre386 then 4 else 0 := by
  unfold modeBits
  generalize cpu.isProtected = prot, cpu.isVirtual8086 = virt, target.isPre386 = old,
    hasFlatSegments cpu = flat
  cases cpu.codeWidth with
  | bits64 => decide +revert
  | bits32 => decide +revert
  | bits16 => decide +revert

theorem codeWidth_ofCpu : (ofCpu cpu target lock).codeWidth = cpu.codeWidth := by
  rw [codeWidth, and_widthMask, low_ofCpu, modeBits_and_seven]
  generalize hasFlatSegments cpu = flat, (!cpu.isVirtual8086 && target.isPre386) = old
  cases cpu.codeWidth with
  | bits64 => decide +revert
  | bits32 => decide +revert
  | bits16 => decide +revert

theorem is64Bit_ofCpu : (ofCpu cpu target lock).is64Bit = cpu.is64Bit := by
  rw [is64Bit, and_widthMask, low_ofCpu, modeBits_and_seven, Cpu.is64Bit]
  generalize hasFlatSegments cpu = flat, (!cpu.isVirtual8086 && target.isPre386) = old
  cases cpu.codeWidth with
  | bits64 => decide +revert
  | bits32 => decide +revert
  | bits16 => decide +revert

theorem isFlat_ofCpu :
    (ofCpu cpu target lock).isFlat =
      (cpu.is64Bit || cpu.codeWidth == .bits32 && hasFlatSegments cpu) := by
  unfold isFlat is64Bit Cpu.is64Bit
  rw [and_widthMask, and_flatOrPre386, low_ofCpu, modeBits_and_seven]
  generalize hasFlatSegments cpu = flat, (!cpu.isVirtual8086 && target.isPre386) = old
  cases cpu.codeWidth with
  | bits64 => decide +revert
  | bits32 => decide +revert
  | bits16 => decide +revert

/-- Flat code has 64 bits, or all four of its segments cover the first 4 GiB. -/
theorem flat_ofCpu (h : (ofCpu cpu target lock).isFlat) :
    cpu.is64Bit = true ∨ ∀ s ∈ [SegmentName.cs, .ds, .es, .ss],
      (cpu.seg s).base = 0 ∧ (cpu.seg s).limit = 0xFFFFFFFF := by
  rw [isFlat_ofCpu, Bool.or_eq_true, Bool.and_eq_true, hasFlatSegments, List.all_eq_true] at h
  obtain h64 | ⟨-, hsegments⟩ := h
  · exact .inl h64
  · refine .inr fun s hs => ?_
    simpa only [SegmentRegister.isFlat, Bool.and_eq_true, beq_iff_eq] using hsegments s hs

/-- Code whose limit is not checked has 64 bits, or is in a segment that covers the first 4 GiB. -/
theorem unlimited_ofCpu (h : (ofCpu cpu target lock).needsLimitChecks = false) :
    cpu.is64Bit = true ∨ (cpu.seg .cs).base = 0 ∧ (cpu.seg .cs).limit = 0xFFFFFFFF := by
  rw [needsLimitChecks, Bool.not_eq_false'] at h
  obtain h64 | hsegments := flat_ofCpu cpu target lock h
  · exact .inl h64
  · exact .inr (hsegments .cs (List.mem_cons_self ..))

/-- Code whose limit is checked does not have 64 bits. -/
theorem limited_ofCpu (h : (ofCpu cpu target lock).needsLimitChecks = true) :
    cpu.is64Bit = false := by
  rw [needsLimitChecks, isFlat_ofCpu] at h
  cases h64 : cpu.is64Bit with
  | true => rw [h64] at h; cases h
  | false => rfl

end ModeFlags

end X86Replay

import X86Replay.Proofs.Layout

/-!
# What a run of prefixes says

Prefixes come in groups, and of each group the last one counts; a REX prefix counts right before the
opcode only. So a run of prefixes has a meaning of its own, whatever way it is scanned.

* `Prefixes.apply_eq`: what one more prefix byte changes, field by field.
* `Prefixes.SaidBy`: what the prefixes of a run add up to, shown for all runs in
  `Prefixes.SaidBy.foldl` by induction from the end.
* `SameLast`, `Prefixes.SaidBy.eq_iff`: when two runs add up to the same.
* `decode_prefixes`: the prefixes of an instruction, and what may stand in their place.
-/

namespace X86Replay

/-! ## Groups of prefixes -/

/-- The last byte of a run that belongs to a group. -/
def lastIn (group run : List UInt8) : Option UInt8 :=
  (run.filter (· ∈ group)).getLast?

theorem lastIn_snoc (group run : List UInt8) (b : UInt8) :
    lastIn group (run ++ [b]) = if b ∈ group then some b else lastIn group run := by
  unfold lastIn
  rw [List.filter_append, List.filter_singleton]
  split_ifs with h <;> simp [h]

theorem mem_of_lastIn {group run : List UInt8} {b : UInt8} (h : lastIn group run = some b) :
    b ∈ group := by
  simpa using (List.mem_filter.1 (List.mem_of_getLast? h)).2

/-- The repeat prefixes. -/
def repeatGroup : List UInt8 := [0xF2, 0xF3]

/-- What a repeat prefix asks for. -/
def repeat? (b : UInt8) : Option Repeat :=
  match b with
  | 0xF2 => some .repne
  | 0xF3 => some .rep
  | _ => none

/-- The segment overrides that have an effect. -/
def segmentGroup (width : CodeWidth) : List UInt8 :=
  match width with
  | .bits16 | .bits32 => [0x26, 0x2E, 0x36, 0x3E, 0x64, 0x65]
  | .bits64 => [0x64, 0x65]

/-- The last byte of a run, if it is a REX prefix. -/
def lastRex (width : CodeWidth) (run : List UInt8) : Option UInt8 :=
  run.getLast?.filter fun b => width = .bits64 ∧ 0x40 ≤ b ∧ b ≤ 0x4F

theorem not_legacy_of_isRex {width : CodeWidth} {b : UInt8} (h : isRex width b = true) :
    b ∉ legacyPrefixes := by
  intro hmem
  obtain ⟨-, hlow, hhigh⟩ := (isRex_iff width b).1 h
  have hout : ∀ b ∈ legacyPrefixes, ¬(0x40 ≤ b ∧ b ≤ 0x4F) := by simp [legacyPrefixes]
  exact hout b hmem ⟨hlow, hhigh⟩

/-- What one more prefix byte changes, field by field. -/
theorem Prefixes.apply_eq {width : CodeWidth} {b : UInt8} (p : Prefixes)
    (hb : PrefixByte width b) :
    p.apply width b =
      { lock := p.lock || b == 0xF0
        rep := if b ∈ repeatGroup then repeat? b else p.rep
        segment := if b ∈ segmentGroup width then segmentOverride? b else p.segment
        otherOperandSize := p.otherOperandSize || b == 0x66
        otherAddressSize := p.otherAddressSize || b == 0x67
        rex := if isRex width b then some ⟨b⟩ else none } := by
  by_cases hrex : isRex width b
  · have hlegacy := not_legacy_of_isRex hrex
    have hne : ∀ c ∈ legacyPrefixes, (b == c) = false := by
      intro c hc
      rw [beq_eq_false_iff_ne]
      rintro rfl
      exact hlegacy hc
    have hrepeat : b ∉ repeatGroup := fun h => hlegacy ((by decide : repeatGroup ⊆ _) h)
    have hsegment : b ∉ segmentGroup width :=
      fun h => hlegacy ((by cases width <;> decide : segmentGroup width ⊆ _) h)
    rw [apply, if_pos hrex, if_pos hrex, if_neg hrepeat, if_neg hsegment, hne 0xF0 (by decide),
      hne 0x66 (by decide), hne 0x67 (by decide)]
    simp only [Bool.or_false]
  · have hb' : b ∈ legacyPrefixes :=
      hb.resolve_right fun h => hrex ((isRex_iff width b).2 h)
    rw [apply, if_neg hrex, if_neg hrex]
    simp only [legacyPrefixes, List.mem_cons, List.not_mem_nil, or_false] at hb'
    obtain rfl | rfl | rfl | rfl | rfl | rfl | rfl | rfl | rfl | rfl | rfl := hb' <;>
      cases width <;>
      simp [repeatGroup, repeat?, segmentGroup, segmentOverride?, overrideSegment]

theorem lastRex_snoc (width : CodeWidth) (run : List UInt8) (b : UInt8) :
    lastRex width (run ++ [b]) = if isRex width b then some b else none := by
  rw [lastRex, List.getLast?_concat, Option.filter_some]
  simp only [isRex_iff, decide_eq_true_eq]

/-! ## Runs -/

/-- What the prefixes of a run add up to. -/
structure Prefixes.SaidBy (p : Prefixes) (width : CodeWidth) (run : List UInt8) : Prop where
  lock : p.lock = true ↔ 0xF0 ∈ run
  otherOperandSize : p.otherOperandSize = true ↔ 0x66 ∈ run
  otherAddressSize : p.otherAddressSize = true ↔ 0x67 ∈ run
  rep : p.rep = (lastIn repeatGroup run).bind repeat?
  segment : p.segment = (lastIn (segmentGroup width) run).bind segmentOverride?
  rex : p.rex = (lastRex width run).map Rex.mk

namespace Prefixes.SaidBy

variable {p p' : Prefixes} {width : CodeWidth} {run run' : List UInt8}

theorem nil (width : CodeWidth) : ({} : Prefixes).SaidBy width [] := by
  refine ⟨?_, ?_, ?_, rfl, rfl, rfl⟩ <;> simp

/-- One more prefix says what its group and nothing else asks for. -/
theorem snoc (h : p.SaidBy width run) {b : UInt8} (hb : PrefixByte width b) :
    (p.apply width b).SaidBy width (run ++ [b]) := by
  have hflag (x : Bool) (c : UInt8) (hx : x = true ↔ c ∈ run) :
      (x || b == c) = true ↔ c ∈ run ++ [b] := by
    rw [Bool.or_eq_true, hx, beq_iff_eq, List.mem_append, List.mem_singleton, eq_comm (a := c)]
  rw [apply_eq p hb]
  refine ⟨hflag _ _ h.lock, hflag _ _ h.otherOperandSize, hflag _ _ h.otherAddressSize, ?_, ?_, ?_⟩
  · dsimp only
    rw [lastIn_snoc, h.rep]
    split_ifs <;> rfl
  · dsimp only
    rw [lastIn_snoc, h.segment]
    split_ifs <;> rfl
  · dsimp only
    rw [lastRex_snoc]
    split_ifs <;> rfl

/-- **What a run of prefixes says**, by induction from its end. -/
theorem foldl (hrun : ∀ b ∈ run, PrefixByte width b) :
    (run.foldl (Prefixes.apply width) {}).SaidBy width run := by
  induction run using List.reverseRecOn with
  | nil => exact nil width
  | append_singleton run b ih =>
    rw [List.foldl_append]
    exact (ih fun c hc => hrun c (List.mem_append_left _ hc)).snoc
      (hrun b (List.mem_append_right _ (List.mem_singleton_self b)))

end Prefixes.SaidBy

/-- The groups of prefixes of which the last one counts. -/
def prefixGroups (width : CodeWidth) : List (List UInt8) :=
  [[0xF0], [0x66], [0x67], repeatGroup, segmentGroup width]

/-- Two runs agree in the last prefix of each group and in the REX prefix before the opcode. -/
def SameLast (width : CodeWidth) (run run' : List UInt8) : Prop :=
  (∀ group ∈ prefixGroups width, lastIn group run' = lastIn group run) ∧
    lastRex width run' = lastRex width run

theorem lastIn_singleton (c : UInt8) (run : List UInt8) :
    lastIn [c] run = if c ∈ run then some c else none := by
  induction run using List.reverseRecOn with
  | nil => rfl
  | append_singleton run b ih =>
    rw [lastIn_snoc, ih]
    by_cases hb : b = c
    · simp [hb]
    · simp [hb, Ne.symm hb]

theorem lastIn_singleton_eq_iff {c : UInt8} {run run' : List UInt8} :
    lastIn [c] run' = lastIn [c] run ↔ (c ∈ run' ↔ c ∈ run) := by
  rw [lastIn_singleton, lastIn_singleton]
  split_ifs <;> simp_all

/-- The members of a group that say different things are told apart by what they say. -/
theorem lastIn_bind_eq_iff {α : Type} {f : UInt8 → Option α} {group run run' : List UInt8}
    (hsome : ∀ b ∈ group, f b ≠ none) (hinj : ∀ b ∈ group, ∀ c ∈ group, f b = f c → b = c) :
    (lastIn group run').bind f = (lastIn group run).bind f ↔
      lastIn group run' = lastIn group run := by
  refine ⟨fun h => ?_, fun h => by rw [h]⟩
  cases hb : lastIn group run' with
  | none =>
    cases hc : lastIn group run with
    | none => rfl
    | some c =>
      rw [hb, hc] at h
      exact absurd h.symm (hsome c (mem_of_lastIn hc))
  | some b =>
    cases hc : lastIn group run with
    | none =>
      rw [hb, hc] at h
      exact absurd h (hsome b (mem_of_lastIn hb))
    | some c =>
      rw [hb, hc] at h
      rw [hinj b (mem_of_lastIn hb) c (mem_of_lastIn hc) h]

/-- Runs add up to the same if and only if they agree in what comes last. -/
theorem Prefixes.SaidBy.eq_iff {p p' : Prefixes} {width : CodeWidth} {run run' : List UInt8}
    (h : p.SaidBy width run) (h' : p'.SaidBy width run') : p' = p ↔ SameLast width run run' := by
  have hrep : (lastIn repeatGroup run').bind repeat? = (lastIn repeatGroup run).bind repeat? ↔
      lastIn repeatGroup run' = lastIn repeatGroup run :=
    lastIn_bind_eq_iff (by simp [repeatGroup, repeat?]) (by simp [repeatGroup, repeat?])
  have hsegment : (lastIn (segmentGroup width) run').bind segmentOverride? =
        (lastIn (segmentGroup width) run).bind segmentOverride? ↔
      lastIn (segmentGroup width) run' = lastIn (segmentGroup width) run :=
    lastIn_bind_eq_iff (by cases width <;> simp [segmentGroup, segmentOverride?])
      (by cases width <;> simp [segmentGroup, segmentOverride?])
  have hrex : (lastRex width run').map Rex.mk = (lastRex width run).map Rex.mk ↔
      lastRex width run' = lastRex width run :=
    (Option.map_injective fun _ _ h => congrArg Rex.byte h).eq_iff
  simp only [SameLast, prefixGroups, List.forall_mem_cons, lastIn_singleton_eq_iff, ← hrep,
    ← hsegment, ← hrex, ← h.lock, ← h'.lock, ← h.otherOperandSize, ← h'.otherOperandSize,
    ← h.otherAddressSize, ← h'.otherAddressSize, ← h.rep, ← h'.rep, ← h.segment, ← h'.segment,
    ← h.rex, ← h'.rex, Bool.coe_iff_coe]
  obtain ⟨lock, rep, segment, operandSize, addressSize, rex⟩ := p
  obtain ⟨lock', rep', segment', operandSize', addressSize', rex'⟩ := p'
  rw [Prefixes.mk.injEq]
  constructor
  · rintro ⟨hlock, hrep, hsegment, hoperand, haddress, hrex⟩
    exact ⟨⟨hlock, hoperand, haddress, hrep, hsegment, List.forall_mem_nil _⟩, hrex⟩
  · rintro ⟨⟨hlock, hoperand, haddress, hrep, hsegment, -⟩, hrex⟩
    exact ⟨hlock, hrep, hsegment, hoperand, haddress, hrex⟩

/-! ## Instructions -/

/-- **The prefixes of an instruction.** They are the maximal leading run of prefix bytes, at most
    fourteen, and say what that run says. The same bytes behind any other run decode to the same
    instruction, up to its length, if and only if the runs agree in the last prefix of each group
    and in the REX prefix before the opcode, and the length limit is kept. -/
theorem decode_prefixes {width : CodeWidth} {bytes : List UInt8} {i : Instruction}
    (h : decode width bytes = .ok i) :
    ∃ run rest, bytes = run ++ rest ∧ run = bytes.takeWhile (PrefixByte width ·) ∧
      run.length ≤ 14 ∧ i.prefixes.SaidBy width run ∧
      ∀ run', (∀ b ∈ run', PrefixByte width b) →
        (decode width (run' ++ rest) =
            .ok { i with length := (run'.length + (i.length.toNat - run.length)).toUInt8 } ↔
          SameLast width run run' ∧
            run'.length + (i.length.toNat - run.length) ≤ maxInstructionLength) := by
  have hlimit := (length_bounds h).2.1
  rw [← takeWhile_isPrefixByte]
  obtain ⟨run, rest, rfl, hrun, hrest⟩ := exists_prefixes width bytes
  obtain ⟨l, t, hl, hlength, hprefixes, hlaid, hother⟩ := exists_layout hrun hrest h
  have hpos := hlaid.length_pos
  have hcode : i.length.toNat - run.length = l.bytes.length := by omega
  unfold maxInstructionLength at hlimit hother ⊢
  have hsaid : i.prefixes.SaidBy width run :=
    hprefixes ▸ .foldl fun b hb => (isPrefixByte_iff width b).1 (hrun b hb)
  refine ⟨run, rest, rfl, (takeWhile_prefixes hrun hrest).symm, by omega, hsaid,
    fun run' hrun' => ?_⟩
  have hrun'' : ∀ b ∈ run', isPrefixByte width b :=
    fun b hb => (isPrefixByte_iff width b).2 (hrun' b hb)
  rw [hcode, ← hsaid.eq_iff (.foldl hrun')]
  constructor
  · intro h'
    obtain ⟨l', -, -, hlength', hprefixes', hlaid', -⟩ := exists_layout hrun'' hrest h'
    have hlimit' := (length_bounds h').2.1
    refine ⟨hprefixes'.symm, ?_⟩
    -- The length is below the limit, so it is not cut off where it is stored.
    unfold maxInstructionLength at hlimit'
    rw [Nat.toUInt8, UInt8.toNat_ofNat'] at hlength' hlimit'
    omega
  · rintro ⟨hfold, hle⟩
    exact hother run' hrun'' hfold hle

/-- The same for a 64-bit load with overrides of both kinds, both repeat prefixes and a REX prefix.
    The override of CS has no effect, so it may go, and others may be repeated and moved. -/
theorem decode_prefixes_load :
    ∃ run run' rest i,
      run = [0x66, 0x64, 0x2E, 0xF3, 0xF2, 0x48] ∧
      run' = [0xF3, 0x65, 0x66, 0x66, 0x64, 0xF2, 0x48] ∧ rest = [0x8B, 0x03] ∧
      decode .bits64 (run ++ rest) = .ok i ∧ i.length = 8 ∧
      i.prefixes.SaidBy .bits64 run ∧
      decode .bits64 (run' ++ rest) = .ok { i with length := 9 } ∧
      decode .bits64 (run ++ 0x66 :: rest) ≠ .ok { i with length := 9 } := by
  obtain ⟨run, hrun⟩ : ∃ run : List UInt8, run = [0x66, 0x64, 0x2E, 0xF3, 0xF2, 0x48] := ⟨_, rfl⟩
  obtain ⟨rest, hrest⟩ : ∃ rest : List UInt8, rest = [0x8B, 0x03] := ⟨_, rfl⟩
  obtain ⟨i, hi, hlength⟩ : ∃ i, decode .bits64 (run ++ rest) = .ok i ∧ i.length = 8 := by
    rw [hrun, hrest]
    exact ⟨_, rfl, rfl⟩
  obtain ⟨run₁, rest₁, hsplit, htake, -, hsaid, hother⟩ := decode_prefixes hi
  have hrun₁ : run₁ = run := by
    rw [htake, hrun, hrest]
    decide
  rw [hrun₁] at hsplit hsaid hother
  cases List.append_cancel_left hsplit
  rw [hlength, hrun] at hother
  refine ⟨run, _, rest, i, hrun, rfl, hrest, hi, hlength, hsaid, ?_, ?_⟩
  · exact (hother [0xF3, 0x65, 0x66, 0x66, 0x64, 0xF2, 0x48]
      (by simp [PrefixByte, legacyPrefixes])).2 ⟨by unfold SameLast; decide, by decide⟩
  · rw [← List.singleton_append, ← List.append_assoc, hrun]
    exact mt (hother [0x66, 0x64, 0x2E, 0xF3, 0xF2, 0x48, 0x66]
      (by simp [PrefixByte, legacyPrefixes])).1 fun h => absurd h.1.2 (by decide)

end X86Replay

import X86Replay.Instruction.Decode
import Mathlib.Data.List.TakeWhile
import Mathlib.Tactic.SplitIfs

/-!
# Decoding reads the bytes it returns

A reader takes a number of bytes off the front of its input, and what it answers depends on nothing
behind them. This is shown for readers first, where it composes, and then for whole instructions.

* `Scan.Reads`: what a reader takes, when it fails, and a condition on what it answers.
* `decode_take`, `decode_congr`, `length_bounds`: an instruction is decided by its own bytes, of
  which there are 1 to 15.
* `decode_append_error`: an encoding that is undefined or too long stays so whatever follows.
* `length_lt_of_unexpectedEnd`, `le_length_of_tooLong`: fifteen bytes are always enough to decide,
  and no encoding is too long with fewer.
* `decode_take_error`, `decode_take_tooLong`: what the first bytes of an undecodable string decode
  to.
* `decode_selfDelimiting`: an encoding decides itself where it ends.
* `decode_encodable`: a memory operand has registers and a scale that an encoding can name.
* `decode_tabled`: operation and flags are those of the opcode maps.
-/

namespace X86Replay

/-! ## Readers -/

namespace Scan

variable {α β : Type} {f : Scan α}

/-- A reader that takes a number of bytes off its input, looks at no others, and gives up only at
    the end of the input or past the length limit. Its answer and the position behind it satisfy
    `P`. -/
structure Reads (f : Scan α) (P : α → Nat → Prop) : Prop where
  answers : ∀ {c a c'}, f c = .ok (a, c') → P a c'.pos
  takes : ∀ {c a c'}, f c = .ok (a, c') → ∃ used, c.rest = used ++ c'.rest ∧
    c'.pos = c.pos + used.length ∧ ∀ t, f ⟨used ++ t, c.pos⟩ = .ok (a, ⟨t, c'.pos⟩)
  fails : ∀ {c e}, f c = .error e → e ≠ .unexpectedEnd →
    ∀ t, f ⟨c.rest ++ t, c.pos⟩ = .error e
  starves : ∀ {c}, f c = .error .unexpectedEnd → c.pos + c.rest.length < maxInstructionLength
  overruns : ∀ {c}, f c = .error .tooLong → maxInstructionLength ≤ c.pos + c.rest.length
  stays : ∀ {c a c'}, f c = .ok (a, c') → c'.pos = c.pos ∨ c'.pos ≤ maxInstructionLength

theorem bind_ok {g : α → Scan β} {c c' : Cursor} {b : β} :
    (f >>= g) c = .ok (b, c') ↔ ∃ a c₁, f c = .ok (a, c₁) ∧ g a c₁ = .ok (b, c') := by
  show (f c >>= fun p => g p.1 p.2) = _ ↔ _
  cases f c with
  | error e => simp [bind, Except.bind]
  | ok p =>
    constructor
    · exact fun h => ⟨p.1, p.2, rfl, h⟩
    · rintro ⟨a, c₁, ⟨⟩, h⟩
      exact h

theorem bind_error {g : α → Scan β} {c : Cursor} {e : DecodeError} :
    (f >>= g) c = .error e ↔ f c = .error e ∨ ∃ a c₁, f c = .ok (a, c₁) ∧ g a c₁ = .error e := by
  show (f c >>= fun p => g p.1 p.2) = _ ↔ _
  cases f c with
  | error e => simp [bind, Except.bind]
  | ok p =>
    constructor
    · exact fun h => .inr ⟨p.1, p.2, rfl, h⟩
    · rintro (h | ⟨a, c₁, ⟨⟩, h⟩)
      · cases h
      · exact h

namespace Reads

theorem weaken {P Q : α → Nat → Prop} (hf : Reads f P) (h : ∀ a n, P a n → Q a n) :
    Reads f Q where
  answers hok := h _ _ (hf.answers hok)
  takes := hf.takes
  fails := hf.fails
  starves := hf.starves
  overruns := hf.overruns
  stays := hf.stays

theorem forget {P : α → Nat → Prop} (hf : Reads f P) : Reads f fun _ _ => True :=
  hf.weaken fun _ _ _ => trivial

/-- An answer that looks at nothing but the position. -/
theorem position {g : Cursor → α} (hg : ∀ c c' : Cursor, c.pos = c'.pos → g c = g c') :
    Reads (do return g (← get)) fun a n => ∃ c : Cursor, c.pos = n ∧ a = g c where
  answers h := by cases h; exact ⟨_, rfl, rfl⟩
  takes {c _ _} h := by
    cases h
    refine ⟨[], rfl, rfl, fun t => ?_⟩
    show Except.ok (g ⟨t, c.pos⟩, _) = _
    rw [hg ⟨t, c.pos⟩ c rfl]
    rfl
  fails h := by cases h
  starves h := by cases h
  overruns h := by cases h
  stays h := by cases h; exact .inl rfl

theorem pure (a : α) : Reads (pure a : Scan α) fun b _ => b = a :=
  (position (g := fun _ => a) fun _ _ _ => rfl).weaken fun _ _ ⟨_, _, h⟩ => h

theorem throw_invalid {P : α → Nat → Prop} : Reads (throw .invalid : Scan α) P where
  answers h := by cases h
  takes h := by cases h
  fails h _ _ := by cases h; rfl
  starves h := by cases h
  overruns h := by cases h
  stays h := by cases h

/-- Readers one after the other. -/
theorem bind {g : α → Scan β} {P : α → Nat → Prop} {Q : β → Nat → Prop} (hf : Reads f P)
    (hg : ∀ a n, P a n → Reads (g a) Q) : Reads (f >>= g) Q where
  answers h := by
    obtain ⟨a, c₁, ha, hb⟩ := bind_ok.1 h
    exact (hg a _ (hf.answers ha)).answers hb
  takes {c _ _} h := by
    obtain ⟨a, c₁, ha, hb⟩ := bind_ok.1 h
    obtain ⟨u₁, hr₁, hp₁, ht₁⟩ := hf.takes ha
    obtain ⟨u₂, hr₂, hp₂, ht₂⟩ := (hg a _ (hf.answers ha)).takes hb
    refine ⟨u₁ ++ u₂, by rw [hr₁, hr₂, List.append_assoc], ?_, fun t => ?_⟩
    · rw [hp₂, hp₁, List.length_append, Nat.add_assoc]
    · rw [List.append_assoc]
      exact bind_ok.2 ⟨a, _, ht₁ (u₂ ++ t), ht₂ t⟩
  -- A failure is one of the first reader, or of the second one behind what the first has taken.
  fails h he t := by
    obtain ha | ⟨a, c₁, ha, hb⟩ := bind_error.1 h
    · exact bind_error.2 (.inl (hf.fails ha he t))
    · obtain ⟨u, hr, -, ht⟩ := hf.takes ha
      refine bind_error.2 (.inr ⟨a, _, ?_, (hg a _ (hf.answers ha)).fails hb he t⟩)
      rw [hr, List.append_assoc]
      exact ht _
  starves h := by
    obtain ha | ⟨a, c₁, ha, hb⟩ := bind_error.1 h
    · exact hf.starves ha
    · obtain ⟨u, hr, hp, -⟩ := hf.takes ha
      have := (hg a _ (hf.answers ha)).starves hb
      rw [hr, List.length_append]
      omega
  overruns h := by
    obtain ha | ⟨a, c₁, ha, hb⟩ := bind_error.1 h
    · exact hf.overruns ha
    · obtain ⟨u, hr, hp, -⟩ := hf.takes ha
      have := (hg a _ (hf.answers ha)).overruns hb
      rw [hr, List.length_append]
      omega
  stays h := by
    obtain ⟨a, c₁, ha, hb⟩ := bind_ok.1 h
    have := hf.stays ha
    have := (hg a _ (hf.answers ha)).stays hb
    omega

theorem map (g : α → β) {P : α → Nat → Prop} (hf : Reads f P) :
    Reads (g <$> f) fun b _ => ∃ a n, P a n ∧ b = g a := by
  rw [show g <$> f = f >>= fun a => Pure.pure (g a) from (bind_pure_comp g f).symm]
  exact hf.bind fun a n ha => (pure (g a)).weaken fun b _ hb => ⟨a, n, ha, hb⟩

end Reads

theorem reads_byte : Reads byte fun _ _ => True where
  answers _ := trivial
  takes {c _ _} h := by
    obtain ⟨_ | ⟨b, rest⟩, pos⟩ := c
    · unfold byte at h
      split at h <;> cases h
    · unfold byte at h
      split at h
      · cases h
      · cases h
        exact ⟨[_], rfl, rfl, fun t => if_neg ‹_›⟩
  fails {c e} h he t := by
    unfold byte at h ⊢
    split at h
    · rw [← h]
      exact if_pos ‹_›
    · split at h
      · cases h
        exact absurd rfl he
      · cases h
  starves {c} h := by
    unfold byte at h
    split at h
    · cases h
    · split at h
      · rename_i hpos _ hrest
        rw [hrest]
        exact Nat.lt_of_not_le hpos
      · cases h
  overruns {c} h := by
    unfold byte at h
    split at h
    · rename_i hpos
      exact Nat.le_add_right_of_le hpos
    · split at h <;> cases h
  stays {c _ _} h := by
    unfold byte at h
    split at h
    · cases h
    · split at h
      · cases h
      · cases h
        exact .inr (Nat.lt_of_not_le ‹_›)

theorem reads_word (n : Nat) : Reads (word n) fun _ _ => True := by
  induction n with
  | zero => exact (Reads.pure 0).forget
  | succ n ih => exact reads_byte.bind fun _ _ _ => ih.bind fun _ _ _ => (Reads.pure _).forget

theorem reads_signed (s : OperandSize) : Reads (signed s) fun _ _ => True :=
  (reads_word _).bind fun _ _ _ => (Reads.pure _).forget

end Scan

/-! ## Registers of an address -/

/-- The registers and the scale of a memory operand are those that an encoding can name. -/
structure MemoryOperand.Encodable (m : MemoryOperand) : Prop where
  base : ∀ r ∈ m.base, r.toNat < 16
  index : ∀ r ∈ m.index, r.toNat < 16
  scale : m.scale = 1 ∨ m.scale = 2 ∨ m.scale = 4 ∨ m.scale = 8

theorem toNat_and_seven_lt (b : UInt8) : (b &&& 7).toNat < 8 := by
  rw [UInt8.toNat_and]
  exact Nat.and_lt_two_pow _ (by decide : (7 : UInt8).toNat < 2 ^ 3)

theorem Prefixes.toNat_extend_lt (p : Prefixes) (f : Rex → Bool) {n : UInt8} (h : n.toNat < 8) :
    (p.extend f n).toNat < 16 := by
  rw [Prefixes.extend, UInt8.toNat_or]
  refine Nat.or_lt_two_pow (n := 4) (by omega) ?_
  split_ifs <;> decide

theorem scale_of_sib (sib : UInt8) :
    (1 : UInt8) <<< (sib >>> 6) = 1 ∨ (1 : UInt8) <<< (sib >>> 6) = 2 ∨
      (1 : UInt8) <<< (sib >>> 6) = 4 ∨ (1 : UInt8) <<< (sib >>> 6) = 8 := by
  have h : (sib >>> 6).toNat < 4 := by
    have := sib.toNat_lt
    rw [UInt8.toNat_shiftRight, Nat.shiftRight_eq_div_pow]
    show sib.toNat / 64 < 4
    omega
  obtain h | h | h | h : sib >>> 6 = 0 ∨ sib >>> 6 = 1 ∨ sib >>> 6 = 2 ∨ sib >>> 6 = 3 := by
    simp only [← UInt8.toNat_inj]
    show (sib >>> 6).toNat = 0 ∨ (sib >>> 6).toNat = 1 ∨ (sib >>> 6).toNat = 2 ∨
      (sib >>> 6).toNat = 3
    omega
  all_goals rw [h]; decide

/-! ## Parts of an encoding -/

theorem reads_scanOpcode : Scan.Reads scanOpcode fun _ _ => True := by
  have hbyte (m : OpcodeMap) : Scan.Reads (do return (m, ← Scan.byte)) fun _ _ => True :=
    Scan.reads_byte.bind fun _ _ _ => (Scan.Reads.pure _).forget
  refine Scan.reads_byte.bind fun b _ _ => ?_
  split_ifs
  · exact (Scan.Reads.pure _).forget
  · refine Scan.reads_byte.bind fun b _ _ => ?_
    split
    · exact hbyte .escape38
    · exact hbyte .escape3A
    · exact (Scan.Reads.pure _).forget

theorem encodable_16 {base : UInt8} {index : Option UInt8} {rm : UInt8}
    (h : registers16 rm = (base, index)) : base.toNat < 16 ∧ ∀ r ∈ index, r.toNat < 16 := by
  unfold registers16 at h
  split at h <;> cases h <;> simp

theorem reads_scanMemory16 (p : Prefixes) (m : ModRM) :
    Scan.Reads (scanMemory16 p m) fun o _ => o.Encodable := by
  unfold scanMemory16
  split_ifs
  · refine (Scan.reads_signed _).bind fun d _ _ => (Scan.Reads.pure _).weaken ?_
    rintro _ _ rfl
    exact ⟨by simp, by simp, .inl rfl⟩
  · split
    rename_i base index hregs
    obtain ⟨hbase, hindex⟩ := encodable_16 hregs
    extract_lets jp
    have hjp (d : Int64) : Scan.Reads (jp d) fun o _ => o.Encodable := by
      refine (Scan.Reads.pure _).weaken ?_
      rintro _ _ rfl
      exact ⟨by simpa using hbase, by simpa using hindex, .inl rfl⟩
    split
    · exact (Scan.reads_signed _).bind fun d _ _ => hjp d
    · exact (Scan.reads_signed _).bind fun d _ _ => hjp d
    · exact (Scan.Reads.pure 0).bind fun d _ _ => hjp d

theorem reads_scanRegisters32 (p : Prefixes) {m : ModRM} (hm : m.rm.toNat < 8) :
    Scan.Reads (scanRegisters32 p m) fun o _ =>
      (∀ r ∈ o.1, r.toNat < 16) ∧ (∀ r ∈ o.2.1, r.toNat < 16) ∧
        (o.2.2 = 1 ∨ o.2.2 = 2 ∨ o.2.2 = 4 ∨ o.2.2 = 8) := by
  unfold scanRegisters32
  split
  · refine Scan.reads_byte.bind fun sib _ _ => (Scan.Reads.pure _).weaken ?_
    rintro _ _ rfl
    refine ⟨fun r hr => ?_, fun r hr => ?_, scale_of_sib sib⟩
    · dsimp only at hr
      split_ifs at hr <;> cases hr
      exact p.toNat_extend_lt _ (toNat_and_seven_lt _)
    · dsimp only at hr
      split_ifs at hr <;> cases hr
      exact p.toNat_extend_lt _ (toNat_and_seven_lt _)
  · refine (Scan.Reads.pure _).weaken ?_
    rintro _ _ rfl
    refine ⟨fun r hr => ?_, by simp, .inl rfl⟩
    dsimp only at hr
    split_ifs at hr <;> cases hr
    exact p.toNat_extend_lt _ hm

theorem reads_scanMemory32 (width : CodeWidth) (p : Prefixes) {m : ModRM}
    (hm : m.rm.toNat < 8) :
    Scan.Reads (scanMemory32 width p m) fun o _ => o.Encodable := by
  refine (reads_scanRegisters32 p hm).bind fun o _ ho => ?_
  obtain ⟨base, index, scale⟩ := o
  obtain ⟨hbase, hindex, hscale⟩ := ho
  dsimp -zeta -zetaHave only
  extract_lets ripRelative stackBased jp
  have hjp (d : Int64) : Scan.Reads (jp d) fun o _ => o.Encodable := by
    refine (Scan.Reads.pure _).weaken ?_
    rintro _ _ rfl
    exact ⟨hbase, hindex, hscale⟩
  split
  · exact (Scan.reads_signed _).bind fun d _ _ => hjp d
  · exact (Scan.reads_signed _).bind fun d _ _ => hjp d
  · split_ifs
    · exact (Scan.reads_signed _).bind fun d _ _ => hjp d
    · exact (Scan.Reads.pure 0).bind fun d _ _ => hjp d

theorem reads_scanRm (width : CodeWidth) (p : Prefixes) (size : AddressSize) (map : OpcodeMap)
    (opcode : UInt8) {m : ModRM} (hm : m.rm.toNat < 8) :
    Scan.Reads (scanRm width p size map opcode m) fun o _ =>
      ∀ mem, o = .mem mem → mem.Encodable := by
  unfold scanRm
  split_ifs
  · refine (Scan.Reads.pure _).weaken ?_
    rintro _ _ rfl _ ⟨⟩
  · have hmem {f : Scan MemoryOperand} (hf : Scan.Reads f fun o _ => o.Encodable) :
        Scan.Reads (do return .mem (← f)) fun (o : RmOperand) _ =>
          ∀ mem, o = .mem mem → mem.Encodable := by
      refine hf.bind fun o _ ho => (Scan.Reads.pure _).weaken ?_
      rintro _ _ rfl _ ⟨⟩
      exact ho
    split
    · exact hmem (reads_scanMemory16 p m)
    · exact hmem (reads_scanMemory32 width p hm)
    · exact hmem (reads_scanMemory32 width p hm)

/-! ## Instructions -/

theorem reads_modRM : Scan.Reads (some <$> ModRM.ofByte <$> Scan.byte) fun o _ =>
    o.isSome = true ∧ ∀ m ∈ o, m.reg.toNat < 8 ∧ m.rm.toNat < 8 := by
  refine ((Scan.reads_byte.map _).map _).weaken ?_
  rintro _ _ ⟨_, _, ⟨b, _, -, rfl⟩, rfl⟩
  refine ⟨rfl, ?_⟩
  rintro _ ⟨⟩
  exact ⟨toNat_and_seven_lt (b >>> 3), toNat_and_seven_lt b⟩

/-- The operation of an opcode and the flags it adds, given ModRM.reg. -/
def OpcodeEntry.resolve (e : OpcodeEntry) (opcode reg : UInt8) : Operation × OpcodeFlags :=
  if e.flags.group then resolveGroup e.operation opcode reg else (e.operation, {})

/-- Operation and flags of the instruction are those that the opcode maps give for its opcode. -/
structure Instruction.Tabled (i : Instruction) : Prop where
  operation : i.operation =
    if i.map = .primary ∧ i.opcode = 0x90 ∧ i.prefixes.rexBit Rex.b then .unsupported
    else ((i.map.entry i.opcode).resolve i.opcode i.modReg).1
  flags : i.flags =
    (i.map.entry i.opcode).flags.union ((i.map.entry i.opcode).resolve i.opcode i.modReg).2
  valid : ((i.map.entry i.opcode).resolve i.opcode i.modReg).1 ≠ .invalid
  modReg_lt : i.modReg.toNat < 8
  rm_isSome : i.rm.isSome = (i.map.entry i.opcode).flags.modRM

/-- What is known of a scanned instruction whose last byte is before position `n`. -/
structure Instruction.ScannedTo (i : Instruction) (n : Nat) : Prop where
  length : i.length = n.toUInt8
  encodable : ∀ m, i.rm = some (.mem m) → m.Encodable
  tabled : i.Tabled

theorem reads_scanInstruction (width : CodeWidth) (p : Prefixes) :
    Scan.Reads (scanInstruction width p) Instruction.ScannedTo := by
  refine reads_scanOpcode.bind fun o _ _ => ?_
  obtain ⟨map, opcode⟩ := o
  dsimp -zeta -zetaHave only
  extract_lets entry addressSize afterModRM afterOpcode
  have hinvalid (f : PUnit → Scan Instruction) :
      Scan.Reads (throw .invalid >>= f) Instruction.ScannedTo :=
    (Scan.Reads.throw_invalid (P := fun _ _ => False)).bind fun _ _ h => h.elim
  -- Each join point is shown to read for whatever its branches may hand it.
  have hmodRM (modRM : Option ModRM) (hsome : modRM.isSome = entry.flags.modRM)
      (hm : ∀ m ∈ modRM, m.reg.toNat < 8 ∧ m.rm.toNat < 8) :
      Scan.Reads (afterModRM modRM) Instruction.ScannedTo := by
    have hreg : (modRM.elim 0 ModRM.reg).toNat < 8 := by
      cases modRM with
      | none => decide
      | some m => exact (hm m rfl).1
    dsimp -zeta -zetaHave only [afterModRM]
    extract_lets reg flags operation operandSize afterRm afterGroup afterVector
    have hrm (hvalid : (entry.resolve opcode reg).1 ≠ .invalid) (rm : Option RmOperand)
        (hrmSome : rm.isSome = entry.flags.modRM) (h : ∀ m, rm = some (.mem m) → m.Encodable) :
        Scan.Reads (afterRm rm) Instruction.ScannedTo := by
      dsimp only [afterRm]
      split
      · refine (Scan.reads_word _).bind fun imm _ _ => (Scan.reads_word _).bind fun imm2 _ _ => ?_
        refine (Scan.Reads.position fun c c' hc => by rw [hc]).weaken ?_
        rintro _ _ ⟨c, rfl, rfl⟩
        exact ⟨rfl, h, rfl, rfl, hvalid, hreg, hrmSome⟩
      · exact hinvalid _
    have hgroup (hvalid : (entry.resolve opcode reg).1 ≠ .invalid) :
        Scan.Reads (afterGroup ()) Instruction.ScannedTo := by
      dsimp only [afterGroup]
      split
      · rename_i m
        refine ((reads_scanRm width p addressSize map opcode (hm m rfl).2).map some).bind ?_
        rintro _ _ ⟨o, _, ho, rfl⟩
        exact hrm hvalid _ hsome fun m h => ho m (Option.some.inj h)
      · refine (Scan.Reads.pure none).bind ?_
        rintro _ _ rfl
        exact hrm hvalid none hsome fun _ h => by cases h
    split
    · exact hinvalid _
    · dsimp only [afterVector]
      split <;> split
      · exact hinvalid _
      · exact hgroup (by rwa [OpcodeEntry.resolve, if_pos ‹_›])
      · exact hinvalid _
      · exact hgroup (by rwa [OpcodeEntry.resolve, if_neg ‹_›])
  split
  · exact hinvalid _
  · dsimp only [afterOpcode]
    split
    · rename_i hflag
      exact reads_modRM.bind fun modRM _ hm => hmodRM modRM (hm.1.trans hflag.symm) hm.2
    · rename_i hflag
      refine (Scan.Reads.pure none).bind fun modRM _ hm => ?_
      subst hm
      exact hmodRM none (Bool.eq_false_iff.2 hflag).symm (by simp)

/-- An instruction needs at least one byte after its prefixes. -/
theorem scanInstruction_nil (width : CodeWidth) (p : Prefixes) (pos : Nat)
    (r : Instruction × Cursor) : scanInstruction width p ⟨[], pos⟩ ≠ .ok r := by
  intro h
  obtain ⟨_, _, h, -⟩ := Scan.bind_ok.1 h
  obtain ⟨_, _, h, -⟩ := Scan.bind_ok.1 h
  unfold Scan.byte at h
  split at h <;> cases h

/-- Past the length limit nothing is read. -/
theorem scanInstruction_late (width : CodeWidth) (p : Prefixes) {c : Cursor}
    (h : maxInstructionLength ≤ c.pos) : scanInstruction width p c = .error .tooLong := by
  have hbyte : Scan.byte c = .error .tooLong := if_pos h
  exact Scan.bind_error.2 (.inl (Scan.bind_error.2 (.inl hbyte)))

/-- Before the length limit an instruction without bytes lacks its opcode. -/
theorem scanInstruction_early (width : CodeWidth) (p : Prefixes) {pos : Nat}
    (h : pos < maxInstructionLength) :
    scanInstruction width p ⟨[], pos⟩ = .error .unexpectedEnd := by
  have hbyte : Scan.byte ⟨[], pos⟩ = .error .unexpectedEnd := if_neg (Nat.not_le.2 h)
  exact Scan.bind_error.2 (.inl (Scan.bind_error.2 (.inl hbyte)))

/-- The run of prefixes ends at the first byte that is none. -/
theorem takeWhile_prefixes {width : CodeWidth} {pre rest : List UInt8}
    (hpre : ∀ b ∈ pre, isPrefixByte width b) (hrest : ∀ b ∈ rest.head?, ¬isPrefixByte width b) :
    (pre ++ rest).takeWhile (isPrefixByte width) = pre := by
  rw [List.takeWhile_append_of_pos hpre]
  cases rest with
  | nil => exact List.append_nil pre
  | cons b rest => rw [List.takeWhile_cons_of_neg (hrest b rfl), List.append_nil]

/-- The prefixes are not affected by what follows the first byte that is none. -/
theorem scanPrefixes_append (width : CodeWidth) {pre rest : List UInt8}
    (hpre : ∀ b ∈ pre, isPrefixByte width b) (hrest : ∀ b ∈ rest.head?, ¬isPrefixByte width b) :
    scanPrefixes width (pre ++ rest) =
      (pre.foldl (Prefixes.apply width) {}, ⟨rest, pre.length⟩) := by
  have hdrop : rest.dropWhile (isPrefixByte width) = rest := by
    cases rest with
    | nil => rfl
    | cons b rest => exact List.dropWhile_cons_of_neg (hrest b rfl)
  unfold scanPrefixes
  rw [takeWhile_prefixes hpre hrest, List.dropWhile_append_of_pos hpre, hdrop]

/-- Any bytes are prefixes and a rest that starts with none. -/
theorem exists_prefixes (width : CodeWidth) (bytes : List UInt8) :
    ∃ pre rest, bytes = pre ++ rest ∧ (∀ b ∈ pre, isPrefixByte width b) ∧
      ∀ b ∈ rest.head?, ¬isPrefixByte width b := by
  refine ⟨_, _, (List.takeWhile_append_dropWhile (p := isPrefixByte width)).symm,
    fun b hb => List.mem_takeWhile_imp hb, fun b hb => ?_⟩
  have h := List.head?_dropWhile_not (isPrefixByte width) bytes
  rw [Option.mem_def.1 hb] at h
  simpa using h

theorem decode_append (width : CodeWidth) {pre rest : List UInt8}
    (hpre : ∀ b ∈ pre, isPrefixByte width b) (hrest : ∀ b ∈ rest.head?, ¬isPrefixByte width b) :
    decode width (pre ++ rest) =
      (scanInstruction width (pre.foldl (Prefixes.apply width) {})).run' ⟨rest, pre.length⟩ := by
  unfold decode
  rw [scanPrefixes_append width hpre hrest]

theorem decode_ok_iff {width : CodeWidth} {pre rest : List UInt8} {i : Instruction}
    (hpre : ∀ b ∈ pre, isPrefixByte width b) (hrest : ∀ b ∈ rest.head?, ¬isPrefixByte width b) :
    decode width (pre ++ rest) = .ok i ↔
      ∃ c, scanInstruction width (pre.foldl (Prefixes.apply width) {}) ⟨rest, pre.length⟩ =
        .ok (i, c) := by
  rw [decode_append width hpre hrest]
  show (scanInstruction _ _ _).map Prod.fst = _ ↔ _
  cases scanInstruction width (pre.foldl (Prefixes.apply width) {}) ⟨rest, pre.length⟩ with
  | error e =>
    constructor
    · rintro ⟨⟩
    · rintro ⟨_, ⟨⟩⟩
  | ok r =>
    constructor
    · rintro ⟨⟩
      exact ⟨r.2, rfl⟩
    · rintro ⟨c, ⟨⟩⟩
      rfl

/-- **An instruction is decided by its own bytes.** -/
theorem decode_ok {width : CodeWidth} {bytes : List UInt8} {i : Instruction}
    (h : decode width bytes = .ok i) :
    ∃ used rest, bytes = used ++ rest ∧ used.length = i.length.toNat ∧ 0 < used.length ∧
      used.length ≤ maxInstructionLength ∧ (∀ t, decode width (used ++ t) = .ok i) ∧
      ∃ n, i.ScannedTo n := by
  obtain ⟨pre, rest, rfl, hpre, hrest⟩ := exists_prefixes width bytes
  obtain ⟨c, hscan⟩ := (decode_ok_iff hpre hrest).1 h
  have hreads := reads_scanInstruction width (pre.foldl (Prefixes.apply width) {})
  obtain ⟨used, hused, hpos, happend⟩ := hreads.takes hscan
  have hscanned := hreads.answers hscan
  dsimp only at hused hpos happend
  subst hused
  have hne : used ≠ [] := by
    rintro rfl
    exact scanInstruction_nil _ _ _ _ (happend [])
  have hlength : 0 < used.length := List.length_pos_iff.2 hne
  have hlimit : c.pos ≤ maxInstructionLength := by
    have hstays := hreads.stays hscan
    dsimp only at hstays
    omega
  have hhead (t : List UInt8) : (used ++ t).head? = used.head? := by
    obtain ⟨b, l, rfl⟩ := List.exists_cons_of_ne_nil hne
    rfl
  refine ⟨pre ++ used, c.rest, by rw [List.append_assoc], ?_, ?_, ?_, fun t => ?_, _, hscanned⟩
  · rw [hscanned.length, Nat.toUInt8, UInt8.toNat_ofNat', List.length_append, ← hpos]
    unfold maxInstructionLength at hlimit
    omega
  · rw [List.length_append]
    omega
  · rw [List.length_append, ← hpos]
    exact hlimit
  · rw [hhead] at hrest
    rw [List.append_assoc, decode_ok_iff hpre (by rwa [hhead])]
    exact ⟨_, happend t⟩

theorem decode_error_iff {width : CodeWidth} {pre rest : List UInt8} {e : DecodeError}
    (hpre : ∀ b ∈ pre, isPrefixByte width b) (hrest : ∀ b ∈ rest.head?, ¬isPrefixByte width b) :
    decode width (pre ++ rest) = .error e ↔
      scanInstruction width (pre.foldl (Prefixes.apply width) {}) ⟨rest, pre.length⟩ =
        .error e := by
  rw [decode_append width hpre hrest]
  show (scanInstruction _ _ _).map Prod.fst = _ ↔ _
  cases scanInstruction width (pre.foldl (Prefixes.apply width) {}) ⟨rest, pre.length⟩ with
  | error e =>
    constructor
    · rintro ⟨⟩
      rfl
    · rintro ⟨⟩
      rfl
  | ok r => constructor <;> rintro ⟨⟩

/-- Fifteen bytes are enough to decide. -/
theorem length_lt_of_unexpectedEnd {width : CodeWidth} {bytes : List UInt8}
    (h : decode width bytes = .error .unexpectedEnd) : bytes.length < maxInstructionLength := by
  obtain ⟨pre, rest, rfl, hpre, hrest⟩ := exists_prefixes width bytes
  rw [decode_error_iff hpre hrest] at h
  rw [List.length_append]
  exact (reads_scanInstruction _ _).starves h

/-- An encoding that is too long has at least fifteen bytes. -/
theorem le_length_of_tooLong {width : CodeWidth} {bytes : List UInt8}
    (h : decode width bytes = .error .tooLong) : maxInstructionLength ≤ bytes.length := by
  obtain ⟨pre, rest, rfl, hpre, hrest⟩ := exists_prefixes width bytes
  rw [decode_error_iff hpre hrest] at h
  rw [List.length_append]
  exact (reads_scanInstruction _ _).overruns h

/-- **An encoding that is undefined or too long stays so whatever follows.** -/
theorem decode_append_error {width : CodeWidth} {bytes : List UInt8} {e : DecodeError}
    (h : decode width bytes = .error e) (he : e ≠ .unexpectedEnd) (t : List UInt8) :
    decode width (bytes ++ t) = .error e := by
  obtain ⟨pre, rest, rfl, hpre, hrest⟩ := exists_prefixes width bytes
  rw [decode_error_iff hpre hrest] at h
  cases rest with
  | cons b rest =>
    rw [List.append_assoc, decode_error_iff hpre (by exact hrest)]
    exact (reads_scanInstruction _ _).fails h he t
  | nil =>
    -- Only prefixes so far, and too many of them; more may follow.
    have hlate : maxInstructionLength ≤ pre.length := by
      by_contra hlt
      rw [scanInstruction_early _ _ (Nat.lt_of_not_le hlt)] at h
      cases h
      exact he rfl
    rw [scanInstruction_late _ _ hlate] at h
    cases h
    obtain ⟨pre', rest', rfl, hpre', hrest'⟩ := exists_prefixes width t
    rw [List.append_nil, ← List.append_assoc, decode_error_iff _ hrest']
    · refine scanInstruction_late _ _ ?_
      show _ ≤ (pre ++ pre').length
      rw [List.length_append]
      omega
    · intro b hb
      exact (List.mem_append.1 hb).elim (hpre b) (hpre' b)

/-! ## The bytes that decide -/

/-- The bytes of an instruction decode to it, whatever follows them. -/
theorem decode_take {width : CodeWidth} {bytes : List UInt8} {i : Instruction}
    (h : decode width bytes = .ok i) (t : List UInt8) :
    decode width (bytes.take i.length.toNat ++ t) = .ok i := by
  obtain ⟨used, rest, rfl, hlength, -, -, hdecode, -⟩ := decode_ok h
  rw [← hlength, List.take_left]
  exact hdecode t

/-- Bytes that agree with those of an instruction decode to it. -/
theorem decode_congr {width : CodeWidth} {bytes bytes' : List UInt8} {i : Instruction}
    (h : decode width bytes = .ok i)
    (hbytes : bytes'.take i.length.toNat = bytes.take i.length.toNat) :
    decode width bytes' = .ok i := by
  rw [← List.take_append_drop i.length.toNat bytes', hbytes]
  exact decode_take h _

/-- An instruction has at least one byte and at most fifteen, all of them among those decoded. -/
theorem length_bounds {width : CodeWidth} {bytes : List UInt8} {i : Instruction}
    (h : decode width bytes = .ok i) :
    0 < i.length.toNat ∧ i.length.toNat ≤ maxInstructionLength ∧
      i.length.toNat ≤ bytes.length := by
  obtain ⟨used, rest, rfl, hlength, hpos, hlimit, -, -⟩ := decode_ok h
  rw [List.length_append]
  omega

/-- Bytes that decide do so whatever follows them. -/
theorem decode_append_of_decides {width : CodeWidth} {bytes : List UInt8}
    (h : decode width bytes ≠ .error .unexpectedEnd) (t : List UInt8) :
    decode width (bytes ++ t) = decode width bytes := by
  cases hdecode : decode width bytes with
  | ok i =>
    refine decode_congr hdecode ?_
    rw [List.take_append_of_le_length (length_bounds hdecode).2.2]
  | error e => exact decode_append_error hdecode (fun he => h (by rw [hdecode, he])) t

/-- Fewer bytes than those of an instruction end too early. -/
theorem decode_prefix_of_lt {width : CodeWidth} {bytes p : List UInt8} {i : Instruction}
    (h : decode width bytes = .ok i) (hp : p <+: bytes) (hlt : p.length < i.length.toNat) :
    decode width p = .error .unexpectedEnd := by
  obtain ⟨t, rfl⟩ := hp
  by_contra hdecides
  rw [decode_append_of_decides hdecides] at h
  have hlength := (length_bounds h).2.2
  omega

/-- A memory operand has registers and a scale that an encoding can name. -/
theorem decode_encodable {width : CodeWidth} {bytes : List UInt8} {i : Instruction}
    (h : decode width bytes = .ok i) {m : MemoryOperand} (hm : i.rm = some (.mem m)) :
    m.Encodable := by
  obtain ⟨_, _, -, -, -, -, -, _, hscanned⟩ := decode_ok h
  exact hscanned.encodable m hm

/-- An instruction has the operation and the flags of its opcode. -/
theorem decode_tabled {width : CodeWidth} {bytes : List UInt8} {i : Instruction}
    (h : decode width bytes = .ok i) : i.Tabled := by
  obtain ⟨_, _, -, -, -, -, -, _, hscanned⟩ := decode_ok h
  exact hscanned.tabled

/-- The first bytes of an undecodable string are undecodable. -/
theorem decode_take_error {width : CodeWidth} {bytes : List UInt8} {e : DecodeError}
    (h : decode width bytes = .error e) (n : Nat) :
    ∃ e', decode width (bytes.take n) = .error e' := by
  cases hd : decode width (bytes.take n) with
  | error e' => exact ⟨e', rfl⟩
  | ok i =>
    -- An instruction within the first bytes would be one of the whole string.
    have hi := (length_bounds hd).2.2
    rw [List.length_take] at hi
    have h' : decode width bytes = .ok i :=
      decode_congr hd (by rw [List.take_take, Nat.min_eq_left (by omega)])
    rw [h] at h'
    cases h'

/-- An encoding is too long as soon as its first fifteen bytes are there. -/
theorem decode_take_tooLong {width : CodeWidth} {bytes : List UInt8}
    (h : decode width bytes = .error .tooLong) :
    decode width (bytes.take maxInstructionLength) = .error .tooLong := by
  obtain ⟨e, he⟩ := decode_take_error h maxInstructionLength
  by_cases hend : e = .unexpectedEnd
  · subst hend
    have hlt := length_lt_of_unexpectedEnd he
    rw [List.length_take] at hlt
    rw [List.take_of_length_le (by omega), h] at he
    cases he
  · have h' := decode_append_error he hend (bytes.drop maxInstructionLength)
    rw [List.take_append_drop, h] at h'
    cases h'
    exact he

/-- **The encoding delimits itself.** Bytes that decide do so whatever follows them. The bytes of an
    instruction, of which there are 1 to 15, decide without those behind them, and no shorter prefix
    does. Only fewer than fifteen bytes can end too early, and only fifteen or more be too long. -/
theorem decode_selfDelimiting (width : CodeWidth) (bytes t : List UInt8) :
    (decode width bytes ≠ .error .unexpectedEnd →
      decode width (bytes ++ t) = decode width bytes) ∧
    (∀ i, decode width bytes = .ok i →
      1 ≤ i.length.toNat ∧ i.length.toNat ≤ min maxInstructionLength bytes.length ∧
      decode width (bytes.take i.length.toNat) = .ok i ∧
      ∀ p, p <+: bytes → p.length < i.length.toNat → decode width p = .error .unexpectedEnd) ∧
    (decode width bytes = .error .unexpectedEnd → bytes.length < maxInstructionLength) ∧
    (decode width bytes = .error .tooLong → maxInstructionLength ≤ bytes.length) := by
  refine ⟨fun h => decode_append_of_decides h t, ?_, length_lt_of_unexpectedEnd,
    le_length_of_tooLong⟩
  intro i h
  obtain ⟨hpos, hlimit, hbytes⟩ := length_bounds h
  have htake := decode_take h []
  rw [List.append_nil] at htake
  exact ⟨hpos, Nat.le_min.2 ⟨hlimit, hbytes⟩, htake, fun p hp => decode_prefix_of_lt h hp⟩

/-- The same for an addition of ten bytes, with a prefix, a SIB byte, a displacement and an
    immediate, and for fourteen and fifteen prefixes without an opcode. -/
theorem decode_selfDelimiting_add :
    ∃ bytes i, bytes = [0x66, 0x81, 0x84, 0x88, 0x44, 0x33, 0x22, 0x11, 0xCD, 0xAB] ∧
      decode .bits32 bytes = .ok i ∧ i.length = 10 ∧ decode .bits32 (bytes ++ [0x90]) = .ok i ∧
      (∀ p, p <+: bytes → p.length < 10 → decode .bits32 p = .error .unexpectedEnd) ∧
      decode .bits32 (List.replicate 14 0x66) = .error .unexpectedEnd ∧
      (List.replicate 14 (0x66 : UInt8)).length < maxInstructionLength ∧
      decode .bits32 (List.replicate 15 0x66) = .error .tooLong ∧
      maxInstructionLength ≤ (List.replicate 15 (0x66 : UInt8)).length := by
  obtain ⟨bytes, hbytes⟩ : ∃ bytes : List UInt8,
      bytes = [0x66, 0x81, 0x84, 0x88, 0x44, 0x33, 0x22, 0x11, 0xCD, 0xAB] := ⟨_, rfl⟩
  obtain ⟨i, hi, hlength⟩ : ∃ i, decode .bits32 bytes = .ok i ∧ i.length = 10 := by
    rw [hbytes]
    exact ⟨_, rfl, rfl⟩
  have hend : decode .bits32 (List.replicate 14 0x66) = .error .unexpectedEnd := rfl
  have hlong : decode .bits32 (List.replicate 15 0x66) = .error .tooLong := rfl
  obtain ⟨happend, hdelimits, -, -⟩ := decode_selfDelimiting .bits32 bytes [0x90]
  have hshort := (hdelimits i hi).2.2.2
  rw [hlength] at hshort
  refine ⟨bytes, i, hbytes, hi, hlength, ?_, hshort, hend, ?_, hlong, ?_⟩
  · rw [happend (by rw [hi]; rintro ⟨⟩), hi]
  · exact (decode_selfDelimiting .bits32 _ []).2.2.1 hend
  · exact (decode_selfDelimiting .bits32 _ []).2.2.2 hlong

end X86Replay

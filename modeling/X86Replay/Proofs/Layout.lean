import X86Replay.Proofs.LittleEndian
import X86Replay.Proofs.Locking

/-!
# The layout of an encoding

What an encoding looks like is written down here as a grammar, independently of the readers that
follow it: which bytes there are between the prefixes and the end, how long each part is, and which
field each part spells.

* `Scan.Follows`: a reader that takes strings of a grammar off its input, wherever they stand.
* `MemoryOperand.SpelledBy`, `OperandLayout`: the SIB byte and the displacement that belong to a
  ModRM byte, and the operand that the three name.
* `Layout`, `Instruction.LaidOut`: the parts of an encoding, and the instruction that they spell.
* `exists_layout`: the parts behind the prefixes spell the same instruction behind all prefixes that
  add up to the same.
* `decode_layout`: an instruction is laid out over its bytes.
-/

namespace X86Replay

/-! ## Readers of a grammar -/

namespace Scan

variable {α β γ : Type} {f : Scan α} {F : List UInt8 → α → Prop} {G : List UInt8 → β → Prop}

/-- A reader that takes a string off its input which the grammar `F` relates to its answer, and that
    would answer the same wherever this string stood within the length limit. -/
structure Follows (f : Scan α) (F : List UInt8 → α → Prop) : Prop where
  takes : ∀ {c a c'}, f c = .ok (a, c') → ∃ used, F used a ∧ c.rest = used ++ c'.rest ∧
    c'.pos = c.pos + used.length ∧
    ∀ pos t, pos + used.length ≤ maxInstructionLength →
      f ⟨used ++ t, pos⟩ = .ok (a, ⟨t, pos + used.length⟩)

theorem map_ok {φ : α → β} {c c' : Cursor} {b : β} :
    (φ <$> f) c = .ok (b, c') ↔ ∃ a, f c = .ok (a, c') ∧ φ a = b := by
  rw [← bind_pure_comp, bind_ok]
  constructor
  · rintro ⟨a, c₁, h, ⟨⟩⟩
    exact ⟨a, h, rfl⟩
  · rintro ⟨a, h, rfl⟩
    exact ⟨a, c', h, rfl⟩

namespace Follows

theorem pure {a : α} (h : F [] a) : Follows (pure a : Scan α) F where
  takes hok := by
    cases hok
    exact ⟨[], h, rfl, rfl, fun _ _ _ => rfl⟩

theorem weaken {F' : List UInt8 → α → Prop} (hf : Follows f F) (h : ∀ u a, F u a → F' u a) :
    Follows f F' where
  takes hok := by
    obtain ⟨used, hF, hused⟩ := hf.takes hok
    exact ⟨used, h _ _ hF, hused⟩

/-- An answer that forgets the position at which it is given. -/
theorem of_position {φ : α → β} {g : Cursor → α} (hg : ∀ c c', φ (g c) = φ (g c'))
    (h : ∀ c, G [] (φ (g c))) : Follows (φ <$> do return g (← get)) G where
  takes {c _ _} hok := by
    cases hok
    refine ⟨[], h c, rfl, rfl, fun pos t _ => ?_⟩
    show Except.ok (φ (g ⟨t, pos⟩), _) = Except.ok (φ (g c), _)
    rw [hg]
    rfl

/-- What is read second completes the string that was read first. -/
theorem bind {g : α → Scan β} (hf : Follows f F)
    (hg : ∀ u a, F u a → Follows (g a) fun v b => G (u ++ v) b) : Follows (f >>= g) G where
  takes {c b c'} hok := by
    obtain ⟨a, c₁, ha, hb⟩ := bind_ok.1 hok
    obtain ⟨u, hF, hu, hposu, hfar⟩ := hf.takes ha
    obtain ⟨v, hG, hv, hposv, hfarv⟩ := (hg u a hF).takes hb
    refine ⟨u ++ v, hG, by rw [hu, hv, List.append_assoc], ?_, fun pos t hlimit => ?_⟩
    · rw [hposv, hposu, List.length_append, Nat.add_assoc]
    · rw [List.length_append] at hlimit ⊢
      rw [List.append_assoc, ← Nat.add_assoc]
      exact bind_ok.2 ⟨a, _, hfar pos (v ++ t) (by omega), hfarv _ t (by omega)⟩

theorem map (φ : α → β) (hf : Follows f F) :
    Follows (φ <$> f) fun u b => ∃ a, F u a ∧ b = φ a := by
  rw [show φ <$> f = f >>= fun a => Pure.pure (φ a) from (bind_pure_comp φ f).symm]
  refine hf.bind fun u a hF => pure ⟨a, ?_, rfl⟩
  rwa [List.append_nil]

theorem map_of_bind {φ : β → γ} {g : α → Scan β} {H : List UInt8 → γ → Prop} (hf : Follows f F)
    (hg : ∀ u a, F u a → Follows (φ <$> g a) fun v b => H (u ++ v) b) :
    Follows (φ <$> (f >>= g)) H := by
  rw [map_bind]
  exact hf.bind hg

end Follows

theorem follows_byte : Follows byte fun used b => used = [b] where
  takes {c b c'} hok := by
    obtain ⟨_ | ⟨b', rest⟩, pos⟩ := c
    · unfold byte at hok
      split at hok <;> cases hok
    · unfold byte at hok
      split at hok
      · cases hok
      · cases hok
        refine ⟨[b], rfl, rfl, rfl, fun pos t hlimit => if_neg ?_⟩
        rw [List.length_singleton] at hlimit
        show ¬maxInstructionLength ≤ pos
        omega

theorem follows_word (n : Nat) :
    Follows (word n) fun used w => used.length = n ∧ w = wordOfBytes used := by
  induction n with
  | zero => exact .pure ⟨rfl, rfl⟩
  | succ n ih =>
    refine follows_byte.bind fun u b hu => ih.bind fun v w hv => .pure ?_
    obtain ⟨rfl, rfl⟩ := hv
    subst hu
    rw [List.append_nil]
    exact ⟨rfl, rfl⟩

theorem follows_signed (s : OperandSize) :
    Follows (signed s) fun used d => used.length = s.bytes ∧ d.toInt = signedValue used := by
  refine (follows_word s.bytes).bind fun u w hu => .pure ?_
  rw [List.append_nil, hu.2]
  exact ⟨hu.1, signed_wordOfBytes hu.1⟩

end Scan

/-! ## Opcodes -/

/-- The bytes before an opcode of a map. -/
def OpcodeMap.escape : OpcodeMap → List UInt8
  | .primary => []
  | .secondary => [0x0F]
  | .escape38 => [0x0F, 0x38]
  | .escape3A => [0x0F, 0x3A]

open Scan

theorem follows_scanOpcode : Follows scanOpcode fun used o => used = o.1.escape ++ [o.2] := by
  have hbyte (m : OpcodeMap) : Follows (do return (m, ← byte)) fun used o =>
      o.1 = m ∧ used = [o.2] :=
    follows_byte.bind fun u b hu => .pure ⟨rfl, by rw [hu]; rfl⟩
  refine follows_byte.bind fun u b hu => ?_
  subst hu
  split_ifs with hb
  · exact .pure rfl
  · rw [not_not] at hb
    subst hb
    refine follows_byte.bind fun u b hu => ?_
    subst hu
    split
    · exact (hbyte .escape38).weaken fun v o h => by rw [h.2, h.1]; rfl
    · exact (hbyte .escape3A).weaken fun v o h => by rw [h.2, h.1]; rfl
    · exact .pure rfl

/-! ## Operands -/

/-- The register number in the SIB byte, or without one in ModRM, that names the base. -/
def baseField (m : ModRM) (sib : Option UInt8) : UInt8 :=
  sib.elim m.rm (· &&& 7)

/-- Base, index and scale of a 32-bit or 64-bit address. Without a displacement by ModRM.mod, number
    5 is no base; number 4 is never an index. -/
def registers32 (p : Prefixes) (m : ModRM) (sib : Option UInt8) :
    Option UInt8 × Option UInt8 × UInt8 :=
  (if baseField m sib = 5 ∧ m.mode = 0 then none else some (p.extend Rex.b (baseField m sib)),
    sib.bind fun b =>
      let n := p.extend Rex.x ((b >>> 3) &&& 7)
      if n = 4 then none else some n,
    sib.elim 1 fun b => (1 : UInt8) <<< (b >>> 6))

theorem isNone_base_iff (p : Prefixes) (m : ModRM) (sib : Option UInt8) :
    (registers32 p m sib).1.isNone = true ↔ baseField m sib = 5 ∧ m.mode = 0 := by
  unfold registers32
  split_ifs with h
  · simp [h]
  · simp [h]

/-- The memory operand that ModRM, the SIB byte and a displacement name. -/
def MemoryOperand.ofFields (width : CodeWidth) (p : Prefixes) (size : AddressSize) (m : ModRM)
    (sib : Option UInt8) (displacement : Int64) : MemoryOperand :=
  match size with
  | .bits16 =>
    if m.mode = 0 ∧ m.rm = 6 then
      ⟨none, none, 1, displacement, false, p.segment.getD .ds⟩
    else
      let (base, index) := registers16 m.rm
      ⟨some base, index, 1, displacement, false, p.segment.getD (if base = 5 then .ss else .ds)⟩
  | .bits32 | .bits64 =>
    let (base, index, scale) := registers32 p m sib
    ⟨base, index, scale, displacement, width == .bits64 && m.rm == 5 && m.mode == 0,
      p.segment.getD (if base == some 4 || base == some 5 then .ss else .ds)⟩

/-- The number of displacement bytes that ModRM and the SIB byte ask for: one, or a full one of two
    or four bytes, which also stands for the base where there is none. -/
def displacementLength (size : AddressSize) (m : ModRM) (sib : Option UInt8) : Nat :=
  if m.mode = 1 then 1
  else if m.mode = 2 ∨ (m.mode = 0 ∧ baseField m sib = if size = .bits16 then 6 else 5) then
    if size = .bits16 then 2 else 4
  else 0

/-- The SIB byte and the displacement of a memory operand. -/
structure MemoryOperand.SpelledBy (o : MemoryOperand) (width : CodeWidth) (p : Prefixes)
    (size : AddressSize) (m : ModRM) (sib : Option UInt8) (bytes : List UInt8) : Prop where
  sib_iff : sib.isSome = true ↔ size ≠ .bits16 ∧ m.rm = 4
  length : bytes.length = displacementLength size m sib
  displacement : o.displacement.toInt = signedValue bytes
  operand : o = .ofFields width p size m sib o.displacement

theorem follows_scanMemory16 (width : CodeWidth) (p : Prefixes) (m : ModRM) :
    Follows (scanMemory16 p m) fun used o => o.SpelledBy width p .bits16 m none used := by
  have hsib : (none : Option UInt8).isSome = true ↔ AddressSize.bits16 ≠ .bits16 ∧ m.rm = 4 := by
    simp
  unfold scanMemory16
  split_ifs with hdirect
  · refine (follows_signed .bits16).bind fun u d hu => .pure ?_
    rw [List.append_nil]
    refine ⟨hsib, ?_, hu.2, ?_⟩
    · simp [hu.1, displacementLength, hdirect, baseField, OperandSize.bytes]
    · rw [MemoryOperand.ofFields, if_pos hdirect]
  · split
    rename_i base index hregs
    extract_lets jp
    have hjp (u : List UInt8) (d : Int64) (hlength : u.length = displacementLength .bits16 m none)
        (hvalue : d.toInt = signedValue u) :
        Follows (jp d) fun v o => o.SpelledBy width p .bits16 m none (u ++ v) := by
      refine .pure ?_
      rw [List.append_nil]
      refine ⟨hsib, hlength, hvalue, ?_⟩
      rw [MemoryOperand.ofFields, if_neg hdirect, hregs]
    split
    · rename_i hmode
      refine (follows_signed .bits8).bind fun u d hu => hjp u d ?_ hu.2
      simp [hu.1, displacementLength, hmode, OperandSize.bytes]
    · rename_i hmode
      refine (follows_signed .bits16).bind fun u d hu => hjp u d ?_ hu.2
      simp [hu.1, displacementLength, hmode, OperandSize.bytes]
    · rename_i hone htwo
      refine hjp [] 0 ?_ rfl
      rw [displacementLength, if_neg hone, if_neg]
      · rfl
      · rintro (h | ⟨hzero, hrm⟩)
        · exact htwo h
        · exact hdirect ⟨hzero, hrm⟩

theorem follows_scanRegisters32 (p : Prefixes) (m : ModRM) :
    Follows (scanRegisters32 p m) fun used o => ∃ sib : Option UInt8,
      (sib.isSome = true ↔ m.rm = 4) ∧ used = sib.toList ∧ o = registers32 p m sib := by
  unfold scanRegisters32
  split
  · rename_i hrm
    refine follows_byte.bind fun u b hu => .pure ⟨some b, by simp [hrm], ?_, rfl⟩
    rw [hu]
    rfl
  · rename_i hrm
    exact .pure ⟨none, by simp [hrm], rfl, rfl⟩

theorem follows_scanMemory32 (width : CodeWidth) (p : Prefixes) (m : ModRM) {size : AddressSize}
    (hsize : size ≠ .bits16) :
    Follows (scanMemory32 width p m) fun used o => ∃ (sib : Option UInt8) (bytes : List UInt8),
      used = sib.toList ++ bytes ∧ o.SpelledBy width p size m sib bytes := by
  refine (follows_scanRegisters32 p m).bind fun u o hu => ?_
  obtain ⟨sib, hsib, rfl, rfl⟩ := hu
  dsimp -zeta -zetaHave only
  extract_lets ripRelative stackBased jp
  have hjp (u : List UInt8) (d : Int64) (hlength : u.length = displacementLength size m sib)
      (hvalue : d.toInt = signedValue u) :
      Follows (jp d) fun v o => ∃ (sib' : Option UInt8) (bytes : List UInt8),
        sib.toList ++ (u ++ v) = sib'.toList ++ bytes ∧ o.SpelledBy width p size m sib' bytes := by
    refine .pure ⟨sib, u, by rw [List.append_nil], ?_, hlength, hvalue, ?_⟩
    · rw [hsib]
      exact ⟨fun h => ⟨hsize, h⟩, fun h => h.2⟩
    · cases size with
      | bits16 => exact absurd rfl hsize
      | bits32 => rfl
      | bits64 => rfl
  split
  · rename_i hmode
    refine (follows_signed .bits8).bind fun u d hu => hjp u d ?_ hu.2
    simp [hu.1, displacementLength, hmode, OperandSize.bytes]
  · rename_i hmode
    refine (follows_signed .bits32).bind fun u d hu => hjp u d ?_ hu.2
    simp [hu.1, displacementLength, hmode, hsize, OperandSize.bytes]
  · rename_i hone htwo
    split_ifs with hbase
    · obtain ⟨hfield, hzero⟩ := (isNone_base_iff p m sib).1 hbase
      refine (follows_signed .bits32).bind fun u d hu => hjp u d ?_ hu.2
      simp [hu.1, displacementLength, hfield, hzero, hsize, OperandSize.bytes]
    · rw [isNone_base_iff] at hbase
      refine hjp [] 0 ?_ rfl
      rw [displacementLength, if_neg hone, if_neg]
      · rfl
      · rw [if_neg hsize]
        rintro (h | ⟨hzero, hfield⟩)
        · exact htwo h
        · exact hbase ⟨hfield, hzero⟩

/-- Whether ModRM names a register: by ModRM.mod, or because the opcode moves a control or debug
    register. -/
def namesRegister (map : OpcodeMap) (opcode : UInt8) (m : ModRM) : Prop :=
  m.mode = 3 ∨ (map = .secondary ∧ 0x20 ≤ opcode ∧ opcode ≤ 0x23)

/-- Whether ModRM names memory. -/
def namesMemory (rm : Option RmOperand) : Bool :=
  rm.any fun o => !o.isReg

/-- A ModRM byte, if there is one, the operand that it names, and the SIB byte and the displacement
    that belong to it. -/
structure OperandLayout (width : CodeWidth) (p : Prefixes) (size : AddressSize) (map : OpcodeMap)
    (opcode : UInt8) (modRM : Option ModRM) (sib : Option UInt8) (displacement : List UInt8)
    (rm : Option RmOperand) : Prop where
  isSome_iff : rm.isSome = true ↔ modRM.isSome = true
  memory_iff : namesMemory rm = true ↔ ∃ m ∈ modRM, ¬namesRegister map opcode m
  sib_iff : sib.isSome = true ↔ namesMemory rm = true ∧ size ≠ .bits16 ∧ ∃ m ∈ modRM, m.rm = 4
  length : displacement.length =
    if namesMemory rm then modRM.elim 0 (displacementLength size · sib) else 0
  register : ∀ r, rm = some (.reg r) → ∃ m ∈ modRM, r = p.extend Rex.b m.rm
  memory : ∀ o, rm = some (.mem o) → o.displacement.toInt = signedValue displacement ∧
    ∃ m ∈ modRM, o = .ofFields width p size m sib o.displacement

namespace OperandLayout

variable {width : CodeWidth} {p : Prefixes} {size : AddressSize} {map : OpcodeMap} {opcode : UInt8}
  {m : ModRM}

theorem none : OperandLayout width p size map opcode none none [] none := by
  refine ⟨Iff.rfl, ?_, ?_, rfl, ?_, ?_⟩
  · simp [namesMemory]
  · simp [namesMemory]
  · rintro _ ⟨⟩
  · rintro _ ⟨⟩

theorem of_register (h : namesRegister map opcode m) :
    OperandLayout width p size map opcode (some m) .none []
      (some (.reg (p.extend Rex.b m.rm))) := by
  refine ⟨Iff.rfl, ?_, ?_, rfl, ?_, ?_⟩
  · simp [namesMemory, RmOperand.isReg, h]
  · simp [namesMemory, RmOperand.isReg]
  · rintro _ ⟨⟩
    exact ⟨m, rfl, rfl⟩
  · rintro _ ⟨⟩

theorem of_memory {sib : Option UInt8} {bytes : List UInt8} {o : MemoryOperand}
    (h : ¬namesRegister map opcode m) (ho : o.SpelledBy width p size m sib bytes) :
    OperandLayout width p size map opcode (some m) sib bytes (some (.mem o)) := by
  refine ⟨Iff.rfl, ?_, ?_, ho.length, ?_, ?_⟩
  · simp [namesMemory, RmOperand.isReg, h]
  · simp [namesMemory, RmOperand.isReg, ho.sib_iff]
  · rintro _ ⟨⟩
  · rintro _ ⟨⟩
    exact ⟨ho.displacement, m, rfl, ho.operand⟩

end OperandLayout

theorem follows_scanRm (width : CodeWidth) (p : Prefixes) (size : AddressSize) (map : OpcodeMap)
    (opcode : UInt8) (m : ModRM) :
    Follows (scanRm width p size map opcode m) fun used o =>
      ∃ (sib : Option UInt8) (bytes : List UInt8), used = sib.toList ++ bytes ∧
        OperandLayout width p size map opcode (some m) sib bytes (some o) := by
  unfold scanRm
  split
  · rename_i hregister
    exact .pure ⟨none, [], rfl, .of_register hregister⟩
  · rename_i hmemory
    have hmem {f : Scan MemoryOperand} (hf : Follows f fun used o =>
        ∃ (sib : Option UInt8) (bytes : List UInt8), used = sib.toList ++ bytes ∧
          o.SpelledBy width p size m sib bytes) :
        Follows (do return .mem (← f)) fun used (o : RmOperand) =>
          ∃ (sib : Option UInt8) (bytes : List UInt8), used = sib.toList ++ bytes ∧
            OperandLayout width p size map opcode (some m) sib bytes (some o) := by
      refine hf.bind fun u o ho => .pure ?_
      obtain ⟨sib, bytes, rfl, ho⟩ := ho
      exact ⟨sib, bytes, List.append_nil _, .of_memory hmemory ho⟩
    cases size with
    | bits16 =>
      exact hmem ((follows_scanMemory16 width p m).weaken fun u o h => ⟨none, u, rfl, h⟩)
    | bits32 => exact hmem (follows_scanMemory32 width p m (by decide))
    | bits64 => exact hmem (follows_scanMemory32 width p m (by decide))

/-! ## Immediates -/

/-- An immediate is missing or has an operand size. -/
theorem immediateSizes_fst (width : CodeWidth) (form : ImmediateForm) (operand : OperandSize)
    (address : AddressSize) (byteOperand : Bool) (reg : UInt8) :
    (immediateSizes width form operand address byteOperand reg).1 = 0 ∨
      ∃ s : OperandSize,
        (immediateSizes width form operand address byteOperand reg).1 = s.bytes := by
  have hz : ∃ s : OperandSize, (if operand = .bits16 then 2 else 4) = s.bytes := by
    split_ifs
    · exact ⟨.bits16, rfl⟩
    · exact ⟨.bits32, rfl⟩
  cases form with
  | none => exact .inl rfl
  | ib => exact .inr ⟨.bits8, rfl⟩
  | iw => exact .inr ⟨.bits16, rfl⟩
  | iz => exact .inr hz
  | iv => exact .inr ⟨operand, rfl⟩
  | iwib => exact .inr ⟨.bits16, rfl⟩
  | ap => exact .inr hz
  | jb => exact .inr ⟨.bits8, rfl⟩
  | jz =>
    dsimp only [immediateSizes]
    split_ifs
    · exact .inr ⟨.bits32, rfl⟩
    · exact .inr ⟨.bits16, rfl⟩
    · exact .inr ⟨.bits32, rfl⟩
  | moffs => exact .inr ⟨address.operandSize, by cases address <;> rfl⟩
  | group3 =>
    dsimp only [immediateSizes]
    split_ifs
    · exact .inl rfl
    · exact .inr ⟨.bits8, rfl⟩
    · exact .inr ⟨.bits16, rfl⟩
    · exact .inr ⟨.bits32, rfl⟩

/-- The bytes of the second immediate of a form. -/
def ImmediateForm.secondLength : ImmediateForm → Nat
  | .iwib => 1
  | .ap => 2
  | _ => 0

/-- The bytes of the second immediate of an opcode: the level of `ENTER`, or the selector of a far
    pointer. -/
def secondLength (map : OpcodeMap) (opcode : UInt8) : Nat :=
  if map = .primary then
    if opcode = 0xC8 then 1 else if opcode = 0x9A ∨ opcode = 0xEA then 2 else 0
  else 0

namespace OpcodeEntry

theorem secondLength_primary : ∀ e ∈ OpcodeMap.primaryRows.flatten.zipIdx,
    e.1.immediate.secondLength = secondLength .primary (.ofNat e.2) := by
  decide +kernel

theorem secondLength_secondary : ∀ e ∈ OpcodeMap.secondaryRows.flatten.zipIdx,
    e.1.immediate.secondLength = 0 := by
  decide +kernel

/-- **The opcodes with a second immediate**, by a look at all of them. -/
theorem secondLength_entry (map : OpcodeMap) (opcode : UInt8) :
    (map.entry opcode).immediate.secondLength = secondLength map opcode := by
  cases map with
  | primary =>
    have h : (OpcodeMap.primary.entry opcode).immediate.secondLength =
        secondLength .primary (.ofNat opcode.toNat) :=
      secondLength_primary _ (mem_zipIdx_of_get _ opcode)
    rwa [UInt8.ofNat_toNat] at h
  | secondary => exact secondLength_secondary _ (mem_zipIdx_of_get _ opcode)
  | escape38 => rfl
  | escape3A => rfl

end OpcodeEntry

theorem immediateSizes_snd (width : CodeWidth) (form : ImmediateForm) (operand : OperandSize)
    (address : AddressSize) (byteOperand : Bool) (reg : UInt8) :
    (immediateSizes width form operand address byteOperand reg).2 = form.secondLength := by
  cases form <;> rfl

theorem secondLength_le_two (map : OpcodeMap) (opcode : UInt8) : secondLength map opcode ≤ 2 := by
  unfold secondLength
  split_ifs <;> decide

/-- The immediate is the value of its bytes. -/
theorem toNat_immediate {bytes : List UInt8} {n : Nat} (hlength : bytes.length = n)
    (hsize : n = 0 ∨ ∃ s : OperandSize, n = s.bytes) :
    (wordOfBytes bytes).toNat = unsignedValue bytes := by
  refine toNat_wordOfBytes ?_
  obtain rfl | ⟨s, rfl⟩ := hsize
  · omega
  · rw [hlength]
    exact s.bytes_le_eight

/-- The second immediate is the value of its bytes, which sixteen bits have room for. -/
theorem toNat_secondImmediate {bytes : List UInt8} {map : OpcodeMap} {opcode : UInt8}
    (h : bytes.length = secondLength map opcode) :
    (wordOfBytes bytes).toUInt16.toNat = unsignedValue bytes := by
  have hle : bytes.length ≤ 2 := h ▸ secondLength_le_two map opcode
  rw [UInt64.toNat_toUInt16, toNat_wordOfBytes (hle.trans (by decide))]
  refine Nat.mod_eq_of_lt ((unsignedValue_lt bytes).trans_le ?_)
  exact Nat.pow_le_pow_right (by decide) hle

/-- The signed immediate is the signed value of its bytes. -/
theorem Instruction.toInt_immSigned {i : Instruction} {bytes : List UInt8}
    (hlength : bytes.length = i.immSize) (himm : i.imm = wordOfBytes bytes)
    (hsize : i.immSize = 0 ∨ ∃ s : OperandSize, i.immSize = s.bytes) :
    i.immSigned.toInt = signedValue bytes := by
  unfold immSigned
  obtain hzero | ⟨s, hs⟩ := hsize
  · rw [hzero, List.length_eq_zero_iff] at hlength
    rw [hzero, himm, hlength]
    rfl
  · rw [← signed_wordOfBytes (hlength.trans hs), hs, himm]
    cases s <;> rfl

/-! ## Instructions -/

/-- The bytes of an encoding after its prefixes, part by part. -/
structure Layout where
  opcode : List UInt8
  modRM : Option UInt8
  sib : Option UInt8
  displacement : List UInt8
  immediate : List UInt8
  second : List UInt8

/-- The parts, one after the other. -/
def Layout.bytes (l : Layout) : List UInt8 :=
  l.opcode ++ (l.modRM.toList ++ (l.sib.toList ++ (l.displacement ++ (l.immediate ++ l.second))))

/-- The fields of an instruction are those that the parts of its encoding spell. -/
structure Instruction.LaidOut (i : Instruction) (width : CodeWidth) (l : Layout) : Prop where
  opcode : l.opcode = i.map.escape ++ [i.opcode]
  modRM : i.modRM = l.modRM.map ModRM.ofByte
  addressSize : i.addressSize = effectiveAddressSize width i.prefixes
  operand : OperandLayout width i.prefixes i.addressSize i.map i.opcode i.modRM l.sib
    l.displacement i.rm
  immSize : i.immSize = (immediateSizes width (i.map.entry i.opcode).immediate i.operandSize
    i.addressSize i.flags.byteOperand i.modReg).1
  immediate : l.immediate.length = i.immSize
  imm : i.imm.toNat = unsignedValue l.immediate
  immSigned : i.immSigned.toInt = signedValue l.immediate
  second : l.second.length = secondLength i.map i.opcode
  imm2 : i.imm2.toNat = unsignedValue l.second

/-- The instruction without its place. -/
def Instruction.unplaced (i : Instruction) : Instruction :=
  { i with length := 0 }

theorem follows_scanInstruction (width : CodeWidth) (p : Prefixes) :
    Follows (Instruction.unplaced <$> scanInstruction width p) fun used i =>
      i.prefixes = p ∧ ∃ l : Layout, used = l.bytes ∧ i.LaidOut width l := by
  refine follows_scanOpcode.map_of_bind fun u o hu => ?_
  obtain ⟨map, opcode⟩ := o
  subst hu
  dsimp -zeta -zetaHave only
  extract_lets entry addressSize afterModRM afterOpcode
  have hinvalid (f : PUnit → Scan Instruction) (G : List UInt8 → Instruction → Prop) :
      Follows (Instruction.unplaced <$> (throw .invalid >>= f)) G := ⟨fun h => by cases h⟩
  -- The join points are reached from several branches, so each is shown to follow the layout for
  -- all that it can be handed: first the ModRM byte, in it the operand.
  have hmodRM (modRM : Option UInt8) :
      Follows (Instruction.unplaced <$> afterModRM (modRM.map ModRM.ofByte)) fun used i =>
        i.prefixes = p ∧ ∃ l : Layout,
          map.escape ++ [opcode] ++ (modRM.toList ++ used) = l.bytes ∧ i.LaidOut width l := by
    dsimp -zeta -zetaHave only [afterModRM]
    extract_lets reg flags operation operandSize afterRm afterGroup afterVector
    have hrm (rm : Option RmOperand) (sib : Option UInt8) (bytes : List UInt8)
        (h : OperandLayout width p addressSize map opcode (modRM.map ModRM.ofByte) sib bytes rm) :
        Follows (Instruction.unplaced <$> afterRm rm) fun used i => i.prefixes = p ∧
          ∃ l : Layout, map.escape ++ [opcode] ++ (modRM.toList ++ (sib.toList ++ bytes ++ used)) =
            l.bytes ∧ i.LaidOut width l := by
      dsimp only [afterRm]
      split
      · refine (follows_word _).map_of_bind fun u w hu =>
          (follows_word _).map_of_bind fun v w' hv => ?_
        refine Follows.of_position (fun _ _ => rfl) fun c => ⟨rfl, ?_⟩
        rw [immediateSizes_snd, OpcodeEntry.secondLength_entry] at hv
        have hsize := immediateSizes_fst width entry.immediate operandSize addressSize
          flags.byteOperand reg
        refine ⟨⟨map.escape ++ [opcode], modRM, sib, bytes, u, v⟩, ?_, rfl, rfl, rfl, h, rfl,
          hu.1, ?_, Instruction.toInt_immSigned hu.1 hu.2 hsize, hv.1, ?_⟩
        · simp only [Layout.bytes, List.append_assoc, List.append_nil]
        · exact hu.2 ▸ toNat_immediate hu.1 hsize
        · exact hv.2 ▸ toNat_secondImmediate hv.1
      · exact hinvalid _ _
    have hgroup : Follows (Instruction.unplaced <$> afterGroup ()) fun used i => i.prefixes = p ∧
        ∃ l : Layout, map.escape ++ [opcode] ++ (modRM.toList ++ used) = l.bytes ∧
          i.LaidOut width l := by
      dsimp only [afterGroup]
      cases modRM with
      | none => exact hrm none none [] .none
      | some b =>
        refine ((follows_scanRm width p addressSize map opcode (.ofByte b)).map some).map_of_bind ?_
        rintro _ _ ⟨o, ⟨sib, bytes, rfl, h⟩, rfl⟩
        exact hrm (some o) sib bytes h
    split
    · exact hinvalid _ _
    · dsimp only [afterVector]
      split <;> split
      · exact hinvalid _ _
      · exact hgroup
      · exact hinvalid _ _
      · exact hgroup
  split
  · exact hinvalid _ _
  · dsimp only [afterOpcode]
    split
    · refine ((follows_byte.map ModRM.ofByte).map some).map_of_bind ?_
      rintro _ _ ⟨_, ⟨b, rfl, rfl⟩, rfl⟩
      exact hmodRM (some b)
    · exact hmodRM none

/-! ## Prefixes -/

/-- The prefixes that exist in code of any width. -/
def legacyPrefixes : List UInt8 :=
  [0x26, 0x2E, 0x36, 0x3E, 0x64, 0x65, 0x66, 0x67, 0xF0, 0xF2, 0xF3]

/-- A legacy prefix, or in 64-bit code a REX prefix. -/
def PrefixByte (width : CodeWidth) (b : UInt8) : Prop :=
  b ∈ legacyPrefixes ∨ (width = .bits64 ∧ 0x40 ≤ b ∧ b ≤ 0x4F)

instance (width : CodeWidth) : DecidablePred (PrefixByte width) :=
  fun b => inferInstanceAs
    (Decidable (b ∈ legacyPrefixes ∨ (width = .bits64 ∧ 0x40 ≤ b ∧ b ≤ 0x4F)))

theorem isRex_iff (width : CodeWidth) (b : UInt8) :
    isRex width b = true ↔ width = .bits64 ∧ 0x40 ≤ b ∧ b ≤ 0x4F := by
  simp [isRex, and_assoc]

theorem isPrefixByte_iff (width : CodeWidth) (b : UInt8) :
    isPrefixByte width b = true ↔ PrefixByte width b := by
  have hsegment : (segmentOverride? b).isSome = true ↔ b ∈ legacyPrefixes.take 6 := by
    unfold segmentOverride?
    split <;> simp_all [legacyPrefixes]
  have hother : b ∈ [0xF0, 0xF2, 0xF3, 0x66, 0x67] ↔ b ∈ legacyPrefixes.drop 6 :=
    List.Perm.mem_iff (by decide)
  rw [isPrefixByte, Bool.or_eq_true, Bool.or_eq_true, isRex_iff, hsegment, List.contains_iff_mem,
    hother, PrefixByte, or_assoc, ← List.mem_append, List.take_append_drop, or_comm]

theorem takeWhile_isPrefixByte (width : CodeWidth) (bytes : List UInt8) :
    bytes.takeWhile (isPrefixByte width) = bytes.takeWhile (PrefixByte width ·) := by
  congr 1
  funext b
  rw [Bool.eq_iff_iff, isPrefixByte_iff, decide_eq_true_iff]

/-! ## Whole encodings -/

namespace Instruction

theorem LaidOut.length_pos {i : Instruction} {width : CodeWidth} {l : Layout}
    (h : i.LaidOut width l) : 0 < l.bytes.length := by
  rw [Layout.bytes, h.opcode, List.append_assoc, List.length_append]
  simp only [List.length_append, List.length_singleton]
  omega

theorem LaidOut.of_unplaced {i : Instruction} {width : CodeWidth} {l : Layout}
    (h : i.unplaced.LaidOut width l) : i.LaidOut width l :=
  ⟨h.opcode, h.modRM, h.addressSize, h.operand, h.immSize, h.immediate, h.imm, h.immSigned,
    h.second, h.imm2⟩

theorem eq_of_unplaced {i i' : Instruction} (h : i'.unplaced = i.unplaced) :
    i' = { i with length := i'.length } := by
  cases i
  cases i'
  cases h
  rfl

end Instruction

/-- The prefixes of an instruction, and the parts of its encoding that follow them. Behind any other
    prefixes that add up to the same, these parts spell the same instruction. -/
theorem exists_layout {width : CodeWidth} {pre rest : List UInt8} {i : Instruction}
    (hpre : ∀ b ∈ pre, isPrefixByte width b) (hrest : ∀ b ∈ rest.head?, ¬isPrefixByte width b)
    (h : decode width (pre ++ rest) = .ok i) :
    ∃ (l : Layout) (t : List UInt8), rest = l.bytes ++ t ∧
      i.length.toNat = pre.length + l.bytes.length ∧
      i.prefixes = pre.foldl (Prefixes.apply width) {} ∧ i.LaidOut width l ∧
      ∀ pre', (∀ b ∈ pre', isPrefixByte width b) →
        pre'.foldl (Prefixes.apply width) {} = i.prefixes →
        pre'.length + l.bytes.length ≤ maxInstructionLength →
        decode width (pre' ++ rest) =
          .ok { i with length := (pre'.length + l.bytes.length).toUInt8 } := by
  obtain ⟨c, hscan⟩ := (decode_ok_iff hpre hrest).1 h
  obtain ⟨used, ⟨hprefixes, l, rfl, hl⟩, hrest', hpos, hfar⟩ :=
    (follows_scanInstruction width _).takes (map_ok.2 ⟨i, hscan, rfl⟩)
  have hreads (p : Prefixes) := reads_scanInstruction width p
  dsimp only at hpos
  refine ⟨l, c.rest, hrest', ?_, hprefixes, hl.of_unplaced, fun pre' hpre' hfold hle => ?_⟩
  · have hstays : c.pos = pre.length ∨ c.pos ≤ maxInstructionLength := (hreads _).stays hscan
    have hne := hl.length_pos
    unfold maxInstructionLength at hstays
    rw [((hreads _).answers hscan).length, ← hpos, Nat.toUInt8, UInt8.toNat_ofNat']
    exact Nat.mod_eq_of_lt (by omega)
  · obtain ⟨i', hscan', hi'⟩ := map_ok.1 (hfar pre'.length c.rest hle)
    rw [← hrest', ← hprefixes] at hscan'
    rw [(decode_ok_iff hpre' hrest).2 ⟨_, hfold ▸ hscan'⟩, Instruction.eq_of_unplaced hi',
      ((hreads _).answers hscan').length]

/-- **Decoded fields sit where the encoding says.** The bytes of an instruction are its prefixes and
    then, in this order, the opcode behind the escape bytes of its map, the ModRM byte, the SIB
    byte, the displacement, the immediate and the second immediate. Which of them there are and how
    long they are follows from what comes before them, and the fields are the numbers that they
    spell. -/
theorem decode_layout {width : CodeWidth} {bytes : List UInt8} {i : Instruction}
    (h : decode width bytes = .ok i) :
    i.length.toNat ≤ bytes.length ∧ ∃ l : Layout, i.LaidOut width l ∧
      bytes.take i.length.toNat = bytes.takeWhile (PrefixByte width ·) ++ l.bytes := by
  refine ⟨(length_bounds h).2.2, ?_⟩
  rw [← takeWhile_isPrefixByte]
  obtain ⟨pre, rest, rfl, hpre, hrest⟩ := exists_prefixes width bytes
  obtain ⟨l, t, rfl, hlength, -, hl, -⟩ := exists_layout hpre hrest h
  refine ⟨l, hl, ?_⟩
  rw [takeWhile_prefixes hpre hrest, hlength, ← List.append_assoc, ← List.length_append,
    List.take_left]

/-- The same for a locked 64-bit addition of a constant to memory, with two prefixes, a SIB byte, a
    displacement of four bytes and an immediate of four. -/
theorem decode_layout_lock_add :
    ∃ bytes i l,
      bytes = [0xF0, 0x48, 0x81, 0x84, 0x88, 0x44, 0x33, 0x22, 0x91, 0xCD, 0xAB, 0x00, 0xFF] ∧
      decode .bits64 bytes = .ok i ∧ i.LaidOut .bits64 l ∧
      bytes.takeWhile (PrefixByte .bits64 ·) = [0xF0, 0x48] ∧ bytes = [0xF0, 0x48] ++ l.bytes := by
  obtain ⟨bytes, hbytes⟩ : ∃ bytes : List UInt8, bytes =
      [0xF0, 0x48, 0x81, 0x84, 0x88, 0x44, 0x33, 0x22, 0x91, 0xCD, 0xAB, 0x00, 0xFF] := ⟨_, rfl⟩
  obtain ⟨i, hi, hlength⟩ : ∃ i, decode .bits64 bytes = .ok i ∧ i.length = 13 := by
    rw [hbytes]
    exact ⟨_, rfl, rfl⟩
  have hprefixes : bytes.takeWhile (PrefixByte .bits64 ·) = [0xF0, 0x48] := by
    rw [hbytes]
    decide
  obtain ⟨-, l, hl, hparts⟩ := decode_layout hi
  refine ⟨bytes, i, l, hbytes, hi, hl, hprefixes, ?_⟩
  rw [hprefixes, hlength, List.take_of_length_le (by rw [hbytes]; decide)] at hparts
  exact hparts

end X86Replay

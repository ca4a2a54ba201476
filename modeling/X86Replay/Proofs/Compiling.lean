import X86Replay.Block.Compile
import X86Replay.Proofs.Decoding
import X86Replay.Proofs.Fetching

/-!
# What a block is compiled from

A block lists encodings that were read from memory one after the other. Everything else about it
follows from that list.

* `CompileContext.ShapedAt`, `CompileContext.Sequence`: encodings that compiling can come upon,
  whatever memory shows.
* `CompileContext.Reads`: an encoding at an offset of the block, as it is read from memory.
* `CompileContext.Chain`: encodings that follow each other from an offset on, all on the page that
  the block starts on, except that a single one may reach the next page.
* `compileBlock_ok`: a block is made from a chain of encodings.
* `compileBlock_error`: only fetching the first encoding can fail.
* `FetchStream.Kept.compileBlock`: compiling keeps what resolving and copying keep of a fetch stream.
-/

namespace X86Replay

variable {M : Type} [GuestMemory M]

/-! ## Encodings -/

namespace Encoding

variable {e : Encoding} {width : CodeWidth}

theorem length_ok {i : Instruction} (h : e.decoded = .ok i) : e.length = i.length.toNat := by
  rw [length, knownLength, h]
  rfl

theorem length_pos (h : e.decoded = decode width e.bytes) : 0 < e.length := by
  unfold length knownLength
  split
  · rename_i i hi
    exact (length_bounds (h.symm.trans hi)).1
  · exact Nat.succ_pos _
  · exact Nat.one_pos

theorem length_le (h : e.decoded = decode width e.bytes) : e.length ≤ maxInstructionLength := by
  unfold length knownLength
  split
  · rename_i i hi
    exact (length_bounds (h.symm.trans hi)).2.1
  · exact Nat.le_refl _
  · exact Nat.succ_le_succ (Nat.zero_le _)

theorem length_le_bytes (h : e.decoded = decode width e.bytes) (hbytes : 0 < e.bytes.length) :
    e.length ≤ e.bytes.length := by
  unfold length knownLength
  split
  · rename_i i hi
    exact (length_bounds (h.symm.trans hi)).2.2
  · rename_i hlong
    exact le_length_of_tooLong (h.symm.trans hlong)
  · exact hbytes

/-- An encoding is cut if and only if its bytes end too soon. -/
theorem isCut_iff (h : e.decoded = decode width e.bytes) :
    e.isCut ↔ decode width e.bytes = .error .unexpectedEnd := by
  rw [isCut, h, Bool.and_eq_true, decide_eq_true_eq]
  constructor
  · rintro ⟨-, hcut⟩
    split at hcut
    · assumption
    · cases hcut
  · intro hend
    refine ⟨length_lt_of_unexpectedEnd hend, ?_⟩
    rw [hend]

/-- The physical address of a byte of an encoding that starts at address `a`. -/
def address (e : Encoding) (a j : Nat) : Nat :=
  match e.crossing with
  | none => a + j
  | some (next, n) => if j < n then a + j else next.toNat + (j - n)

/-- The block does not end after the encoding by itself. -/
structure GoesOn (e : Encoding) : Prop where
  endsBlock : e.endsBlock = false
  tail : e.tail? = none

theorem GoesOn.decoded (h : e.GoesOn) :
    ∃ i, e.decoded = .ok i ∧ i.blockEffect = .straight := by
  have hends := h.endsBlock
  unfold Encoding.endsBlock at hends
  split at hends
  · rename_i i hi
    refine ⟨i, hi, ?_⟩
    simpa [BlockEffect.endsBlock] using hends
  · cases hends

/-- Once an instruction has been decoded, the part of it on the next page is known. -/
theorem GoesOn.crossing (h : e.GoesOn) : e.crossing = none := by
  obtain ⟨i, hi, -⟩ := h.decoded
  have htail := h.tail
  unfold tail? knownLength at htail
  rw [hi] at htail
  cases hcrossing : e.crossing with
  | none => rfl
  | some c => rw [hcrossing] at htail; cases htail

end Encoding

/-- Compiling has led to a draft, and may go on or not. -/
def Progress.Has (p : Progress) (d : Draft) : Prop :=
  p = .more d ∨ p = .finished d

namespace CompileContext

/-! ## Places -/

/-- The linear address that a block starts at. -/
def start (c : CompileContext) : UInt64 :=
  c.cpu.linearIp c.width c.cpu.rip

/-- A block starts at CS:RIP if it is compiled for the width of the code there. -/
theorem start_eq {c : CompileContext} (h : c.width = c.cpu.codeWidth) :
    c.start = c.cpu.linearPc := by
  rw [start, h, Cpu.linearPc]

/-- The place on the first page of an offset of the block. -/
def place (c : CompileContext) (o : Nat) : Nat :=
  c.start.toNat % 4096 + o

/-- An offset of the block where an instruction can start: on the first page and, but for the first
    instruction, where straight-line code leads. -/
def CanStart (c : CompileContext) (o : Nat) : Prop :=
  c.place o < 4096 ∧ (o = 0 ∨ c.cpu.rip + o.toUInt64 ≤ c.width.ipLimit)

theorem toNat_toUInt64 {n : Nat} (h : n < 2 ^ 64) : n.toUInt64.toNat = n :=
  UInt64.toNat_ofNat_of_lt' h

/-- The linear address of an offset of the block. -/
def pcAt (c : CompileContext) (o : Nat) : UInt64 :=
  c.cpu.linearIp c.width (c.cpu.rip + o.toUInt64)

theorem pc_eq (c : CompileContext) (d : Draft) : c.pc d = c.pcAt d.size :=
  rfl

/-- On the first page the linear address moves with the instruction pointer. -/
theorem toNat_pcAt (c : CompileContext) {o : Nat} (h : c.place o < 4096) :
    (c.pcAt o).toNat = c.start.toNat + o := by
  have ho : o.toUInt64.toNat = o := toNat_toUInt64 (by unfold place at h; omega)
  unfold place start at *
  unfold pcAt
  generalize o.toUInt64 = n at ho ⊢
  have hmask (x : UInt64) : (x &&& 0xFFFFFFFF).toNat = x.toNat % 2 ^ 32 := by
    rw [UInt64.toNat_and]
    exact Nat.and_two_pow_sub_one_eq_mod x.toNat 32
  cases hwidth : c.width with
  | bits64 =>
    rw [hwidth] at h
    simp only [Cpu.linearIp] at h ⊢
    rw [UInt64.toNat_add, ho]
    have := c.cpu.rip.toNat_lt
    omega
  | bits16 | bits32 =>
    rw [hwidth] at h
    simp only [Cpu.linearIp, hmask, UInt64.toNat_add] at h ⊢
    omega

/-- The code page of an address inside a block is that of its start. -/
theorem pageOf_pcAt (c : CompileContext) {o : Nat} (h : c.place o < 4096) :
    pageOf (c.pcAt o) = pageOf c.start := by
  rw [pageOf_eq_iff, c.toNat_pcAt h]
  unfold place at h
  omega

theorem pcAt_mod (c : CompileContext) {o : Nat} (h : c.place o < 4096) :
    (c.pcAt o).toNat % 4096 = c.place o := by
  rw [c.toNat_pcAt h]
  unfold place at h ⊢
  omega

theorem place_zero_lt (c : CompileContext) : c.place 0 < 4096 :=
  Nat.mod_lt _ (by decide)

theorem pcAt_zero (c : CompileContext) : c.pcAt 0 = c.start := by
  rw [← UInt64.toNat_inj, c.toNat_pcAt c.place_zero_lt, Nat.add_zero]

/-! ## Shapes of encodings -/

/-- An encoding at an offset of the block, of the bytes that compiling looks at, whatever they are:
    those of the first page if they decide, and otherwise, at the start of the block only, those of
    the next page too. -/
inductive ShapedAt (c : CompileContext) (o : Nat) : Encoding → Prop
  | near {bytes : List UInt8} :
      bytes.length = min (4096 - c.place o) maxInstructionLength →
      decode c.width bytes ≠ .error .unexpectedEnd →
      ShapedAt c o ⟨bytes, decode c.width bytes, none⟩
  | far {near far : List UInt8} {next : UInt64} :
      o = 0 →
      near.length = min (4096 - c.place o) maxInstructionLength →
      decode c.width near = .error .unexpectedEnd →
      next.toNat % 4096 = 0 →
      far.length = maxInstructionLength - near.length →
      ShapedAt c o ⟨near ++ far, decode c.width (near ++ far), some (next, near.length)⟩

variable {c : CompileContext} {mem : M} {page : UInt64} {o : Nat} {e : Encoding}

theorem ShapedAt.decoded (h : c.ShapedAt o e) : e.decoded = decode c.width e.bytes := by
  cases h <;> rfl

/-- Bytes that do not decide decide once they have been filled up to fifteen. -/
theorem decode_append_ne {width : CodeWidth} {near far : List UInt8}
    (hnear : decode width near = .error .unexpectedEnd)
    (hfar : far.length = maxInstructionLength - near.length) :
    decode width (near ++ far) ≠ .error .unexpectedEnd := by
  intro hend
  have hlt := length_lt_of_unexpectedEnd hend
  have hlt' := length_lt_of_unexpectedEnd hnear
  rw [List.length_append] at hlt
  omega

/-- Fifteen bytes have always been read if those of the first page do not decide. -/
theorem ShapedAt.not_unexpectedEnd (h : c.ShapedAt o e) :
    decode c.width e.bytes ≠ .error .unexpectedEnd := by
  cases h with
  | near _ hdecode => exact hdecode
  | far _ _ hnear _ hfar => exact decode_append_ne hnear hfar

/-- All bytes that the encoding takes are there. -/
theorem ShapedAt.length_le_bytes (h : c.ShapedAt o e) (ho : c.place o < 4096) :
    e.length ≤ e.bytes.length := by
  refine Encoding.length_le_bytes h.decoded ?_
  cases h with
  | near hlength =>
    rw [hlength]
    unfold maxInstructionLength
    omega
  | far _ hlength =>
    rw [List.length_append, hlength]
    unfold maxInstructionLength
    omega

/-- Only the first encoding reaches the next page. -/
theorem ShapedAt.crossing_of_pos (h : c.ShapedAt o e) (ho : 0 < o) : e.crossing = none := by
  cases h with
  | near => rfl
  | far hzero => omega

/-- An encoding that needs the next page has all bytes up to the page end before it. -/
theorem ShapedAt.crossing_some {next : UInt64} {n : Nat} (h : c.ShapedAt o e)
    (ho : c.place o < 4096) (hcrossing : e.crossing = some (next, n)) :
    n = 4096 - c.place o ∧ next.toNat % 4096 = 0 := by
  cases h with
  | near => cases hcrossing
  | far _ hlength hdecode hnext =>
    cases hcrossing
    have hlt := length_lt_of_unexpectedEnd hdecode
    exact ⟨by omega, hnext⟩

/-! ## Reading encodings -/

/-- An encoding at an offset of the block, as it is read from memory: from the first page alone if
    the bytes there decide, and otherwise, at the start of the block only, from the next page
    too. -/
inductive Reads (c : CompileContext) (mem : M) (page : UInt64) (o : Nat) : Encoding → Prop
  | near {bytes : List UInt8} :
      bytes.length = min (4096 - c.place o) maxInstructionLength →
      HoldsBytes mem (page.toNat + c.place o) bytes →
      decode c.width bytes ≠ .error .unexpectedEnd →
      Reads c mem page o ⟨bytes, decode c.width bytes, none⟩
  | far {near far : List UInt8} {next : UInt64} :
      o = 0 →
      near.length = min (4096 - c.place o) maxInstructionLength →
      HoldsBytes mem (page.toNat + c.place o) near →
      decode c.width near = .error .unexpectedEnd →
      mapForFetch mem (nextPage c.start) c.cpu.cpl = .ok next →
      far.length = maxInstructionLength - near.length →
      HoldsBytes mem next.toNat far →
      Reads c mem page o ⟨near ++ far, decode c.width (near ++ far), some (next, near.length)⟩

theorem Reads.shapedAt (h : c.Reads mem page o e) : c.ShapedAt o e := by
  cases h with
  | near hlength _ hdecode => exact .near hlength hdecode
  | far ho hlength _ hdecode hnext hfar =>
    exact .far ho hlength hdecode (mapForFetch_mod hnext) hfar

theorem Reads.decoded (h : c.Reads mem page o e) : e.decoded = decode c.width e.bytes :=
  h.shapedAt.decoded

/-- Every byte of the encoding has been read at its address. -/
theorem Reads.readsByte (h : c.Reads mem page o e) {j : Nat} {b : UInt8}
    (hj : e.bytes[j]? = some b) : ReadsByte mem (e.address (page.toNat + c.place o) j) b := by
  cases h with
  | near _ hholds => exact hholds j b hj
  | @far near far next _ _ hnear _ _ _ hfar =>
    show ReadsByte mem (if j < near.length then page.toNat + c.place o + j
      else next.toNat + (j - near.length)) b
    by_cases hlt : j < near.length
    · rw [if_pos hlt]
      rw [List.getElem?_append_left hlt] at hj
      exact hnear j b hj
    · rw [if_neg hlt]
      rw [List.getElem?_append_right (by omega)] at hj
      exact hfar _ b hj

theorem readNear_ok {s s' : FetchStream} {d : Draft} {e : Encoding} (hd : c.place d.size < 4096)
    (hs : s.OnPage mem (c.pc d) page) (h : readNear s mem c.width (c.pc d) = (.ok e, s')) :
    s'.OnPage mem (c.pc d) page ∧ e = ⟨e.bytes, decode c.width e.bytes, none⟩ ∧
      e.bytes.length = min (4096 - c.place d.size) maxInstructionLength ∧
      HoldsBytes mem (page.toNat + c.place d.size) e.bytes := by
  unfold readNear at h
  rcases hcopy : s.copyBytes mem (c.pc d) maxInstructionLength with ⟨x | bytes, s₁⟩
  · rw [hcopy] at h
    cases h
  · rw [hcopy] at h
    cases h
    obtain ⟨hs', hlength, hholds⟩ := FetchStream.copyBytes_ok hs hcopy
    rw [c.pc_eq, c.pcAt_mod hd] at hlength hholds
    rw [Nat.min_self] at hlength
    exact ⟨hs', rfl, hlength, hholds⟩

theorem readNear_error {s s' : FetchStream} {d : Draft} {x : Exception}
    (hd : c.place d.size < 4096) (hs : s.OnPage mem (c.pc d) page)
    (h : readNear s mem c.width (c.pc d) = (.error x, s')) :
    s' = s ∧ FetchWindow.ReadFails mem page (min (c.place d.size + maxInstructionLength) 4096) x := by
  unfold readNear at h
  rcases hcopy : s.copyBytes mem (c.pc d) maxInstructionLength with ⟨y | bytes, s₁⟩
  · rw [hcopy] at h
    cases h
    have hfails := hs.copyBytes_error hcopy
    rwa [c.pc_eq, c.pcAt_mod hd, Nat.min_self] at hfails
  · rw [hcopy] at h
    cases h

theorem nextPage_mod (a : UInt64) : (nextPage a).toNat % 4096 = 0 := by
  rw [toNat_nextPage]
  omega

theorem readFar_ok {s s' : FetchStream} {pc : UInt64} {near : List UInt8} {e : Encoding}
    (hs : s.Current mem) (h : readFar s c.cpu mem c.width pc near = (.ok e, s')) :
    s'.Current mem ∧ ∃ far next, mapForFetch mem (nextPage pc) c.cpu.cpl = .ok next ∧
      far.length = maxInstructionLength - near.length ∧ HoldsBytes mem next.toNat far ∧
      e = ⟨near ++ far, decode c.width (near ++ far), some (next, near.length)⟩ := by
  unfold readFar at h
  rcases hresolve : s.resolve c.cpu mem (nextPage pc) with ⟨x | a, s₁⟩
  · rw [hresolve] at h
    cases h
  · rw [hresolve] at h
    dsimp only at h
    obtain ⟨next, hnext, ha, hs₁⟩ := FetchStream.resolve_ok hs hresolve
    rw [nextPage_mod, Nat.add_zero, UInt64.toNat_inj] at ha
    subst ha
    rcases hcopy : s₁.copyBytes mem (nextPage pc) (maxInstructionLength - near.length)
      with ⟨x | far, s₂⟩
    · rw [hcopy] at h
      cases h
    · rw [hcopy] at h
      cases h
      obtain ⟨hs', hlength, hholds⟩ := FetchStream.copyBytes_ok hs₁ hcopy
      rw [nextPage_mod] at hlength hholds
      refine ⟨hs'.current, far, a, hnext, ?_, hholds, rfl⟩
      unfold maxInstructionLength at hlength ⊢
      omega

theorem readFar_error {s s' : FetchStream} {pc : UInt64} {near : List UInt8} {x : Exception}
    (hs : s.Current mem) (h : readFar s c.cpu mem c.width pc near = (.error x, s')) :
    s'.Current mem ∧ (mapForFetch mem (nextPage pc) c.cpu.cpl = .error x ∨
      ∃ next, mapForFetch mem (nextPage pc) c.cpu.cpl = .ok next ∧
        FetchWindow.ReadFails mem next (maxInstructionLength - near.length) x) := by
  unfold readFar at h
  rcases hresolve : s.resolve c.cpu mem (nextPage pc) with ⟨y | a, s₁⟩
  · rw [hresolve] at h
    cases h
    obtain ⟨hmapped, hwindow⟩ := FetchStream.resolve_error hresolve
    exact ⟨FetchStream.forall_window_of_none hwindow, .inl hmapped⟩
  · rw [hresolve] at h
    dsimp only at h
    obtain ⟨next, hnext, -, hs₁⟩ := FetchStream.resolve_ok hs hresolve
    rcases hcopy : s₁.copyBytes mem (nextPage pc) (maxInstructionLength - near.length)
      with ⟨y | far, s₂⟩
    · rw [hcopy] at h
      cases h
      obtain ⟨rfl, hfails⟩ := hs₁.copyBytes_error hcopy
      have hend : min (0 + min (maxInstructionLength - near.length) maxInstructionLength) 4096 =
          maxInstructionLength - near.length := by
        unfold maxInstructionLength
        omega
      rw [nextPage_mod, hend] at hfails
      exact ⟨hs₁.current, .inr ⟨next, hnext, hfails⟩⟩
    · rw [hcopy] at h
      cases h

/-! ## One encoding more -/

/-- An encoding goes to the end of the draft, and another one follows only if this one goes on and
    ends on the page that it starts on. -/
theorem accept_cases (c : CompileContext) (d : Draft) (pc : UInt64) (e : Encoding) :
    c.accept d pc e = .finished (c.append d e) ∨
      c.accept d pc e = .more (c.append d e) ∧ e.GoesOn ∧
        pageOf (pc + e.length.toUInt64) = pageOf pc := by
  unfold accept
  dsimp only
  split_ifs with h
  · exact .inl rfl
  · simp only [Bool.or_eq_true, not_or, Bool.not_eq_true, bne_eq_false_iff_eq,
      Option.isSome_eq_false_iff, Option.isNone_iff_eq_none] at h
    exact .inr ⟨rfl, ⟨h.1.1, h.1.2⟩, h.2⟩

theorem extend_of_ne_more {p : Progress} (hp : ∀ d, p ≠ .more d) (mem : M) (fuel : Nat)
    (s : FetchStream) : c.extend mem fuel p s = (p, s) := by
  cases fuel with
  | zero => rfl
  | succ fuel =>
    rw [extend]
    exact fun _ d _ h => hp d h

theorem extend_finished (c : CompileContext) (mem : M) (fuel : Nat) (d : Draft) (s : FetchStream) :
    c.extend mem fuel (.finished d) s = (.finished d, s) :=
  extend_of_ne_more (p := .finished d) (fun _ h => nomatch h) mem fuel s

theorem extend_fault (c : CompileContext) (mem : M) (fuel : Nat) (x : Exception)
    (s : FetchStream) : c.extend mem fuel (.fault x) s = (.fault x, s) :=
  extend_of_ne_more (p := .fault x) (fun _ h => nomatch h) mem fuel s

theorem extend_succ (c : CompileContext) (mem : M) (fuel : Nat) (d : Draft) (s : FetchStream) :
    c.extend mem (fuel + 1) (.more d) s =
      c.extend mem fuel (c.nextStep mem s d).1 (c.nextStep mem s d).2 :=
  rfl

/-- Why the first encoding of a block could not be read: its bytes on the first page cannot be read,
    or they do not decide and the next page is not mapped or cannot be read either. -/
def FirstFails (c : CompileContext) (mem : M) (page : UInt64) (x : Exception) : Prop :=
  FetchWindow.ReadFails mem page (min (c.place 0 + maxInstructionLength) 4096) x ∨
    ∃ near : List UInt8,
      near.length = min (4096 - c.place 0) maxInstructionLength ∧
        HoldsBytes mem (page.toNat + c.place 0) near ∧
        decode c.width near = .error .unexpectedEnd ∧
        (mapForFetch mem (nextPage c.start) c.cpu.cpl = .error x ∨
          ∃ next, mapForFetch mem (nextPage c.start) c.cpu.cpl = .ok next ∧
            FetchWindow.ReadFails mem next (c.place 0 + maxInstructionLength - 4096) x)

theorem firstStep_cases {s s' : FetchStream} {d : Draft} {p : Progress} (hd : d.size = 0)
    (hs : s.OnPage mem c.start page) (h : c.firstStep mem s d = (p, s')) :
    s'.Current mem ∧ ((∃ e, c.Reads mem page 0 e ∧ p = c.accept d (c.pc d) e) ∨
      ∃ x, p = .fault x ∧ c.FirstFails mem page x) := by
  have hplace : c.place d.size < 4096 := hd ▸ c.place_zero_lt
  have hpc : c.pc d = c.start := by rw [c.pc_eq, hd, c.pcAt_zero]
  rw [← hpc] at hs
  unfold firstStep at h
  dsimp only at h
  rcases hnear : readNear s mem c.width (c.pc d) with ⟨x | e, s₁⟩
  · rw [hnear] at h
    cases h
    obtain ⟨rfl, hfails⟩ := readNear_error hplace hs hnear
    rw [hd] at hfails
    exact ⟨hs.current, .inr ⟨x, rfl, .inl hfails⟩⟩
  · rw [hnear] at h
    dsimp only at h
    obtain ⟨hs₁, he, hlength, hholds⟩ := readNear_ok hplace hs hnear
    rw [hd] at hlength hholds
    have hdecoded : e.decoded = decode c.width e.bytes := by rw [he]
    split_ifs at h with hcut
    · rw [Encoding.isCut_iff hdecoded] at hcut
      rcases hfar : readFar s₁ c.cpu mem c.width (c.pc d) e.bytes with ⟨x | e', s₂⟩
      · rw [hfar] at h
        cases h
        obtain ⟨hs₂, hfails⟩ := readFar_error hs₁.current hfar
        have hmissing : maxInstructionLength - e.bytes.length =
            c.place 0 + maxInstructionLength - 4096 := by
          rw [hd] at hplace
          rw [hlength]
          omega
        rw [hpc, hmissing] at hfails
        exact ⟨hs₂, .inr ⟨x, rfl, .inr ⟨e.bytes, hlength, hholds, hcut, hfails⟩⟩⟩
      · rw [hfar] at h
        cases h
        obtain ⟨hs₂, far, next, hnext, hfarLength, hfarHolds, rfl⟩ := readFar_ok hs₁.current hfar
        rw [hpc] at hnext
        exact ⟨hs₂, .inl ⟨_, .far rfl hlength hholds hcut hnext hfarLength hfarHolds, rfl⟩⟩
    · cases h
      rw [Encoding.isCut_iff hdecoded] at hcut
      refine ⟨hs₁.current, .inl ⟨e, ?_, rfl⟩⟩
      rw [he]
      exact .near hlength hholds hcut

theorem nextStep_cases {s s' : FetchStream} {d : Draft} {p : Progress}
    (hd : c.place d.size < 4096) (hpage : mapForFetch mem c.start c.cpu.cpl = .ok page)
    (hs : s.Current mem) (h : c.nextStep mem s d = (p, s')) :
    s'.Current mem ∧ (p = .finished d ∨ ∃ e, c.CanStart d.size ∧ c.Reads mem page d.size e ∧
      p = c.accept d (c.pc d) e) := by
  unfold nextStep at h
  dsimp only at h
  split_ifs at h with hcaps
  · cases h
    exact ⟨hs, .inl rfl⟩
  simp only [Bool.or_eq_true, decide_eq_true_eq, not_or, UInt64.not_lt] at hcaps
  rcases hresolve : s.resolve c.cpu mem (c.pc d) with ⟨x | a, s₁⟩
  · rw [hresolve] at h
    cases h
    obtain ⟨-, hwindow⟩ := FetchStream.resolve_error hresolve
    exact ⟨FetchStream.forall_window_of_none hwindow, .inl rfl⟩
  rw [hresolve] at h
  dsimp only at h
  obtain ⟨page', hpage', -, hs₁⟩ := FetchStream.resolve_ok hs hresolve
  rw [c.pc_eq, mapForFetch_congr (c.pageOf_pcAt hd), hpage] at hpage'
  cases hpage'
  rcases hnear : readNear s₁ mem c.width (c.pc d) with ⟨x | e, s₂⟩
  · rw [hnear] at h
    cases h
    obtain ⟨rfl, -⟩ := readNear_error hd hs₁ hnear
    exact ⟨hs₁.current, .inl rfl⟩
  rw [hnear] at h
  dsimp only at h
  obtain ⟨hs₂, he, hlength, hholds⟩ := readNear_ok hd hs₁ hnear
  have hdecoded : e.decoded = decode c.width e.bytes := by rw [he]
  split_ifs at h with hcut
  · cases h
    exact ⟨hs₂.current, .inl rfl⟩
  · cases h
    rw [Bool.or_eq_true, not_or, Encoding.isCut_iff hdecoded] at hcut
    refine ⟨hs₂.current, .inr ⟨e, ⟨hd, .inr hcaps.1⟩, ?_, rfl⟩⟩
    rw [he]
    exact .near hlength hholds hcut.1

/-! ## Chains of encodings -/

/-- Encodings that follow each other from an offset on, whatever their bytes are. -/
def Sequence (c : CompileContext) : Nat → List Encoding → Prop
  | _, [] => True
  | o, e :: es =>
    c.place o < 4096 ∧ c.ShapedAt o e ∧ (es ≠ [] → e.GoesOn) ∧ Sequence c (o + e.length) es

theorem Sequence.singleton (ho : c.place o < 4096) (he : c.ShapedAt o e) : c.Sequence o [e] :=
  ⟨ho, he, fun h => absurd rfl h, trivial⟩

/-- Encodings that follow each other in memory from an offset on. -/
def Chain (c : CompileContext) (mem : M) (page : UInt64) : Nat → List Encoding → Prop
  | _, [] => True
  | o, e :: es =>
    c.CanStart o ∧ c.Reads mem page o e ∧ (es ≠ [] → e.GoesOn) ∧
      Chain c mem page (o + e.length) es

theorem Chain.singleton (hstart : c.CanStart o) (he : c.Reads mem page o e) :
    c.Chain mem page o [e] :=
  ⟨hstart, he, fun h => absurd rfl h, trivial⟩

theorem Chain.sequence {es : List Encoding} (h : c.Chain mem page o es) : c.Sequence o es := by
  induction es generalizing o with
  | nil => trivial
  | cons e es ih =>
    obtain ⟨hstart, he, hgoes, hes⟩ := h
    exact ⟨hstart.1, he.shapedAt, hgoes, ih hes⟩

/-- An instruction ends on the page that it starts on if there is room for it. -/
theorem pageOf_add_eq_iff {pc : UInt64} {n : Nat} (hn : n ≤ maxInstructionLength) :
    pageOf (pc + n.toUInt64) = pageOf pc ↔ pc.toNat % 4096 + n < 4096 := by
  have hmax : maxInstructionLength = 15 := rfl
  have htop := pc.toNat_lt
  have hword : n.toUInt64.toNat = n := toNat_toUInt64 (by omega)
  rw [pageOf_eq_iff, UInt64.toNat_add, hword]
  omega

/-- After an encoding that goes on there is room on the page. -/
theorem place_append {d : Draft} (hd : c.place d.size < 4096)
    (he : e.length ≤ maxInstructionLength)
    (h : pageOf (c.pc d + e.length.toUInt64) = pageOf (c.pc d)) :
    c.place (d.size + e.length) < 4096 := by
  rw [pageOf_add_eq_iff he, c.pc_eq, c.pcAt_mod hd] at h
  rwa [place, Nat.add_assoc] at h

/-- What follows an encoding that has been accepted is a chain if that encoding is one. -/
theorem extend_accept {fuel : Nat} {s s' : FetchStream} {d : Draft} {q : Progress}
    (hextend : ∀ {d : Draft} {s : FetchStream}, c.place d.size < 4096 → s.Current mem →
      c.extend mem fuel (.more d) s = (q, s') →
      s'.Current mem ∧ ∃ es, c.Chain mem page d.size es ∧ q.Has (es.foldl c.append d))
    (hstart : c.CanStart d.size) (he : c.Reads mem page d.size e) (hs : s.Current mem)
    (h : c.extend mem fuel (c.accept d (c.pc d) e) s = (q, s')) :
    s'.Current mem ∧ ∃ es, c.Chain mem page d.size (e :: es) ∧
      q.Has ((e :: es).foldl c.append d) := by
  obtain hfinished | ⟨hmore, hgoes, hpc⟩ := c.accept_cases d (c.pc d) e
  · rw [hfinished, extend_finished] at h
    cases h
    exact ⟨hs, [], .singleton hstart he, .inr rfl⟩
  · rw [hmore] at h
    have hplace := place_append hstart.1 (Encoding.length_le he.decoded) hpc
    obtain ⟨hs', es, hchain, hq⟩ := hextend hplace hs h
    exact ⟨hs', es, ⟨hstart, he, fun _ => hgoes, hchain⟩, hq⟩

/-- Later encodings are a chain. -/
theorem extend_more (hpage : mapForFetch mem c.start c.cpu.cpl = .ok page) (fuel : Nat)
    {d : Draft} {s s' : FetchStream} {q : Progress} (hd : c.place d.size < 4096)
    (hs : s.Current mem) (h : c.extend mem fuel (.more d) s = (q, s')) :
    s'.Current mem ∧ ∃ es, c.Chain mem page d.size es ∧ q.Has (es.foldl c.append d) := by
  induction fuel generalizing d s with
  | zero =>
    cases h
    exact ⟨hs, [], trivial, .inl rfl⟩
  | succ fuel ih =>
    rw [extend] at h
    rcases hnext : c.nextStep mem s d with ⟨p, s₁⟩
    rw [hnext] at h
    dsimp only at h
    obtain ⟨hs₁, rfl | ⟨e, hstart, he, rfl⟩⟩ := nextStep_cases hd hpage hs hnext
    · rw [extend_finished] at h
      cases h
      exact ⟨hs₁, [], trivial, .inr rfl⟩
    · obtain ⟨hs', es, hchain⟩ := extend_accept ih hstart he hs₁ h
      exact ⟨hs', e :: es, hchain⟩

/-! ## Blocks -/

/-- The draft that a block starts from. -/
def emptyDraft (physPc : UInt64) : Draft where
  first := ⟨physPc, 0⟩

end CompileContext

open CompileContext

variable {cpu : Cpu} {mem : M} {s s' : FetchStream} {flags : ModeFlags} {config : Config}

/-- How compiling ends: the first page is not mapped, the first encoding cannot be read, or a block
    is made from a chain of encodings. Whatever the fetch window shows is in memory afterwards. -/
theorem compileBlock_cases {r : Except CompileFault Block}
    (hwidth : flags.codeWidth = cpu.codeWidth) (hs : s.Current mem)
    (h : compileBlock cpu mem s flags config = (r, s')) :
    s'.Current mem ∧
      ((∃ x, mapForFetch mem cpu.linearPc cpu.cpl = .error x ∧ r = .error ⟨cpu.linearPc, x⟩) ∨
        ∃ page, mapForFetch mem cpu.linearPc cpu.cpl = .ok page ∧
          ((∃ x, FirstFails ⟨cpu, flags, config⟩ mem page x ∧ r = .error ⟨cpu.linearPc, x⟩) ∨
            ∃ physPc e es, physPc.toNat = page.toNat + cpu.linearPc.toNat % 4096 ∧
              Chain ⟨cpu, flags, config⟩ mem page 0 (e :: es) ∧
              r = .ok (finish ⟨cpu, flags, config⟩
                ((e :: es).foldl (append ⟨cpu, flags, config⟩) (emptyDraft physPc))))) := by
  have hstart : start ⟨cpu, flags, config⟩ = cpu.linearPc := start_eq hwidth
  unfold compileBlock at h
  dsimp only at h
  rcases hresolve : s.resolve cpu mem cpu.linearPc with ⟨x | physPc, s₁⟩
  · rw [hresolve] at h
    cases h
    obtain ⟨hmapped, hwindow⟩ := FetchStream.resolve_error hresolve
    exact ⟨FetchStream.forall_window_of_none hwindow, .inl ⟨x, hmapped, rfl⟩⟩
  rw [hresolve] at h
  dsimp only at h
  obtain ⟨page, hpage, hphysPc, hs₁⟩ := FetchStream.resolve_ok hs hresolve
  rw [← hstart] at hs₁
  have hpage' : mapForFetch mem (start ⟨cpu, flags, config⟩) cpu.cpl = .ok page := by
    rwa [hstart]
  rcases hfirst : firstStep ⟨cpu, flags, config⟩ mem s₁ (emptyDraft physPc) with ⟨p, s₂⟩
  unfold emptyDraft at hfirst
  rw [hfirst] at h
  dsimp only at h
  obtain ⟨hs₂, ⟨e, he, rfl⟩ | ⟨x, rfl, hfails⟩⟩ := firstStep_cases rfl hs₁ hfirst
  · rcases hextend : extend ⟨cpu, flags, config⟩ mem pageSize.toNat _ s₂ with ⟨q, s₃⟩
    rw [hextend] at h
    obtain ⟨hs₃, es, hchain, hq⟩ := extend_accept (extend_more hpage' _)
      ⟨place_zero_lt _, .inl rfl⟩ he hs₂ hextend
    have hr : r = .ok (finish ⟨cpu, flags, config⟩
        ((e :: es).foldl (append ⟨cpu, flags, config⟩) (emptyDraft physPc))) ∧ s' = s₃ := by
      obtain rfl | rfl := hq
      · cases h
        exact ⟨rfl, rfl⟩
      · cases h
        exact ⟨rfl, rfl⟩
    obtain ⟨hr, rfl⟩ := hr
    exact ⟨hs₃, .inr ⟨page, hpage, .inr ⟨physPc, e, es, hphysPc, hchain, hr⟩⟩⟩
  · rw [extend_fault] at h
    cases h
    exact ⟨hs₂, .inr ⟨page, hpage, .inl ⟨x, hfails, rfl⟩⟩⟩

theorem current_compileBlock (hwidth : flags.codeWidth = cpu.codeWidth) (hs : s.Current mem) :
    (compileBlock cpu mem s flags config).2.Current mem :=
  (compileBlock_cases (r := (compileBlock cpu mem s flags config).1) hwidth hs rfl).1

/-- **A block is made from a chain of encodings**, of which there is at least one. -/
theorem compileBlock_ok {b : Block} (hwidth : flags.codeWidth = cpu.codeWidth)
    (hs : s.Current mem) (h : compileBlock cpu mem s flags config = (.ok b, s')) :
    ∃ page physPc e es, mapForFetch mem cpu.linearPc cpu.cpl = .ok page ∧
      physPc.toNat = page.toNat + cpu.linearPc.toNat % 4096 ∧
      Chain ⟨cpu, flags, config⟩ mem page 0 (e :: es) ∧
      b = finish ⟨cpu, flags, config⟩
        ((e :: es).foldl (append ⟨cpu, flags, config⟩) (emptyDraft physPc)) := by
  obtain ⟨-, ⟨x, -, ⟨⟩⟩ | ⟨page, hpage, ⟨x, -, ⟨⟩⟩ | ⟨physPc, e, es, hphysPc, hchain, ⟨⟩⟩⟩⟩ :=
    compileBlock_cases hwidth hs h
  exact ⟨page, physPc, e, es, hpage, hphysPc, hchain, rfl⟩

/-- **A block cannot be made only if its first encoding cannot be fetched.** -/
theorem compileBlock_error {f : CompileFault} (hwidth : flags.codeWidth = cpu.codeWidth)
    (hs : s.Current mem) (h : compileBlock cpu mem s flags config = (.error f, s')) :
    f.pc = cpu.linearPc ∧ (mapForFetch mem cpu.linearPc cpu.cpl = .error f.exception ∨
      ∃ page, mapForFetch mem cpu.linearPc cpu.cpl = .ok page ∧
        FirstFails ⟨cpu, flags, config⟩ mem page f.exception) := by
  obtain ⟨-, ⟨x, hx, ⟨⟩⟩ | ⟨page, hpage, ⟨x, hx, ⟨⟩⟩ | ⟨physPc, e, es, -, -, ⟨⟩⟩⟩⟩ :=
    compileBlock_cases hwidth hs h
  · exact ⟨rfl, .inl hx⟩
  · exact ⟨rfl, .inr ⟨page, hpage, hx⟩⟩

/-! ## Fetch streams -/

/-- A property of streams that resolving establishes, if another one holds before, and that copying
    bytes keeps. -/
structure FetchStream.Kept (cpu : Cpu) (mem : M) (Q P : FetchStream → Prop) : Prop where
  weaken : ∀ s, P s → Q s
  resolve : ∀ s pc, Q s → P (s.resolve cpu mem pc).2
  copyBytes : ∀ s pc limit, P s → P (s.copyBytes mem pc limit).2

namespace FetchStream.Kept

variable {c : CompileContext} {Q P : FetchStream → Prop}

theorem readFar (h : Kept cpu mem Q P) (hs : P s) (width : CodeWidth) (pc : UInt64)
    (near : List UInt8) : P (readFar s cpu mem width pc near).2 := by
  have hresolve := h.resolve s (nextPage pc) (h.weaken s hs)
  unfold X86Replay.readFar
  generalize s.resolve cpu mem (nextPage pc) = r at hresolve ⊢
  obtain ⟨x | a, s₁⟩ := r
  · exact hresolve
  · exact h.copyBytes _ _ _ hresolve

theorem firstStep (h : Kept c.cpu mem Q P) (hs : P s) (d : Draft) :
    P (c.firstStep mem s d).2 := by
  have hnear : P (readNear s mem c.width (c.pc d)).2 := h.copyBytes s _ _ hs
  unfold CompileContext.firstStep
  dsimp only
  generalize readNear s mem c.width (c.pc d) = r at hnear ⊢
  obtain ⟨x | e, s₁⟩ := r
  · exact hnear
  · dsimp only
    split_ifs
    · have hfar := h.readFar hnear c.width (c.pc d) e.bytes
      dsimp only at hfar
      generalize X86Replay.readFar s₁ c.cpu mem c.width (c.pc d) e.bytes = r at hfar ⊢
      obtain ⟨x | f, s₂⟩ := r
      · exact hfar
      · exact hfar
    · exact hnear

theorem nextStep (h : Kept c.cpu mem Q P) (hs : P s) (d : Draft) : P (c.nextStep mem s d).2 := by
  have hresolve := h.resolve s (c.pc d) (h.weaken s hs)
  unfold CompileContext.nextStep
  dsimp only
  split_ifs
  · exact hs
  · generalize s.resolve c.cpu mem (c.pc d) = r at hresolve ⊢
    obtain ⟨x | a, s₁⟩ := r
    · exact hresolve
    · have hnear : P (readNear s₁ mem c.width (c.pc d)).2 := h.copyBytes s₁ _ _ hresolve
      dsimp only
      generalize readNear s₁ mem c.width (c.pc d) = r at hnear ⊢
      obtain ⟨x | e, s₂⟩ := r
      · exact hnear
      · dsimp only
        split_ifs
        · exact hnear
        · exact hnear

theorem extend (h : Kept c.cpu mem Q P) (hs : P s) (fuel : Nat) (p : Progress) :
    P (c.extend mem fuel p s).2 := by
  induction fuel generalizing p s with
  | zero => cases p <;> exact hs
  | succ fuel ih =>
    cases p with
    | more d => exact ih (h.nextStep hs d) _
    | finished d | fault e => exact hs

/-- **Compiling keeps what resolving and copying bytes keep.** -/
theorem compileBlock (h : Kept cpu mem Q P) (hs : Q s) (flags : ModeFlags) (config : Config) :
    P (compileBlock cpu mem s flags config).2 := by
  have hresolve := h.resolve s cpu.linearPc hs
  unfold X86Replay.compileBlock
  dsimp only
  generalize s.resolve cpu mem cpu.linearPc = r at hresolve ⊢
  obtain ⟨x | physPc, s₁⟩ := r
  · exact hresolve
  dsimp only
  have hfirst := firstStep (c := ⟨cpu, flags, config⟩) h hresolve { first := ⟨physPc, 0⟩ }
  dsimp only at hfirst
  generalize CompileContext.firstStep ⟨cpu, flags, config⟩ mem s₁ { first := ⟨physPc, 0⟩ } = r
    at hfirst ⊢
  obtain ⟨p, s₂⟩ := r
  have hextend := extend (c := ⟨cpu, flags, config⟩) h hfirst pageSize.toNat p
  dsimp only at hextend ⊢
  generalize CompileContext.extend ⟨cpu, flags, config⟩ mem pageSize.toNat p s₂ = r at hextend ⊢
  obtain ⟨d | d | x, s₃⟩ := r
  · exact hextend
  · exact hextend
  · exact hextend

end FetchStream.Kept

end X86Replay

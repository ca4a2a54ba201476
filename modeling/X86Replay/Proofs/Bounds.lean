import X86Replay.Proofs.Mode
import X86Replay.Proofs.TwinWindows
import Mathlib.Data.Nat.PSub

/-!
# Compiling stays inside its buffers

Compiling takes slices of a page and of an instruction, subtracts lengths from each other, and goes
round until a block is complete. Its functions have variants here that give up where a slice is out
of range, where a difference would be negative, and where the block has taken too many rounds.

* `FetchStream.Reachable`: the states that a fetch stream can get into, from whatever memory.
* `compileBlock?`: compiling that gives up.
* `Succeeds`: a variant does not give up, and gives what the plain function gives.
* `compileBlock_succeeds`: compiling never gives up, and makes a block of encodings that follow each
  other.
-/

namespace X86Replay

variable {M : Type} [GuestMemory M]

/-! ## Fetch streams -/

/-- The states of a fetch stream that was new once. Neither the processors nor the memories need
    have anything to do with each other, or with those of later calls. -/
inductive FetchStream.Reachable : FetchStream → Prop
  | new : Reachable {}
  | resolve {M : Type} [GuestMemory M] {s : FetchStream} (cpu : Cpu) (mem : M) (pc : UInt64) :
      Reachable s → Reachable (s.resolve cpu mem pc).2
  | copyBytes {M : Type} [GuestMemory M] {s : FetchStream} (mem : M) (pc : UInt64) (limit : Nat) :
      Reachable s → Reachable (s.copyBytes mem pc limit).2
  | drop {s : FetchStream} : Reachable s → Reachable s.drop
  | dropWritten {s : FetchStream} (start n : UInt64) :
      Reachable s → Reachable (s.dropWritten start n)

/-- The window is on whole pages, and no more has been read than a page. The bytes need not be those
    of any memory. -/
structure FetchWindow.WellFormed (w : FetchWindow) : Prop where
  linear : pageOf w.linear = w.linear
  physical : w.physical.toNat % 4096 = 0
  size : w.loaded.size ≤ 4096

theorem FetchWindow.WellFormed.loadTo {w w' : FetchWindow} {mem : M} {n : Nat} (h : w.WellFormed)
    (hload : w.loadTo mem n = .ok w') : w'.WellFormed := by
  obtain ⟨-, rfl⟩ | ⟨-, bytes, hread, rfl⟩ := loadTo_cases hload
  · exact h
  · refine ⟨h.linear, h.physical, ?_⟩
    have hlength := length_readBytes hread
    have hpage := target_le_page n
    have hsize := h.size
    have happend : (w.loaded ++ bytes.toArray).size = w.loaded.size + bytes.length := by
      simp
    show (w.loaded ++ bytes.toArray).size ≤ 4096
    omega

namespace FetchStream

variable {s s' : FetchStream} {cpu : Cpu} {mem : M} {pc : UInt64}

/-- The window of the stream, if there is one, is well-formed. -/
def WellFormed (s : FetchStream) : Prop :=
  ∀ w, s.window = some w → w.WellFormed

/-- The stream has a well-formed window on the page of a program counter. -/
def Placed (s : FetchStream) (pc : UInt64) : Prop :=
  ∃ w, s.window = some w ∧ w.WellFormed ∧ w.linear = pageOf pc

theorem Placed.wellFormed (h : s.Placed pc) : s.WellFormed := by
  obtain ⟨w, hw, hwell, -⟩ := h
  exact forall_window_of_some hw hwell

/-- A program counter that has been resolved is on the page of the window, and as far from the page
    start as its physical address. -/
theorem WellFormed.resolve_ok {a : UInt64} (h : s.WellFormed)
    (hresolve : s.resolve cpu mem pc = (.ok a, s')) :
    a.toNat % 4096 = pc.toNat % 4096 ∧ s'.Placed pc := by
  cases hfilter : s.window.filter (·.covers cpu pc) with
  | none =>
    rw [resolve_of_missing hfilter] at hresolve
    split at hresolve
    · cases hresolve
    · rename_i page hpage
      have haligned := mapForFetch_mod hpage
      cases hresolve
      refine ⟨?_, _, rfl, ⟨pageOf_pageOf pc, haligned, Nat.zero_le _⟩, rfl⟩
      rw [toNat_physicalOf rfl haligned]
      dsimp only
      omega
  | some w =>
    obtain ⟨hw, hcovers⟩ := Option.filter_eq_some_iff.1 hfilter
    rw [resolve_of_covers hw hcovers] at hresolve
    cases hresolve
    have hwell := h w hw
    have haligned := hwell.physical
    have hlinear := linear_of_covers hwell.linear hcovers
    refine ⟨?_, w, hw, hwell, hlinear⟩
    rw [toNat_physicalOf hlinear haligned]
    omega

theorem WellFormed.resolve (h : s.WellFormed) (cpu : Cpu) (mem : M) (pc : UInt64) :
    (s.resolve cpu mem pc).2.WellFormed := by
  rcases hresolve : s.resolve cpu mem pc with ⟨e | a, s'⟩
  · exact forall_window_of_none (resolve_error hresolve).2
  · exact (h.resolve_ok hresolve).2.wellFormed

theorem WellFormed.copyBytes (h : s.WellFormed) (mem : M) (pc : UInt64) (limit : Nat) :
    (s.copyBytes mem pc limit).2.WellFormed :=
  forall_window_copyBytes h (fun _ _ _ hw hload => hw.loadTo hload) pc limit

/-- **Whatever a fetch stream has been used for**, its window is well-formed. -/
theorem Reachable.wellFormed (h : s.Reachable) : s.WellFormed := by
  induction h with
  | new => exact forall_window_of_none rfl
  | resolve cpu mem pc _ ih => exact ih.resolve cpu mem pc
  | copyBytes mem pc limit _ ih => exact ih.copyBytes mem pc limit
  | drop _ _ => exact forall_window_of_none rfl
  | dropWritten start n _ ih =>
    unfold FetchStream.dropWritten
    split_ifs
    · exact forall_window_of_none rfl
    · exact ih

end FetchStream

/-! ## Variants that give up -/

/-- The elements from `i` up to `j`, unless that is out of range. -/
def slice? {α : Type} (a : Array α) (i j : Nat) : Option (List α) :=
  if i ≤ j ∧ j ≤ a.size then some (a.extract i j).toList else none

/-- Reading on, unless that is out of the page. -/
def FetchWindow.loadTo? (w : FetchWindow) (mem : M) (n : Nat) :
    Option (Except Exception FetchWindow) :=
  if n ≤ w.loaded.size ∨ w.loaded.size ≤ target n ∧ target n ≤ pageSize.toNat then
    some (w.loadTo mem n)
  else
    none

/-- Copying bytes, unless the program counter has not been resolved or a slice of the page or of the
    `limit` bytes is out of range. -/
def FetchStream.copyBytes? (s : FetchStream) (mem : M) (pc : UInt64) (limit : Nat) :
    Option (Except Exception (List UInt8) × FetchStream) := do
  let w ← s.window
  let offset ← Nat.psub pc.toNat w.linear.toNat
  let n := min (pageSize.toNat - offset) (min limit maxInstructionLength)
  match ← w.loadTo? mem (offset + n) with
  | .error e => return (.error e, s)
  | .ok w =>
    let bytes ← slice? w.loaded offset (offset + n)
    if bytes.length ≤ limit then return (.ok bytes, { s with window := some w }) else none

/-- Decoding bytes, unless they are more than the longest instruction has. -/
def encoding? (width : CodeWidth) (bytes : List UInt8) (crossing : Option (UInt64 × Nat)) :
    Option Encoding :=
  if bytes.length ≤ maxInstructionLength then some ⟨bytes, decode width bytes, crossing⟩ else none

/-- `readNear`, unless it gives up. -/
def readNear? (s : FetchStream) (mem : M) (width : CodeWidth) (pc : UInt64) :
    Option (Except Exception Encoding × FetchStream) := do
  match ← s.copyBytes? mem pc maxInstructionLength with
  | (.error e, s) => return (.error e, s)
  | (.ok bytes, s) =>
    let e ← encoding? width bytes none
    return (.ok e, s)

/-- `readFar`, unless it gives up. -/
def readFar? (s : FetchStream) (cpu : Cpu) (mem : M) (width : CodeWidth) (pc : UInt64)
    (near : List UInt8) : Option (Except Exception Encoding × FetchStream) := do
  match s.resolve cpu mem (nextPage pc) with
  | (.error e, s) => return (.error e, s)
  | (.ok page, s) =>
    let room ← Nat.psub maxInstructionLength near.length
    match ← s.copyBytes? mem (nextPage pc) room with
    | (.error e, s) => return (.error e, s)
    | (.ok far, s) =>
      let e ← encoding? width (near ++ far) (some (page, near.length))
      return (.ok e, s)

/-- The number of bytes on the next page, unless all bytes before it are more than the encoding
    has. -/
def Encoding.tailLength? (e : Encoding) : Option Nat :=
  match e.crossing, e.knownLength with
  | some (_, near), some n => Nat.psub n near
  | _, _ => some 0

namespace CompileContext

/-- `accept`, unless the encoding takes more bytes than there are or has fewer than are on the next
    page. -/
def accept? (c : CompileContext) (d : Draft) (pc : UInt64) (e : Encoding) : Option Progress := do
  let tail ← e.tailLength?
  let _ ← Nat.psub e.length tail
  if e.length ≤ e.bytes.length then return c.accept d pc e else none

/-- `firstStep`, unless it gives up. -/
def firstStep? (c : CompileContext) (mem : M) (s : FetchStream) (d : Draft) :
    Option (Progress × FetchStream) := do
  let pc := c.pc d
  match ← readNear? s mem c.width pc with
  | (.error e, s) => return (.fault e, s)
  | (.ok near, s) =>
    if near.isCut then
      match ← readFar? s c.cpu mem c.width pc near.bytes with
      | (.error e, s) => return (.fault e, s)
      | (.ok e, s) => return (← c.accept? d pc e, s)
    else
      return (← c.accept? d pc near, s)

/-- `nextStep`, unless it gives up. -/
def nextStep? (c : CompileContext) (mem : M) (s : FetchStream) (d : Draft) :
    Option (Progress × FetchStream) := do
  let pc := c.pc d
  if c.width.ipLimit < c.ip d || c.config.maxCalls < d.calls.size + c.callsPerInstruction then
    return (.finished d, s)
  else
    match s.resolve c.cpu mem pc with
    | (.error _, s) => return (.finished d, s)
    | (.ok _, s) =>
      match ← readNear? s mem c.width pc with
      | (.error _, s) => return (.finished d, s)
      | (.ok e, s) =>
        if e.isCut || c.config.maxOpcodeBytes < d.size + e.length then return (.finished d, s)
        else return (← c.accept? d pc e, s)

/-- `extend`, unless a step gives up or compiling still goes on after the given number of rounds. -/
def extend? (c : CompileContext) (mem : M) :
    Nat → Progress → FetchStream → Option (Progress × FetchStream)
  | 0, .more _, _ => none
  | rounds + 1, .more d, s => do
    let (p, s) ← c.nextStep? mem s d
    c.extend? mem rounds p s
  | _, p, s => some (p, s)

end CompileContext

/-- Compiling, unless a step gives up or there are more rounds than the caps allow instructions. -/
def compileBlock? (cpu : Cpu) (mem : M) (s : FetchStream) (flags : ModeFlags) (config : Config) :
    Option (Except CompileFault Block × FetchStream) := do
  let c : CompileContext := ⟨cpu, flags, config⟩
  let pc := cpu.linearPc
  match s.resolve cpu mem pc with
  | (.error e, s) => return (.error ⟨pc, e⟩, s)
  | (.ok physPc, s) =>
    let (p, s) ← c.firstStep? mem s { first := ⟨physPc, 0⟩ }
    match ← c.extend? mem (min config.maxCalls config.maxOpcodeBytes) p s with
    | (.more d, s) | (.finished d, s) => return (.ok (c.finish d), s)
    | (.fault e, s) => return (.error ⟨pc, e⟩, s)

/-! ## Nothing gives up -/

/-- A variant does not give up, and has the result of the plain computation, of which `P` holds. -/
structure Succeeds {α : Type} (checked : Option α) (plain : α) (P : α → Prop) : Prop where
  eq : checked = some plain
  holds : P plain

theorem slice?_of_le {α : Type} {a : Array α} {i j : Nat} (hij : i ≤ j) (hj : j ≤ a.size) :
    slice? a i j = some (a.extract i j).toList :=
  if_pos ⟨hij, hj⟩

theorem FetchWindow.loadTo?_eq {n : Nat} (hn : n ≤ 4096) (w : FetchWindow) (mem : M) :
    w.loadTo? mem n = some (w.loadTo mem n) := by
  refine if_pos ?_
  by_cases hle : n ≤ w.loaded.size
  · exact .inl hle
  · have htarget := le_target hn
    exact .inr ⟨by omega, target_le_page n⟩

/-- Bytes are copied from the page, as many as there are up to its end, the limit or the longest
    instruction. -/
theorem FetchStream.Placed.copyBytes {s : FetchStream} {pc : UInt64} (h : s.Placed pc) (mem : M)
    (limit : Nat) :
    Succeeds (s.copyBytes? mem pc limit) (s.copyBytes mem pc limit) fun r =>
      r.2.Placed pc ∧ ∀ bytes, r.1 = .ok bytes →
        bytes.length = min (4096 - pc.toNat % 4096) (min limit maxInstructionLength) := by
  obtain ⟨w, hw, hwell, hlinear⟩ := h
  have hsize : pageSize.toNat = 4096 := rfl
  have hmax : maxInstructionLength = 15 := rfl
  have hle : w.linear.toNat ≤ pc.toNat := by
    rw [hlinear, toNat_pageOf]
    omega
  have hoffset : pc.toNat - w.linear.toNat = pc.toNat % 4096 := by
    rw [hlinear, toNat_pageOf]
    omega
  have hplain : (pc - w.linear).toNat = pc.toNat % 4096 := by
    rw [hlinear, FetchWindow.toNat_sub_pageOf]
  unfold FetchStream.copyBytes? FetchStream.copyBytes
  simp only [hw, hplain, hsize, Nat.psub_eq_sub hle, hoffset, Option.bind_eq_bind, Option.bind_some]
  generalize hn : min (4096 - pc.toNat % 4096) (min limit maxInstructionLength) = n
  rw [FetchWindow.loadTo?_eq (by omega), Option.bind_some]
  cases hload : w.loadTo mem (pc.toNat % 4096 + n) with
  | error e =>
    refine ⟨rfl, ⟨w, hw, hwell, hlinear⟩, ?_⟩
    rintro bytes ⟨⟩
  | ok w' =>
    have hloaded := FetchWindow.le_size_of_loadTo hload (by omega)
    have hpage : w'.linear = w.linear := by rw [FetchWindow.samePage_of_loadTo hload]
    have hlength :
        (w'.loaded.extract (pc.toNat % 4096) (pc.toNat % 4096 + n)).toList.length = n := by
      rw [Array.length_toList, Array.size_extract]
      omega
    refine ⟨?_, ⟨w', rfl, hwell.loadTo hload, hpage.trans hlinear⟩, ?_⟩
    · dsimp only
      rw [slice?_of_le (Nat.le_add_right _ _) hloaded, Option.bind_some, if_pos (by omega)]
      rfl
    · rintro bytes ⟨⟩
      exact hlength

theorem encoding?_of_le {width : CodeWidth} {bytes : List UInt8}
    (h : bytes.length ≤ maxInstructionLength) (crossing : Option (UInt64 × Nat)) :
    encoding? width bytes crossing = some ⟨bytes, decode width bytes, crossing⟩ :=
  if_pos h

namespace CompileContext

variable {c : CompileContext} {mem : M} {s : FetchStream} {d : Draft} {e : Encoding} {o : Nat}

theorem readNear_succeeds (mem : M) (hd : c.place d.size < 4096) (hs : s.Placed (c.pc d)) :
    Succeeds (readNear? s mem c.width (c.pc d)) (readNear s mem c.width (c.pc d)) fun r =>
      r.2.Placed (c.pc d) ∧ ∀ e, r.1 = .ok e →
        e = ⟨e.bytes, decode c.width e.bytes, none⟩ ∧
          e.bytes.length = min (4096 - c.place d.size) maxInstructionLength := by
  obtain ⟨hchecked, hplaced, hlength⟩ := hs.copyBytes mem maxInstructionLength
  rw [c.pc_eq, c.pcAt_mod hd, ← c.pc_eq, Nat.min_self] at hlength
  unfold readNear? readNear
  rw [hchecked]
  generalize s.copyBytes mem (c.pc d) maxInstructionLength = r at hplaced hlength
  obtain ⟨x | bytes, s'⟩ := r
  · refine ⟨rfl, hplaced, ?_⟩
    rintro e ⟨⟩
  · have hbytes := hlength bytes rfl
    refine ⟨?_, hplaced, ?_⟩
    · simp only [Option.bind_eq_bind, Option.bind_some]
      rw [encoding?_of_le (by omega)]
      rfl
    · rintro e ⟨⟩
      exact ⟨rfl, hbytes⟩

theorem readFar_succeeds (c : CompileContext) (mem : M) (pc : UInt64) {near : List UInt8}
    (hs : s.WellFormed) (hnear : near.length ≤ maxInstructionLength) :
    Succeeds (readFar? s c.cpu mem c.width pc near) (readFar s c.cpu mem c.width pc near) fun r =>
      r.2.WellFormed ∧ ∀ e, r.1 = .ok e → ∃ far next, next.toNat % 4096 = 0 ∧
        far.length = maxInstructionLength - near.length ∧
        e = ⟨near ++ far, decode c.width (near ++ far), some (next, near.length)⟩ := by
  unfold readFar? readFar
  rcases hresolve : s.resolve c.cpu mem (nextPage pc) with ⟨x | next, s₁⟩
  · refine ⟨rfl, FetchStream.forall_window_of_none (FetchStream.resolve_error hresolve).2, ?_⟩
    rintro e ⟨⟩
  obtain ⟨hnext, hplaced⟩ := hs.resolve_ok hresolve
  rw [nextPage_mod] at hnext
  obtain ⟨hchecked, hplaced', hlength⟩ :=
    hplaced.copyBytes mem (maxInstructionLength - near.length)
  rw [nextPage_mod] at hlength
  simp only [Nat.psub_eq_sub hnear, hchecked, Option.bind_eq_bind, Option.bind_some]
  generalize s₁.copyBytes mem (nextPage pc) (maxInstructionLength - near.length) = r
    at hplaced' hlength ⊢
  obtain ⟨x | far, s₂⟩ := r
  · refine ⟨rfl, hplaced'.wellFormed, ?_⟩
    rintro e ⟨⟩
  · have hfar := hlength far rfl
    unfold maxInstructionLength at hfar
    refine ⟨?_, hplaced'.wellFormed, ?_⟩
    · dsimp only
      rw [encoding?_of_le]
      · rfl
      · rw [List.length_append]
        unfold maxInstructionLength at hnear ⊢
        omega
    · rintro e ⟨⟩
      refine ⟨far, next, hnext, ?_, rfl⟩
      unfold maxInstructionLength
      omega

/-- Bytes that do not decide are fewer than the encoding has. -/
theorem ShapedAt.lt_knownLength {next : UInt64} {n k : Nat} (h : c.ShapedAt o e)
    (hcrossing : e.crossing = some (next, n)) (hk : e.knownLength = some k) : n < k := by
  cases h with
  | near => cases hcrossing
  | @far near far _ _ _ hnear =>
    cases hcrossing
    unfold Encoding.knownLength at hk
    dsimp only at hk
    split at hk
    · rename_i i hi
      cases hk
      by_contra hle
      have hdecode : decode c.width near = .ok i :=
        decode_congr hi (List.take_append_of_le_length (Nat.le_of_not_lt hle)).symm
      rw [hnear] at hdecode
      cases hdecode
    · cases hk
      exact length_lt_of_unexpectedEnd hnear
    · cases hk

/-- An encoding that is accepted has all bytes that it takes, those on the next page among them. -/
theorem ShapedAt.accept?_eq (h : c.ShapedAt o e) (ho : c.place o < 4096) (d : Draft)
    (pc : UInt64) : c.accept? d pc e = some (c.accept d pc e) := by
  have hbytes := h.length_le_bytes ho
  have htail : ∃ tail, e.tailLength? = some tail ∧ tail ≤ e.length := by
    unfold Encoding.tailLength?
    split
    · rename_i next n k hcrossing hk
      have hlt := h.lt_knownLength hcrossing hk
      have hlength := Encoding.length_of_known hk
      exact ⟨k - n, Nat.psub_eq_sub hlt.le, by omega⟩
    · exact ⟨0, rfl, Nat.zero_le _⟩
  obtain ⟨tail, htail, hle⟩ := htail
  unfold accept?
  simp only [htail, Nat.psub_eq_sub hle, Option.bind_eq_bind, Option.bind_some]
  rw [if_pos hbytes]
  rfl

theorem firstStep_succeeds (mem : M) (hd : d.size = 0) (hs : s.Placed c.start) :
    Succeeds (c.firstStep? mem s d) (c.firstStep mem s d) fun r =>
      r.2.WellFormed ∧ ((∃ x, r.1 = .fault x) ∨
        ∃ e, c.ShapedAt 0 e ∧ r.1 = c.accept d (c.pc d) e) := by
  have hplace : c.place d.size < 4096 := hd ▸ c.place_zero_lt
  have hpc : c.pc d = c.start := by rw [c.pc_eq, hd, c.pcAt_zero]
  rw [← hpc] at hs
  obtain ⟨hnear, hplaced, hshape⟩ := readNear_succeeds mem hplace hs
  unfold firstStep? firstStep
  simp only [hnear, Option.bind_eq_bind, Option.bind_some]
  generalize readNear s mem c.width (c.pc d) = r at hplaced hshape
  obtain ⟨x | near, s₁⟩ := r
  · exact ⟨rfl, hplaced.wellFormed, .inl ⟨x, rfl⟩⟩
  obtain ⟨he, hlength⟩ := hshape near rfl
  have hdecoded : near.decoded = decode c.width near.bytes := by rw [he]
  rw [hd] at hlength
  dsimp only
  -- What is cut at the page end is read on; both reads leave a shape that fits an empty draft.
  by_cases hcut : near.isCut
  · rw [if_pos hcut, if_pos hcut]
    rw [Encoding.isCut_iff hdecoded] at hcut
    obtain ⟨hfar, hwell, hshape'⟩ := readFar_succeeds c mem (c.pc d) hplaced.wellFormed
      (length_lt_of_unexpectedEnd hcut).le
    simp only [hfar, Option.bind_some]
    generalize readFar s₁ c.cpu mem c.width (c.pc d) near.bytes = r at hwell hshape'
    obtain ⟨x | e, s₂⟩ := r
    · exact ⟨rfl, hwell, .inl ⟨x, rfl⟩⟩
    · obtain ⟨far, next, hnext, hfarLength, rfl⟩ := hshape' e rfl
      have hshaped := ShapedAt.far rfl hlength hcut hnext hfarLength
      refine ⟨?_, hwell, .inr ⟨_, hshaped, rfl⟩⟩
      simp only [hshaped.accept?_eq c.place_zero_lt, Option.bind_some]
      rfl
  · rw [if_neg hcut, if_neg hcut]
    rw [Encoding.isCut_iff hdecoded] at hcut
    have hshaped : c.ShapedAt 0 near := by
      rw [he]
      exact .near hlength hcut
    refine ⟨?_, hplaced.wellFormed, .inr ⟨near, hshaped, rfl⟩⟩
    simp only [hshaped.accept?_eq c.place_zero_lt, Option.bind_some]
    rfl

/-- The draft keeps to the caps. -/
structure Within (c : CompileContext) (d : Draft) : Prop where
  calls : d.calls.size ≤ c.config.maxCalls
  size : d.size ≤ c.config.maxOpcodeBytes

theorem size_calls_append (c : CompileContext) (d : Draft) (e : Encoding) :
    (c.append d e).calls.size = d.calls.size + c.callsPerInstruction := by
  unfold append callsPerInstruction
  dsimp only
  split_ifs <;> simp

theorem nextStep_succeeds (mem : M) (hd : c.place d.size < 4096) (hs : s.WellFormed) :
    Succeeds (c.nextStep? mem s d) (c.nextStep mem s d) fun r =>
      r.2.WellFormed ∧ (r.1 = .finished d ∨
        ∃ e, c.ShapedAt d.size e ∧ c.Within (c.append d e) ∧ r.1 = c.accept d (c.pc d) e) := by
  unfold nextStep? nextStep
  dsimp only
  split_ifs with hcaps
  · exact ⟨rfl, hs, .inl rfl⟩
  simp only [Bool.or_eq_true, decide_eq_true_eq, not_or, Nat.not_lt] at hcaps
  rcases hresolve : s.resolve c.cpu mem (c.pc d) with ⟨x | a, s₁⟩
  · exact ⟨rfl, FetchStream.forall_window_of_none (FetchStream.resolve_error hresolve).2, .inl rfl⟩
  obtain ⟨hnear, hplaced, hshape⟩ := readNear_succeeds mem hd (hs.resolve_ok hresolve).2
  simp only [hnear, Option.bind_eq_bind, Option.bind_some]
  generalize readNear s₁ mem c.width (c.pc d) = r at hplaced hshape
  obtain ⟨x | e, s₂⟩ := r
  · exact ⟨rfl, hplaced.wellFormed, .inl rfl⟩
  obtain ⟨he, hlength⟩ := hshape e rfl
  have hdecoded : e.decoded = decode c.width e.bytes := by rw [he]
  dsimp only
  split_ifs with hcut
  · exact ⟨rfl, hplaced.wellFormed, .inl rfl⟩
  · simp only [Bool.or_eq_true, decide_eq_true_eq, not_or, Nat.not_lt,
      Encoding.isCut_iff hdecoded] at hcut
    have hshaped : c.ShapedAt d.size e := by
      rw [he]
      exact .near hlength hcut.1
    have hcalls : (c.append d e).calls.size ≤ c.config.maxCalls := by
      rw [size_calls_append]
      exact hcaps.2
    refine ⟨?_, hplaced.wellFormed, .inr ⟨e, hshaped, ⟨hcalls, hcut.2⟩, rfl⟩⟩
    simp only [hshaped.accept?_eq hd, Option.bind_some]
    rfl

/-- The caps leave room for at most this many rounds, the last of which may add nothing. -/
def roundsLeft (c : CompileContext) (d : Draft) : Nat :=
  min (c.config.maxCalls - d.calls.size) (c.config.maxOpcodeBytes - d.size) + 1

theorem roundsLeft_append (hwithin : c.Within (c.append d e)) (hpos : 0 < e.length) :
    c.roundsLeft (c.append d e) < c.roundsLeft d := by
  have hcalls := hwithin.calls
  have hsize : d.size + e.length ≤ c.config.maxOpcodeBytes := hwithin.size
  have happend : (c.append d e).size = d.size + e.length := rfl
  have hone : 1 ≤ c.callsPerInstruction := by
    unfold callsPerInstruction
    split_ifs <;> decide
  unfold roundsLeft
  rw [size_calls_append] at hcalls ⊢
  omega

theorem extend?_finished (c : CompileContext) (mem : M) (rounds : Nat) (d : Draft)
    (s : FetchStream) : c.extend? mem rounds (.finished d) s = some (.finished d, s) := by
  cases rounds <;> rfl

theorem extend?_fault (c : CompileContext) (mem : M) (rounds : Nat) (x : Exception)
    (s : FetchStream) : c.extend? mem rounds (.fault x) s = some (.fault x, s) := by
  cases rounds <;> rfl

/-- Compiling has gone on from a draft with encodings that follow each other, within the caps. -/
structure Reaches (c : CompileContext) (d : Draft) (es : List Encoding)
    (r : Progress × FetchStream) : Prop where
  stream : r.2.WellFormed
  sequence : c.Sequence d.size es
  within : c.Within (es.foldl c.append d)
  has : r.1.Has (es.foldl c.append d)

/-- What an encoding that has been accepted is followed by goes on from it. -/
theorem extend_accept_succeeds (rounds fuel : Nat) (he : c.ShapedAt d.size e)
    (hd : c.place d.size < 4096) (hwithin : c.Within (c.append d e)) (hs : s.WellFormed)
    (hmore : c.place (c.append d e).size < 4096 →
      Succeeds (c.extend? mem rounds (.more (c.append d e)) s)
        (c.extend mem fuel (.more (c.append d e)) s)
        fun r => ∃ es, c.Reaches (c.append d e) es r) :
    Succeeds (c.extend? mem rounds (c.accept d (c.pc d) e) s)
      (c.extend mem fuel (c.accept d (c.pc d) e) s) fun r => ∃ es, c.Reaches d (e :: es) r := by
  obtain hfinished | ⟨haccept, hgoes, hpage⟩ := c.accept_cases d (c.pc d) e
  · rw [hfinished, extend?_finished, extend_finished]
    exact ⟨rfl, [], hs, .singleton hd he, hwithin, .inr rfl⟩
  · rw [haccept]
    obtain ⟨heq, es, hreaches⟩ :=
      hmore (place_append hd (Encoding.length_le he.decoded) hpage)
    exact ⟨heq, es, hreaches.stream, ⟨hd, he, fun _ => hgoes, hreaches.sequence⟩,
      hreaches.within, hreaches.has⟩

/-- **The caps bound the rounds**, and so does the end of the page. -/
theorem extend_succeeds (mem : M) {rounds fuel : Nat} (hd : c.place d.size < 4096)
    (hs : s.WellFormed) (hwithin : c.Within d) (hrounds : c.roundsLeft d ≤ rounds)
    (hfuel : 4096 - c.place d.size ≤ fuel) :
    Succeeds (c.extend? mem rounds (.more d) s) (c.extend mem fuel (.more d) s)
      fun r => ∃ es, c.Reaches d es r := by
  -- Every encoding that is accepted takes from both: the rounds left, and the rest of the page.
  induction rounds generalizing fuel d s with
  | zero =>
    unfold roundsLeft at hrounds
    omega
  | succ rounds ih =>
    obtain ⟨fuel, rfl⟩ : ∃ k, fuel = k + 1 := ⟨fuel - 1, by omega⟩
    obtain ⟨hstep, hs', hcases⟩ := nextStep_succeeds mem hd hs
    rw [extend?, extend_succ, hstep]
    simp only [Option.bind_eq_bind, Option.bind_some]
    generalize c.nextStep mem s d = r at hs' hcases
    obtain ⟨p, s'⟩ := r
    obtain rfl | ⟨e, he, hwithin', rfl⟩ := hcases
    · dsimp only
      rw [extend?_finished, extend_finished]
      exact ⟨rfl, [], hs', trivial, hwithin, .inr rfl⟩
    · have hpos := Encoding.length_pos he.decoded
      have hless := roundsLeft_append hwithin' hpos
      have hplace : c.place (c.append d e).size = c.place d.size + e.length :=
        (Nat.add_assoc _ _ _).symm
      obtain ⟨heq, es, hreaches⟩ := extend_accept_succeeds rounds fuel he hd hwithin' hs' fun hd' =>
        ih hd' hs' hwithin' (by omega) (by omega)
      exact ⟨heq, e :: es, hreaches⟩

end CompileContext

/-- Settings that are not refused leave room for an instruction with its check, and keep offsets in
    16 bits. -/
theorem Config.caps_of_validate {config : Config} (h : config.validate = .ok ()) :
    2 ≤ config.maxCalls ∧ maxInstructionLength ≤ config.maxOpcodeBytes ∧
      config.maxOpcodeBytes < 2 ^ 16 := by
  unfold validate at h
  split_ifs at h
  all_goals first
    | exact ⟨by omega, by omega, by omega⟩
    | cases h

open CompileContext

variable {cpu : Cpu} {mem : M} {s : FetchStream} {flags : ModeFlags} {config : Config}

/-- The caps leave room for the first encoding, whatever it is. -/
theorem within_first {c : CompileContext} {e : Encoding} (hconfig : c.config.validate = .ok ())
    (he : c.ShapedAt 0 e) (physPc : UInt64) : c.Within (c.append (emptyDraft physPc) e) := by
  obtain ⟨hcalls, hbytes, -⟩ := c.config.caps_of_validate hconfig
  have hlength := Encoding.length_le he.decoded
  refine ⟨?_, ?_⟩
  · have hcount : c.callsPerInstruction ≤ 2 := by
      unfold callsPerInstruction
      split_ifs <;> decide
    have hempty : (emptyDraft physPc).calls.size = 0 := rfl
    rw [size_calls_append]
    omega
  · show 0 + e.length ≤ c.config.maxOpcodeBytes
    omega

/-- The first encoding takes one of the rounds that the caps leave, and no more fuel is needed than
    the page has bytes. -/
theorem extend_first_succeeds {c : CompileContext} {e : Encoding} (mem : M)
    (hconfig : c.config.validate = .ok ()) (he : c.ShapedAt 0 e) (hs : s.WellFormed)
    (physPc : UInt64) :
    Succeeds
      (c.extend? mem (min c.config.maxCalls c.config.maxOpcodeBytes)
        (c.accept (emptyDraft physPc) (c.pc (emptyDraft physPc)) e) s)
      (c.extend mem pageSize.toNat
        (c.accept (emptyDraft physPc) (c.pc (emptyDraft physPc)) e) s)
      fun r => ∃ es, c.Reaches (emptyDraft physPc) (e :: es) r := by
  have hwithin := within_first hconfig he physPc
  have hrounds := roundsLeft_append hwithin (Encoding.length_pos he.decoded)
  have hall : c.roundsLeft (emptyDraft physPc) =
      min c.config.maxCalls c.config.maxOpcodeBytes + 1 := rfl
  exact extend_accept_succeeds _ _ he c.place_zero_lt hwithin hs fun hd =>
    extend_succeeds mem hd hs hwithin (by omega) (Nat.sub_le _ _)

/-- The block is made of encodings that follow each other, within the caps. -/
def CompileContext.Assembles (c : CompileContext) (b : Block) : Prop :=
  ∃ physPc e es, physPc.toNat % 4096 = c.place 0 ∧ c.Sequence 0 (e :: es) ∧
    c.Within ((e :: es).foldl c.append (emptyDraft physPc)) ∧
    b = c.finish ((e :: es).foldl c.append (emptyDraft physPc))

theorem CompileContext.Reaches.assembles {c : CompileContext} {physPc : UInt64} {e : Encoding}
    {es : List Encoding} {r : Progress × FetchStream}
    (h : c.Reaches (emptyDraft physPc) (e :: es) r) (hphysPc : physPc.toNat % 4096 = c.place 0) :
    c.Assembles (c.finish ((e :: es).foldl c.append (emptyDraft physPc))) :=
  ⟨physPc, e, es, hphysPc, h.sequence, h.within, rfl⟩

/-- **Compiling never gives up**, and a block is made of encodings that follow each other, within
    the caps. -/
theorem compileBlock_succeeds (mem : M) (hconfig : config.validate = .ok ())
    (hwidth : flags.codeWidth = cpu.codeWidth) (hs : s.WellFormed) :
    Succeeds (compileBlock? cpu mem s flags config) (compileBlock cpu mem s flags config) fun r =>
      ∀ b, r.1 = .ok b → CompileContext.Assembles ⟨cpu, flags, config⟩ b := by
  have hstart : start ⟨cpu, flags, config⟩ = cpu.linearPc := start_eq hwidth
  have hcaps : CompileContext.config ⟨cpu, flags, config⟩ = config := rfl
  unfold compileBlock? compileBlock
  dsimp only
  generalize (⟨cpu, flags, config⟩ : CompileContext) = c at *
  subst hcaps
  rcases hresolve : s.resolve cpu mem cpu.linearPc with ⟨x | physPc, s₁⟩
  · refine ⟨rfl, ?_⟩
    rintro b ⟨⟩
  obtain ⟨hphysPc, hplaced⟩ := hs.resolve_ok hresolve
  rw [← hstart] at hplaced hphysPc
  have hempty : ({ first := ⟨physPc, 0⟩ } : Draft) = emptyDraft physPc := rfl
  dsimp only
  rw [hempty]
  -- The first turn may end in a fault, and no later one.
  obtain ⟨hfirst, hs₂, hcases⟩ := firstStep_succeeds (d := emptyDraft physPc) mem rfl hplaced
  simp only [hfirst, Option.bind_eq_bind, Option.bind_some]
  generalize c.firstStep mem s₁ (emptyDraft physPc) = r at hs₂ hcases
  obtain ⟨p, s₂⟩ := r
  obtain ⟨x, rfl⟩ | ⟨e, he, rfl⟩ := hcases
  · dsimp only
    rw [extend?_fault, extend_fault]
    refine ⟨rfl, ?_⟩
    rintro b ⟨⟩
  obtain ⟨heq, es, hreaches⟩ := extend_first_succeeds mem hconfig he hs₂ physPc
  have hassembles := hreaches.assembles hphysPc
  have hhas := hreaches.has
  dsimp only
  rw [heq]
  generalize c.extend mem pageSize.toNat (c.accept (emptyDraft physPc) _ e) s₂ = r at hhas
  obtain ⟨q, s₃⟩ := r
  obtain rfl | rfl := hhas
  · exact ⟨rfl, fun b hb => Except.ok.inj hb ▸ hassembles⟩
  · exact ⟨rfl, fun b hb => Except.ok.inj hb ▸ hassembles⟩

end X86Replay

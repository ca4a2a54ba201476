import X86Replay.Memory.Sparse
import X86Replay.Proofs.Bounds
import X86Replay.Proofs.MemoryMaps

/-!
# Where the 32-bit address space ends

Outside 64-bit mode linear addresses have 32 bits, but only that of the first byte of an access or
an instruction is cut to them. The start of the next page is not, so that what reaches past 4 GiB
goes on at 4 GiB instead of wrapping around to address zero.

* `Cpu.within_of_lt`: the addresses that a processor state outside 64-bit mode reaches are below
  4 GiB, but for the start of a page that is reached from the last one below.
* `MemoryMap.compileBlock_agrees`: a block depends on the translations of the code pages only.
* `Trapped`, `ReachesFourGiB`: a computation reaches 4 GiB if, where translating it raises an
  exception, the computation raises that exception.
* `Natural.commutesAt_iff`, `compileBlock_eq_iff`: computations that do not reach 4 GiB, and only
  those, do not depend on its translation.
* `commutesAt_of_lt`: accesses, steps and blocks do not depend on the translations of other
  addresses.
* `Wrapped`: memory with addresses of 32 bits.
* `wrapped_ne`: accesses and a step that would wrap in such memory, and go on at 4 GiB.
-/

namespace X86Replay

variable {N M : Type} [GuestMemory N] [GuestMemory M] {kept : UInt64 → Prop}

/-! ## The last page -/

/-- The first address that does not have 32 bits. -/
def fourGiB : UInt64 := 0x100000000

/-- The page after the one of an address of 32 bits starts at such an address or at 4 GiB. -/
theorem nextPage_lt_or_eq {a : UInt64} (h : a.toNat < 2 ^ 32) :
    (nextPage a).toNat < 2 ^ 32 ∨ nextPage a = fourGiB := by
  have hnext := toNat_nextPage a
  rw [← UInt64.toNat_inj, show fourGiB.toNat = 2 ^ 32 from rfl]
  omega

/-- Bytes that reach 4 GiB go on there. -/
theorem nextPage_of_reach {a : UInt64} {n : Nat} (h : a.toNat < 2 ^ 32) (hn : n ≤ 4096)
    (hreach : 2 ^ 32 < a.toNat + n) :
    nextPage a = fourGiB ∧ pageRoom a = 2 ^ 32 - a.toNat := by
  have hnext := toNat_nextPage a
  have hroom := pageRoom_eq a
  rw [← UInt64.toNat_inj, show fourGiB.toNat = 2 ^ 32 from rfl]
  omega

theorem mapSpans_of_reach (mem : M) (access : Access) (cpl : UInt8) {linear : UInt64} {n : Nat}
    (h : linear.toNat < 2 ^ 32) (hn : n ≤ 4096) (hreach : 2 ^ 32 < linear.toNat + n) :
    mapSpans mem linear n access cpl = do
      let first ← translate mem linear access cpl
      let second ← translate mem fourGiB access cpl
      return (⟨first, 2 ^ 32 - linear.toNat⟩, some ⟨second, linear.toNat + n - 2 ^ 32⟩) := by
  obtain ⟨hnext, hroom⟩ := nextPage_of_reach h hn hreach
  have hlt : 2 ^ 32 - linear.toNat < n := by omega
  have hrest : n - (2 ^ 32 - linear.toNat) = linear.toNat + n - 2 ^ 32 := by omega
  unfold mapSpans
  simp only [hnext, hroom, if_pos hlt, hrest]

/-- An access to bytes from an address of 32 bits is translated at such addresses and at 4 GiB, and
    at 4 GiB only if it reaches it. -/
theorem accessWithin_of_lt (hkept : ∀ a : UInt64, a.toNat < 2 ^ 32 → kept a) {linear : UInt64}
    {n : Nat} (hlinear : linear.toNat < 2 ^ 32)
    (hend : kept fourGiB ∨ linear.toNat + n ≤ 2 ^ 32) : AccessWithin kept linear n := by
  refine ⟨hkept linear hlinear, fun hroom => ?_⟩
  obtain hlt | heq := nextPage_lt_or_eq hlinear
  · exact hkept _ hlt
  · rw [heq]
    refine hend.resolve_right fun hle => ?_
    have hnext := toNat_nextPage linear
    rw [pageRoom_eq] at hroom
    rw [heq, show fourGiB.toNat = 2 ^ 32 from rfl] at hnext
    omega

namespace Cpu

variable {c : Cpu}

/-- Outside 64-bit mode the address of the next instruction has 32 bits. -/
theorem linearIp_lt {width : CodeWidth} (h : width ≠ .bits64) (c : Cpu) (ip : UInt64) :
    (c.linearIp width ip).toNat < 2 ^ 32 := by
  cases width with
  | bits64 => exact absurd rfl h
  | bits16 | bits32 =>
    show (((c.seg .cs).base + ip) &&& CodeWidth.bits32.ipLimit).toNat < 2 ^ 32
    rw [toNat_and_ipLimit]
    exact Nat.mod_lt _ (Nat.two_pow_pos 32)

theorem linearPc_lt (h : c.is64Bit = false) : c.linearPc.toNat < 2 ^ 32 :=
  linearIp_lt (by simpa [is64Bit] using h) c c.rip

/-- Outside 64-bit mode the address of an operand is the base plus the offset, cut to 32 bits, and
    the limit of the segment includes its last byte. -/
theorem linearAddress_ok (h : c.is64Bit = false) {s : SegmentName} {offset linear : UInt64}
    {size : OperandSize} {write : Bool}
    (hok : c.linearAddress s offset size.step write = .ok linear) :
    linear.toNat = ((c.seg s).base + offset).toNat % 2 ^ 32 ∧
      offset.toNat + size.bytes ≤ (c.seg s).limit.toNat + 1 := by
  have hlast : (size.step - 1).toNat = size.bytes - 1 := by cases size <;> rfl
  have hbytes : 0 < size.bytes ∧ size.bytes ≤ 8 := by cases size <;> decide
  unfold linearAddress at hok
  rw [h, if_neg Bool.false_ne_true] at hok
  dsimp only at hok
  split_ifs at hok with hfault
  cases hok
  simp only [Bool.or_eq_true, decide_eq_true_eq, not_or, UInt64.not_lt, UInt64.le_iff_toNat_le,
    UInt32.toNat_toUInt64, UInt64.toNat_add, hlast] at hfault
  refine ⟨toNat_and_ipLimit .bits32 _, ?_⟩
  have hoffset := offset.toNat_lt
  omega

/-- The next code bytes and all segments end in the first 4 GiB. -/
structure EndsBelow4GiB (c : Cpu) : Prop where
  code : c.linearPc.toNat + maxInstructionLength ≤ 2 ^ 32
  data : ∀ s, (c.seg s).base.toNat + (c.seg s).limit.toNat < 2 ^ 32

/-- **Outside 64-bit mode addresses have 32 bits, but for 4 GiB**, which is reached only from the
    last page. -/
theorem within_of_lt (hkept : ∀ a : UInt64, a.toNat < 2 ^ 32 → kept a) (h : c.is64Bit = false)
    (hend : kept fourGiB ∨ c.EndsBelow4GiB) : c.Within kept where
  code := by
    refine accessWithin_of_lt (fun a ha => hkept _ ?_) (linearPc_lt h) ?_
    · rw [toNat_pageOf]
      omega
    · exact hend.imp id EndsBelow4GiB.code
  data s offset size write linear hok := by
    obtain ⟨hlinear, hlimit⟩ := linearAddress_ok h hok
    refine accessWithin_of_lt hkept ?_ (hend.imp id fun hends => ?_)
    · rw [hlinear]
      exact Nat.mod_lt _ (Nat.two_pow_pos 32)
    · have hdata := hends.data s
      rw [hlinear, UInt64.toNat_add]
      omega

end Cpu

/-! ## Blocks -/

namespace MemoryMap

variable (φ : MemoryMap N M kept) (mem : N) (s : FetchStream) {E : Exception → Prop}

theorem resolve_eq (cpu : Cpu) {pc : UInt64} (h : kept (pageOf pc)) :
    s.resolve cpu (φ.toFun mem) pc = s.resolve cpu mem pc := by
  simp only [FetchStream.resolve, φ.mapForFetch_eq mem h]

/-- Resolving goes along with the map, unless translation raises one of the exceptions. -/
theorem resolve_agrees (cpu : Cpu) {pc : UInt64} (h : φ.Follows E (pageOf pc)) :
    (∃ e s', E e ∧ s.resolve cpu (φ.toFun mem) pc = (.error e, s')) ∨
      s.resolve cpu (φ.toFun mem) pc = s.resolve cpu mem pc := by
  unfold FetchStream.resolve
  split
  · exact .inr rfl
  · obtain ⟨e, he, hraises⟩ | hsame := φ.mapForFetch_agrees mem h cpu.cpl
    · exact .inl ⟨e, _, he, by rw [hraises]⟩
    · exact .inr (by rw [hsame])

theorem copyBytes_eq (pc : UInt64) (limit : Nat) :
    s.copyBytes (φ.toFun mem) pc limit = s.copyBytes mem pc limit := by
  simp only [FetchStream.copyBytes, FetchWindow.loadTo, φ.read]

theorem readNear_eq (width : CodeWidth) (pc : UInt64) :
    readNear s (φ.toFun mem) width pc = readNear s mem width pc := by
  rw [readNear, φ.copyBytes_eq, readNear]

theorem readFar_agrees (cpu : Cpu) (width : CodeWidth) {pc : UInt64}
    (h : φ.Follows E (pageOf (nextPage pc))) (near : List UInt8) :
    (∃ e s', E e ∧ readFar s cpu (φ.toFun mem) width pc near = (.error e, s')) ∨
      readFar s cpu (φ.toFun mem) width pc near = readFar s cpu mem width pc near := by
  unfold readFar
  simp only [φ.copyBytes_eq]
  obtain ⟨e, s₁, he, hraises⟩ | hsame := φ.resolve_agrees mem s cpu h
  · exact .inl ⟨e, s₁, he, by rw [hraises]⟩
  · exact .inr (by rw [hsame])

variable {c : CompileContext} {d : Draft}

theorem nextStep_eq (h : kept (pageOf (c.pc d))) :
    c.nextStep (φ.toFun mem) s d = c.nextStep mem s d := by
  simp only [CompileContext.nextStep, φ.resolve_eq mem _ c.cpu h, φ.readNear_eq]

theorem extend_eq (h : ∀ d, kept (pageOf (c.pc d))) (fuel : Nat) (p : Progress) :
    c.extend (φ.toFun mem) fuel p s = c.extend mem fuel p s := by
  induction fuel generalizing p s with
  | zero => rfl
  | succ fuel ih =>
    cases p with
    | more d =>
      rw [CompileContext.extend_succ, CompileContext.extend_succ, φ.nextStep_eq mem s (h d), ih]
    | finished d => rfl
    | fault e => rfl

/-- The first encoding depends on the translation of the next page only if it is cut. -/
theorem firstStep_agrees (hd : d.size = 0) (hs : s.Placed c.start)
    (h : pageRoom c.start < maxInstructionLength → φ.Follows E (pageOf (nextPage c.start))) :
    (∃ e s', E e ∧ c.firstStep (φ.toFun mem) s d = (.fault e, s')) ∨
      c.firstStep (φ.toFun mem) s d = c.firstStep mem s d := by
  have hpc : c.pc d = c.start := by rw [c.pc_eq, hd, c.pcAt_zero]
  have hplace : c.place d.size < 4096 := hd ▸ c.place_zero_lt
  have hshape := (CompileContext.readNear_succeeds mem hplace (hpc ▸ hs)).holds.2
  unfold CompileContext.firstStep
  simp only [φ.readNear_eq]
  rcases hnear : readNear s mem c.width (c.pc d) with ⟨x | near, s₁⟩
  · exact .inr rfl
  · dsimp only
    split
    · rename_i hcut
      obtain ⟨-, hlength⟩ := hshape near (by rw [hnear])
      have hshort : near.bytes.length < maxInstructionLength := by
        simp only [Encoding.isCut, Bool.and_eq_true, decide_eq_true_eq] at hcut
        exact hcut.1
      rw [hlength, hd, CompileContext.place] at hshort
      have hroom : pageRoom c.start < maxInstructionLength := by
        rw [pageRoom_eq]
        omega
      rw [hpc]
      obtain ⟨e, s₂, he, hraises⟩ | hsame :=
        φ.readFar_agrees mem s₁ c.cpu c.width (h hroom) near.bytes
      · exact .inl ⟨e, s₂, he, by rw [hraises]⟩
      · exact .inr (by rw [hsame])
    · exact .inr rfl

/-- **A block depends only on the translations of the pages that its code is on.** -/
theorem compileBlock_agrees {cpu : Cpu} {flags : ModeFlags} (config : Config)
    (hwidth : flags.codeWidth = cpu.codeWidth) (hs : s.WellFormed)
    (hcode : AccessWithin (fun a => φ.Follows E (pageOf a)) cpu.linearPc maxInstructionLength)
    (hlater : ∀ ip, kept (pageOf (cpu.linearIp cpu.codeWidth ip))) :
    (∃ e, E e ∧ (compileBlock cpu (φ.toFun mem) s flags config).1 = .error ⟨cpu.linearPc, e⟩) ∨
      compileBlock cpu (φ.toFun mem) s flags config = compileBlock cpu mem s flags config := by
  have hstart : CompileContext.start ⟨cpu, flags, config⟩ = cpu.linearPc :=
    CompileContext.start_eq hwidth
  unfold compileBlock
  obtain ⟨e, s₁, he, hraises⟩ | hsame := φ.resolve_agrees mem s cpu hcode.1
  · exact .inl ⟨e, he, by simp only [hraises]⟩
  · simp only [hsame]
    rcases hresolve : s.resolve cpu mem cpu.linearPc with ⟨x | physPc, s₁⟩
    · exact .inr rfl
    · have hplaced := (hs.resolve_ok hresolve).2
      have hlater' (d : Draft) : kept (pageOf (CompileContext.pc ⟨cpu, flags, config⟩ d)) := by
        show kept (pageOf (cpu.linearIp flags.codeWidth _))
        rw [hwidth]
        exact hlater _
      dsimp only
      obtain ⟨e, s₂, he, hfault⟩ | hfirst :=
        φ.firstStep_agrees mem s₁ (c := ⟨cpu, flags, config⟩) (d := { first := ⟨physPc, 0⟩ })
          rfl (hstart ▸ hplaced) (hstart ▸ hcode.2)
      · exact .inl ⟨e, he, by rw [hfault, CompileContext.extend_fault]⟩
      · exact .inr (by rw [hfirst, φ.extend_eq mem _ hlater'])

end MemoryMap

/-! ## Memory in which nothing is mapped at 4 GiB -/

/-- Memory in which translating 4 GiB raises the given exception. -/
structure Trapped (N : Type) where
  mem : N
  fault : Exception

namespace Trapped

instance : GuestMemory (Trapped N) where
  translate t a access cpl := if a = fourGiB then .error t.fault else translate t.mem a access cpl
  read t := GuestMemory.read t.mem
  write t start data :=
    ((GuestMemory.write t.mem start data).1, ⟨(GuestMemory.write t.mem start data).2, t.fault⟩)

/-- Nothing but the translation of 4 GiB is changed. -/
def trap (N : Type) [GuestMemory N] (e : Exception) (h : ¬ kept fourGiB) :
    MemoryMap N (Trapped N) kept where
  toFun mem := ⟨mem, e⟩
  translate mem a ha := by
    funext access cpl
    refine if_neg fun heq => h ?_
    rwa [heq] at ha
  read _ _ _ := rfl
  write _ _ _ := rfl

/-- All translations are the same, unless that of 4 GiB raises its exception. -/
theorem follows_trap (e : Exception) (h : ¬ kept fourGiB) (a : UInt64) :
    (trap N e h).Follows (· = e) a := by
  intro mem access cpl
  by_cases heq : a = fourGiB
  · exact .inl ⟨e, rfl, if_pos heq⟩
  · exact .inr (if_neg heq)

/-- A map goes along with trapping 4 GiB on both sides, and then it keeps that address too. -/
def lift (φ : MemoryMap N M kept) :
    MemoryMap (Trapped N) (Trapped M) fun a => kept a ∨ a = fourGiB where
  toFun t := ⟨φ.toFun t.mem, t.fault⟩
  translate t a ha := by
    funext access cpl
    show (if a = fourGiB then _ else translate (φ.toFun t.mem) a access cpl) = _
    split_ifs with heq
    · exact (if_pos heq).symm
    · rw [φ.translate t.mem a (ha.resolve_right heq)]
      exact (if_neg heq).symm
  read t := φ.read t.mem
  write t start data := by
    show ((GuestMemory.write (φ.toFun t.mem) start data).1, _) = _
    rw [φ.write]
    rfl

end Trapped

/-! ## What depends on 4 GiB -/

open Exec

section

variable {α : Type}

/-- Whatever exception translating 4 GiB raises, the computation raises it. -/
def ReachesFourGiB (f : Exec (Trapped N) α) (m : Machine N) : Prop :=
  ∀ e, (f ⟨m.cpu, ⟨m.mem, e⟩, m.log⟩).1 = .error e

/-- The computation does the same on every memory in which the addresses lead to the same places. -/
def DependsOnly (kept : UInt64 → Prop) (m : Machine N) (f : ∀ (L : Type) [GuestMemory L], Exec L α) :
    Prop :=
  ∀ (L : Type) [GuestMemory L] (ψ : MemoryMap N L kept), CommutesAt ψ m (f N) (f L)

/-- A computation on any memory that commutes with maps from where it reaches only addresses that go
    along with them. -/
structure Natural (f : ∀ (L : Type) [GuestMemory L], Exec L α) : Prop where
  commutes : ∀ {N M : Type} [GuestMemory N] [GuestMemory M] {kept : UInt64 → Prop}
    (φ : MemoryMap N M kept) (E : Exception → Prop) (m : Machine N),
    m.cpu.Within (φ.Follows E) → CommutesUpTo φ E m (f N) (f M)

theorem natural_readMem (s : SegmentName) (offset : UInt64) (size : OperandSize) :
    Natural fun L _ => readMem (M := L) s offset size :=
  ⟨fun _ _ m hm => (commutes_readMem s offset size m hm).1⟩

theorem natural_writeMem (s : SegmentName) (offset : UInt64) (size : OperandSize) (v : UInt64) :
    Natural fun L _ => writeMem (M := L) s offset size v :=
  ⟨fun _ _ m hm => (commutes_writeMem s offset size v m hm).1⟩

theorem natural_step : Natural fun L _ => step (M := L) :=
  ⟨fun _ _ m hm => (commutes_step m hm).1⟩

variable {f : ∀ (L : Type) [GuestMemory L], Exec L α} {m : Machine N}

/-- If trapping 4 GiB makes no difference, it may lead anywhere. -/
theorem Natural.commutesAt_of_not_raises (hf : Natural f)
    (hkept : ∀ a : UInt64, a.toNat < 2 ^ 32 → kept a) (h : m.cpu.is64Bit = false)
    (hk : ¬ kept fourGiB) {e : Exception} (φ : MemoryMap N M kept)
    (he : (f (Trapped N) (m.map (Trapped.trap N e hk))).1 ≠ .error e) :
    CommutesAt φ m (f N) (f M) := by
  have htrapped : CommutesAt (Trapped.trap N e hk) m (f N) (f (Trapped N)) := by
    obtain ⟨_, rfl, hraises⟩ | hsame := hf.commutes (Trapped.trap N e hk) (· = e) m
      (Cpu.within_of_forall (Trapped.follows_trap e hk) _)
    · exact absurd hraises he
    · exact hsame
  -- With 4 GiB trapped on both sides, its translation is kept.
  have hlift : CommutesAt (Trapped.lift φ) (m.map (Trapped.trap N e hk)) (f (Trapped N))
      (f (Trapped M)) :=
    (hf.commutes (Trapped.lift φ) (fun _ => False) _ (Cpu.within_of_lt
      (fun a ha => (Trapped.lift φ).follows_of_kept (.inl (hkept a ha))) h
      (.inl ((Trapped.lift φ).follows_of_kept (.inr rfl))))).commutesAt
  have hmapped : CommutesAt (Trapped.trap M e hk) (m.map φ) (f M) (f (Trapped M)) := by
    obtain ⟨_, rfl, hraises⟩ | hsame := hf.commutes (Trapped.trap M e hk) (· = e)
      (m.map φ) (Cpu.within_of_forall (Trapped.follows_trap e hk) _)
    · have hsame := congrArg Prod.fst hlift
      exact absurd (hsame.symm.trans hraises) he
    · exact hsame
  have hboth := hmapped.symm.trans hlift
  rw [htrapped] at hboth
  obtain ⟨hresult, hmachine⟩ := Prod.mk.inj hboth
  refine Prod.ext hresult ?_
  obtain ⟨hcpu, hmem, hlog⟩ := Machine.mk.inj hmachine
  exact (Machine.mk.injEq ..).mpr ⟨hcpu, (Trapped.mk.inj hmem).1, hlog⟩

/-- **Where 4 GiB leads makes no difference precisely if the computation does not reach it.** -/
theorem Natural.commutesAt_iff (hf : Natural f) (hkept : ∀ a : UInt64, a.toNat < 2 ^ 32 → kept a)
    (h : m.cpu.is64Bit = false) :
    DependsOnly kept m f ↔ kept fourGiB ∨ ¬ ReachesFourGiB (f (Trapped N)) m := by
  constructor
  · intro hall
    by_contra hnot
    obtain ⟨hk, hreaches⟩ := not_or.1 hnot
    have hraises (e : Exception) : (f N m).1 = .error e :=
      (congrArg Prod.fst (hall (Trapped N) (Trapped.trap N e hk))).symm.trans
        (not_not.1 hreaches e)
    have hsame := (hraises .divideError).symm.trans (hraises .debug)
    cases hsame
  · intro hend L _ ψ
    by_cases hk : kept fourGiB
    · exact (hf.commutes ψ (fun _ => False) m (Cpu.within_of_lt
        (fun a ha => ψ.follows_of_kept (hkept a ha)) h
        (.inl (ψ.follows_of_kept hk)))).commutesAt
    · obtain ⟨e, he⟩ := not_forall.1 (hend.resolve_left hk)
      exact hf.commutesAt_of_not_raises hkept h hk ψ he

end

section

variable {cpu : Cpu} {s : FetchStream} {flags : ModeFlags}

/-- Outside 64-bit mode a block is the same behind a map that keeps addresses of 32 bits, unless the
    translation of 4 GiB raises one of the exceptions. -/
theorem compileBlock_agrees_of_lt (φ : MemoryMap N M kept) (mem : N) {E : Exception → Prop}
    (hkept : ∀ a : UInt64, a.toNat < 2 ^ 32 → kept a) (h : cpu.is64Bit = false)
    (hwidth : flags.codeWidth = cpu.codeWidth) (hs : s.WellFormed) (config : Config)
    (hend : φ.Follows E fourGiB ∨ cpu.linearPc.toNat + maxInstructionLength ≤ 2 ^ 32) :
    (∃ e, E e ∧ (compileBlock cpu (φ.toFun mem) s flags config).1 = .error ⟨cpu.linearPc, e⟩) ∨
      compileBlock cpu (φ.toFun mem) s flags config = compileBlock cpu mem s flags config := by
  have hpage (a : UInt64) (ha : a.toNat < 2 ^ 32) : kept (pageOf a) := by
    refine hkept _ ?_
    rw [toNat_pageOf]
    omega
  exact φ.compileBlock_agrees mem s config hwidth hs
    (accessWithin_of_lt (fun a ha => φ.follows_of_kept (hpage a ha)) (Cpu.linearPc_lt h) hend)
    fun ip => hpage _ (Cpu.linearIp_lt (by simpa [Cpu.is64Bit] using h) cpu ip)

/-- **Where 4 GiB leads makes no difference to a block precisely if compiling does not reach it.** -/
theorem compileBlock_eq_iff (hkept : ∀ a : UInt64, a.toNat < 2 ^ 32 → kept a)
    (h : cpu.is64Bit = false) (mem : N) (hwidth : flags.codeWidth = cpu.codeWidth)
    (hs : s.WellFormed) (config : Config) :
    (∀ (L : Type) [GuestMemory L] (ψ : MemoryMap N L kept),
        compileBlock cpu (ψ.toFun mem) s flags config = compileBlock cpu mem s flags config) ↔
      kept fourGiB ∨
        ¬ ∀ e, (compileBlock cpu (Trapped.mk mem e) s flags config).1 =
          .error ⟨cpu.linearPc, e⟩ := by
  constructor
  · intro hall
    by_contra hnot
    obtain ⟨hk, hreaches⟩ := not_or.1 hnot
    have hraises (e : Exception) :
        (compileBlock cpu mem s flags config).1 = .error ⟨cpu.linearPc, e⟩ :=
      (congrArg Prod.fst (hall (Trapped N) (Trapped.trap N e hk))).symm.trans
        (not_not.1 hreaches e)
    have hsame := (hraises .divideError).symm.trans (hraises .debug)
    cases hsame
  · intro hend L _ ψ
    by_cases hk : kept fourGiB
    · obtain ⟨_, ⟨⟩, -⟩ | hsame := compileBlock_agrees_of_lt (E := fun _ => False) ψ mem hkept h
        hwidth hs config (.inl (ψ.follows_of_kept hk))
      exact hsame
    · obtain ⟨e, he⟩ := not_forall.1 (hend.resolve_left hk)
      obtain ⟨_, rfl, hraises⟩ | htrapped := compileBlock_agrees_of_lt (E := (· = e))
        (Trapped.trap N e hk) mem hkept h hwidth hs config (.inl (Trapped.follows_trap e hk _))
      · exact absurd hraises he
      -- With 4 GiB trapped on both sides, its translation is kept.
      obtain ⟨_, ⟨⟩, -⟩ | hlift := compileBlock_agrees_of_lt (E := fun _ => False) (Trapped.lift ψ)
        (Trapped.mk mem e) (fun a ha => .inl (hkept a ha)) h hwidth hs config
        (.inl ((Trapped.lift ψ).follows_of_kept (.inr rfl)))
      obtain ⟨_, rfl, hraises⟩ | hmapped := compileBlock_agrees_of_lt (E := (· = e))
        (Trapped.trap L e hk) (ψ.toFun mem) hkept h hwidth hs config
        (.inl (Trapped.follows_trap e hk _))
      · exact absurd ((congrArg Prod.fst hlift).symm.trans hraises) he
      · exact hmapped.symm.trans (hlift.trans htrapped)

end

/-! ## The address space -/

/-- **Outside 64-bit mode no linear address lies above 4 GiB.** Take two memories that differ only in
    where some addresses lead, none of which has 32 bits. An access, a step and a block are the same
    in both, unless they reach 4 GiB and it is one of those addresses; so they are whatever the other
    memory is precisely if they do not raise the exception that translating 4 GiB raises. Bytes past
    the last page do go on at 4 GiB. -/
theorem commutesAt_of_lt (φ : MemoryMap N M kept)
    (hkept : ∀ a : UInt64, a.toNat < 2 ^ 32 → kept a) (m : Machine N)
    (h : m.cpu.is64Bit = false) :
    (∀ (s : SegmentName) (offset : UInt64) (size : OperandSize),
      kept fourGiB ∨ ((m.cpu.seg s).base + offset).toNat % 2 ^ 32 + size.bytes ≤ 2 ^ 32 →
        CommutesAt φ m (readMem s offset size) (readMem s offset size) ∧
        ∀ v, CommutesAt φ m (writeMem s offset size v) (writeMem s offset size v)) ∧
    (∀ (s : SegmentName) (offset : UInt64) (size : OperandSize),
      (DependsOnly kept m (fun L _ => readMem (M := L) s offset size) ↔
        kept fourGiB ∨ ¬ ReachesFourGiB (readMem s offset size) m) ∧
      ∀ v, DependsOnly kept m (fun L _ => writeMem (M := L) s offset size v) ↔
        kept fourGiB ∨ ¬ ReachesFourGiB (writeMem s offset size v) m) ∧
    (kept fourGiB ∨ m.cpu.EndsBelow4GiB → CommutesAt φ m step step) ∧
    (DependsOnly kept m (fun L _ => step (M := L)) ↔ kept fourGiB ∨ ¬ ReachesFourGiB step m) ∧
    (∀ (s : FetchStream) (flags : ModeFlags) (config : Config), s.Reachable →
      flags.codeWidth = m.cpu.codeWidth →
      kept fourGiB ∨ m.cpu.linearPc.toNat + maxInstructionLength ≤ 2 ^ 32 →
        compileBlock m.cpu (m.map φ).mem s flags config =
          compileBlock m.cpu m.mem s flags config) ∧
    (∀ (s : FetchStream) (flags : ModeFlags) (config : Config), s.Reachable →
      flags.codeWidth = m.cpu.codeWidth →
      ((∀ (L : Type) [GuestMemory L] (ψ : MemoryMap N L kept),
          compileBlock m.cpu (m.map ψ).mem s flags config =
            compileBlock m.cpu m.mem s flags config) ↔
        kept fourGiB ∨ ¬ ∀ e, (compileBlock m.cpu (Trapped.mk m.mem e) s flags config).1 =
          .error ⟨m.cpu.linearPc, e⟩)) ∧
    ∀ (s : SegmentName) (offset : UInt64) (size : OperandSize) (write : Bool) (linear : UInt64)
      (access : Access) (cpl : UInt8),
      m.cpu.linearAddress s offset size.step write = .ok linear →
      2 ^ 32 < linear.toNat + size.bytes →
        mapSpans m.mem linear size.bytes access cpl = do
          let first ← translate m.mem linear access cpl
          let second ← translate m.mem fourGiB access cpl
          return (⟨first, 2 ^ 32 - linear.toNat⟩,
            some ⟨second, linear.toNat + size.bytes - 2 ^ 32⟩) := by
  have hlt {s offset linear} {size : OperandSize} {write}
      (hok : m.cpu.linearAddress s offset size.step write = .ok linear) :
      linear.toNat < 2 ^ 32 := by
    rw [(Cpu.linearAddress_ok h hok).1]
    exact Nat.mod_lt _ (Nat.two_pow_pos 32)
  refine ⟨fun s offset size hend => ?_,
    fun s offset size => ⟨(natural_readMem s offset size).commutesAt_iff hkept h,
      fun v => (natural_writeMem s offset size v).commutesAt_iff hkept h⟩,
    fun hend => ?_, natural_step.commutesAt_iff hkept h,
    fun s flags config hs hwidth hend => ?_,
    fun s flags config hs hwidth => compileBlock_eq_iff hkept h m.mem hwidth hs.wellFormed config,
    fun s offset size write linear access cpl hok hreach => ?_⟩
  · have hwithin (write : Bool) (linear : UInt64)
        (hok : m.cpu.linearAddress s offset size.step write = .ok linear) :
        AccessWithin (φ.Follows fun _ => False) linear size.bytes := by
      rw [← (Cpu.linearAddress_ok h hok).1] at hend
      exact accessWithin_of_lt (fun a ha => φ.follows_of_kept (hkept a ha)) (hlt hok)
        (hend.imp_left φ.follows_of_kept)
    exact ⟨(commutesUpTo_readMem (hwithin false)).commutesAt,
      fun v => (commutesUpTo_writeMem (hwithin true) v).commutesAt⟩
  · refine (natural_step.commutes φ (fun _ => False) m (Cpu.within_of_lt
      (fun a ha => φ.follows_of_kept (hkept a ha)) h ?_)).commutesAt
    exact hend.imp_left φ.follows_of_kept
  · obtain ⟨_, ⟨⟩, -⟩ | hsame := compileBlock_agrees_of_lt (E := fun _ => False) φ m.mem
      hkept h hwidth hs.wellFormed config (hend.imp_left φ.follows_of_kept)
    exact hsame
  · have hbytes : size.bytes ≤ 8 := by cases size <;> decide
    exact mapSpans_of_reach m.mem access cpl (hlt hok) (by omega) hreach

/-! ## Memory with addresses of 32 bits -/

/-- Memory in which linear addresses are cut to 32 bits. -/
structure Wrapped (M : Type) where
  mem : M

namespace Wrapped

instance : GuestMemory (Wrapped M) where
  translate w a := translate w.mem (a &&& CodeWidth.bits32.ipLimit)
  read w := GuestMemory.read w.mem
  write w start data :=
    ((GuestMemory.write w.mem start data).1, ⟨(GuestMemory.write w.mem start data).2⟩)

/-- The memory itself, in which addresses of 32 bits lead to the same places. -/
def unwrap : MemoryMap (Wrapped M) M fun a => a.toNat < 2 ^ 32 where
  toFun := mem
  translate w a h := by
    have hcut : a &&& CodeWidth.bits32.ipLimit = a := by
      rw [← UInt64.toNat_inj, Cpu.toNat_and_ipLimit]
      exact Nat.mod_eq_of_lt h
    show translate w.mem a = translate w.mem (a &&& CodeWidth.bits32.ipLimit)
    rw [hcut]
  read _ _ _ := rfl
  write _ _ _ := rfl

end Wrapped

/-- 32-bit code and data in segments of a limit that start on the last page below 4 GiB. -/
def Cpu.onLastPage (rip : UInt64) (limit : UInt32) : Cpu :=
  { flat32 with
    rip
    segments := (flat32.segments.set .cs ⟨0x08, 0xFFFFF000, limit, 0xC09B⟩).set .ds
      ⟨0x10, 0xFFFFF000, limit, 0xC093⟩ }

/-- The same for code that reaches 4 GiB. -/
def Cpu.straddling : Cpu :=
  .onLastPage 0xFFE 0xFFFFFFFF

/-- `MOV EAX, 0x11223344` over the last page below 4 GiB and the page at 4 GiB, and other bytes at
    address zero. -/
def SparseMemory.straddling : SparseMemory where
  bytes := entries 0x1FFE [0xB8, 0x44, 0x33, 0x22, 0x11] ++ entries 0x3000 [0x66, 0x55, 0x77]
  table := [(0xFFFFF000, 0x1000), (0x100000000, 0x2000), (0, 0x3000)]

/-- Below 4 GiB accesses, a step and a block are the same with addresses of 32 bits. An operand that
    reaches 4 GiB goes on there. -/
theorem commutesAt_of_lt_lastPage :
    (∃ m : Machine (Wrapped SparseMemory), m.cpu.is64Bit = false ∧ m.cpu.EndsBelow4GiB ∧
      (readMem .ds 0xFFC .bits32 (m.map Wrapped.unwrap)).1 = .ok 0x44B80000 ∧
      CommutesAt Wrapped.unwrap m (readMem .ds 0xFFC .bits32) (readMem .ds 0xFFC .bits32) ∧
      CommutesAt Wrapped.unwrap m (writeMem .ds 0xFFC .bits32 1) (writeMem .ds 0xFFC .bits32 1) ∧
      CommutesAt Wrapped.unwrap m step step ∧
      compileBlock m.cpu (m.map Wrapped.unwrap).mem {} (.ofCpu m.cpu .current false) {} =
        compileBlock m.cpu m.mem {} (.ofCpu m.cpu .current false) {}) ∧
    mapSpans SparseMemory.straddling 0xFFFFFFFE 4 .read 0 = .ok (⟨0x1FFE, 2⟩, some ⟨0x2000, 2⟩) := by
  constructor
  · obtain ⟨m, hm⟩ : ∃ m : Machine (Wrapped SparseMemory),
        m = ⟨.onLastPage 0 0xFFF, ⟨.straddling⟩, #[]⟩ := ⟨_, rfl⟩
    have h64 : m.cpu.is64Bit = false := by
      rw [hm]
      decide
    have hends : m.cpu.EndsBelow4GiB := by
      rw [hm]
      refine ⟨by decide, fun s => ?_⟩
      cases s <;> decide
    obtain ⟨haccess, -, hstep, -, hblock, -⟩ := commutesAt_of_lt Wrapped.unwrap (fun _ h => h) m h64
    obtain ⟨hread, hwrite⟩ := haccess .ds 0xFFC .bits32 (.inr (by rw [hm]; decide))
    refine ⟨m, h64, hends, ?_, hread, hwrite 1, hstep (.inr hends),
      hblock {} _ {} .new (ModeFlags.codeWidth_ofCpu _ .current false) (.inr hends.code)⟩
    rw [hm]
    decide
  · have φ : MemoryMap SparseMemory SparseMemory fun _ => True :=
      ⟨id, fun _ _ _ => rfl, fun _ _ _ => rfl, fun _ _ _ => rfl⟩
    obtain ⟨-, -, -, -, -, -, hreach⟩ := commutesAt_of_lt φ (fun _ _ => trivial)
      ⟨.straddling, SparseMemory.straddling, #[]⟩ (by decide)
    exact hreach .ds 0xFFE .bits32 false 0xFFFFFFFE .read 0 (by decide) (by decide)

/-- **The address space does not wrap at 4 GiB.** A load, a store and a step that reach 4 GiB go
    on there, and not at address zero, as they would if addresses had 32 bits. -/
theorem wrapped_ne :
    Cpu.straddling.is64Bit = false ∧ Cpu.straddling.rip ≤ Cpu.straddling.ripMask ∧
    ((readMem .ds 0xFFE .bits32 ⟨.straddling, SparseMemory.straddling, #[]⟩).1 = .ok 0x223344B8 ∧
      (readMem .ds 0xFFE .bits32 ⟨.straddling, Wrapped.mk SparseMemory.straddling, #[]⟩).1 =
        .ok 0x556644B8) ∧
    ((writeMem .ds 0xFFE .bits32 0 ⟨.straddling, SparseMemory.straddling, #[]⟩).2.log =
        #[⟨0x1FFE, 2⟩, ⟨0x2000, 2⟩] ∧
      (writeMem .ds 0xFFE .bits32 0 ⟨.straddling, Wrapped.mk SparseMemory.straddling, #[]⟩).2.log =
        #[⟨0x1FFE, 2⟩, ⟨0x3000, 2⟩]) ∧
    ((step ⟨.straddling, SparseMemory.straddling, #[]⟩).2.cpu.gprAt 0 = 0x11223344 ∧
      (step ⟨.straddling, Wrapped.mk SparseMemory.straddling, #[]⟩).2.cpu.gprAt 0 = 0x77556644) := by
  decide

end X86Replay

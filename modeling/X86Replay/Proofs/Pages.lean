import X86Replay.Block.Basic
import X86Replay.Fetch
import Mathlib.Algebra.Group.Nat.Defs
import Mathlib.Tactic.SplitIfs

/-!
# Pages and spans as numbers

Addresses are words of 64 bits; the facts about pages, ranges and spans are stated over the numbers
that the words stand for, where `omega` can use them.

* `toNat_add_toUInt64`: an address behind another one.
* `toNat_pageOf`, `toNat_pageOffset`, `pageRoom_eq`: the page of an address and the place in it.
* `or_pageOffset`: joining a page and an offset adds them.
* `CodeRange.meets_iff`, `FetchWindow.meets_iff`: a write meets code if and only if the two
  half-open ranges have a byte in common.
* `TouchesPage`: the pages that a write has a byte on. `CodeRange.exists_page_of_meets`: one of them
  is a page of the code that it meets.
-/

namespace X86Replay

/-! ## Addresses -/

/-- An address behind another one, before the end of the address space. -/
theorem toNat_add_toUInt64 {a : UInt64} {n : Nat} (h : a.toNat + n < 2 ^ 64) :
    (a + n.toUInt64).toNat = a.toNat + n := by
  have hn : n.toUInt64.toNat = n := UInt64.toNat_ofNat_of_lt' (by show n < 2 ^ 64; omega)
  rw [UInt64.toNat_add, hn, Nat.mod_eq_of_lt h]

/-- A read finds as many bytes as it is for. -/
theorem length_readBytes {M : Type} [GuestMemory M] {mem : M} {start : UInt64} {n : Nat}
    {bytes : List UInt8} (h : readBytes mem start n = .ok bytes) : bytes.length = n := by
  unfold readBytes at h
  cases hread : GuestMemory.read mem start n with
  | error e => rw [hread] at h; cases h
  | ok v =>
    rw [hread] at h
    cases h
    exact Vector.length_toList

/-! ## Pages -/

theorem toNat_pageOffset (a : UInt64) : (pageOffset a).toNat = a.toNat % 4096 := by
  rw [pageOffset, UInt64.toNat_and]
  exact Nat.and_two_pow_sub_one_eq_mod a.toNat 12

theorem toNat_pageOf (a : UInt64) : (pageOf a).toNat = a.toNat / 4096 * 4096 := by
  have hmask : (~~~(0xFFF : UInt64)).toNat = (2 ^ 52 - 1) <<< 12 := by decide
  have hlow : (a.toNat &&& (2 ^ 52 - 1) <<< 12) = (a.toNat >>> 12 &&& (2 ^ 52 - 1)) <<< 12 := by
    refine Nat.eq_of_testBit_eq fun i => ?_
    simp only [Nat.testBit_and, Nat.testBit_shiftLeft, Nat.testBit_shiftRight]
    by_cases h : 12 ≤ i
    · rw [show 12 + (i - 12) = i by omega, Bool.and_left_comm]
    · simp [h]
  have hlt := a.toNat_lt
  rw [pageOf, UInt64.toNat_and, hmask, hlow, Nat.and_two_pow_sub_one_eq_mod,
    Nat.shiftRight_eq_div_pow, Nat.shiftLeft_eq, Nat.mod_eq_of_lt (by omega)]

theorem pageOf_mod (a : UInt64) : (pageOf a).toNat % 4096 = 0 := by
  rw [toNat_pageOf]
  exact Nat.mul_mod_left _ _

/-- The start of a page is the start of its page. -/
theorem pageOf_eq_self {a : UInt64} (h : a.toNat % 4096 = 0) : pageOf a = a := by
  rw [← UInt64.toNat_inj, toNat_pageOf]
  omega

theorem pageOf_add_pageOffset (a : UInt64) : pageOf a + pageOffset a = a := by
  have htop := a.toNat_lt
  rw [← UInt64.toNat_inj, UInt64.toNat_add, toNat_pageOf, toNat_pageOffset]
  omega

theorem pageOf_eq_iff (a b : UInt64) : pageOf a = pageOf b ↔ a.toNat / 4096 = b.toNat / 4096 := by
  rw [← UInt64.toNat_inj, toNat_pageOf, toNat_pageOf]
  omega

theorem toNat_nextPage (a : UInt64) :
    (nextPage a).toNat = (a.toNat / 4096 * 4096 + 4096) % 2 ^ 64 := by
  rw [nextPage, UInt64.toNat_add, toNat_pageOf]
  rfl

theorem pageRoom_eq (a : UInt64) : pageRoom a = 4096 - a.toNat % 4096 := by
  have h := toNat_pageOffset a
  have hle : pageOffset a ≤ pageSize := by
    rw [UInt64.le_iff_toNat_le, h]
    exact Nat.le_of_lt (Nat.mod_lt _ (by decide : 0 < 4096))
  rw [pageRoom, UInt64.toNat_sub_of_le _ _ hle, h]
  rfl

/-- An offset in a page has no bit in common with the start of a page. -/
theorem or_pageOffset {p : UInt64} (h : p.toNat % 4096 = 0) (a : UInt64) :
    p ||| pageOffset a = p + pageOffset a := by
  have hoffset := toNat_pageOffset a
  have hp : p.toNat = 2 ^ 12 * (p.toNat / 4096) := by omega
  have hlt := p.toNat_lt
  rw [← UInt64.toNat_inj, UInt64.toNat_or, UInt64.toNat_add, hp,
    ← Nat.two_pow_add_eq_or_of_lt (by omega), ← hp]
  omega

/-- A place on a page, as a number. -/
theorem toNat_page_add_pageOffset {p : UInt64} (h : p.toNat % 4096 = 0) (a : UInt64) :
    (p + pageOffset a).toNat = p.toNat + a.toNat % 4096 := by
  have hlt := p.toNat_lt
  rw [UInt64.toNat_add, toNat_pageOffset]
  omega

/-! ## Spans and ranges -/

/-- The end of a span is held at the last address. -/
theorem toNat_spanEnd (start n : UInt64) :
    (spanEnd start n).toNat = min (start.toNat + n.toNat) (2 ^ 64 - 1) := by
  have hlast : (0xFFFFFFFFFFFFFFFF : UInt64).toNat = 2 ^ 64 - 1 := by decide
  unfold spanEnd UInt64.size
  split_ifs with h
  · rw [UInt64.toNat_add]
    omega
  · omega

/-- The bytes of a range, as numbers. -/
def CodeRange.Covers (r : CodeRange) (a : Nat) : Prop :=
  r.start.toNat ≤ a ∧ a < r.start.toNat + r.length.toNat

/-- A write meets a range that does not wrap if and only if they have a byte in common. -/
theorem CodeRange.meets_iff {r : CodeRange} (hr : r.start.toNat + r.length.toNat < 2 ^ 64)
    {start n : UInt64} :
    r.meets start n ↔ ∃ a, r.Covers a ∧ start.toNat ≤ a ∧ a < start.toNat + n.toNat := by
  have hfinish : r.finish.toNat = r.start.toNat + r.length.toNat := by
    rw [CodeRange.finish, UInt64.toNat_add, UInt32.toNat_toUInt64]
    omega
  have hend := toNat_spanEnd start n
  have hn : n = 0 ↔ n.toNat = 0 := by rw [← UInt64.toNat_inj]; rfl
  have hl : r.length = 0 ↔ r.length.toNat = 0 := by rw [← UInt32.toNat_inj]; rfl
  simp only [CodeRange.meets, CodeRange.Covers, Bool.and_eq_true, bne_iff_ne, ne_eq,
    decide_eq_true_eq, UInt64.lt_iff_toNat_lt, hfinish, hend, hn, hl]
  constructor
  · rintro ⟨⟨⟨hn, hl⟩, h₁⟩, h₂⟩
    exact ⟨max r.start.toNat start.toNat, by omega⟩
  · rintro ⟨a, ⟨h₁, h₂⟩, h₃, h₄⟩
    omega

/-- A write meets a window on an aligned page if and only if it has a byte on the page. -/
theorem FetchWindow.meets_iff {w : FetchWindow} (hw : w.physical.toNat + 4096 < 2 ^ 64)
    {start n : UInt64} :
    w.meets start n ↔
      ∃ a, w.physical.toNat ≤ a ∧ a < w.physical.toNat + 4096 ∧
        start.toNat ≤ a ∧ a < start.toNat + n.toNat := by
  have hfinish : (w.physical + pageSize).toNat = w.physical.toNat + 4096 := by
    rw [UInt64.toNat_add, show pageSize.toNat = 4096 from rfl]
    omega
  have hend := toNat_spanEnd start n
  have hn : n = 0 ↔ n.toNat = 0 := by rw [← UInt64.toNat_inj]; rfl
  simp only [FetchWindow.meets, Bool.and_eq_true, bne_iff_ne, ne_eq, decide_eq_true_eq,
    UInt64.lt_iff_toNat_lt, hfinish, hend, hn]
  constructor
  · rintro ⟨⟨hn, h₁⟩, h₂⟩
    exact ⟨max w.physical.toNat start.toNat, by omega⟩
  · rintro ⟨a, h₁, h₂, h₃, h₄⟩
    omega

/-! ## Numbers of pages -/

theorem toNat_shiftRight_twelve (a : UInt64) : (a >>> 12).toNat = a.toNat / 4096 := by
  rw [UInt64.toNat_shiftRight]
  exact Nat.shiftRight_eq_div_pow a.toNat 12

/-- `n` bytes from `start` have a byte on the page with the given number. -/
def TouchesPage (start n p : UInt64) : Prop :=
  ∃ a : UInt64, a >>> 12 = p ∧ start ≤ a ∧ a.toNat < start.toNat + n.toNat

theorem touchesPage_iff {start n p : UInt64} (hn : 0 < n) :
    TouchesPage start n p ↔ start >>> 12 ≤ p ∧ p ≤ spanEnd start (n - 1) >>> 12 := by
  have hpos : 0 < n.toNat := UInt64.lt_iff_toNat_lt.1 hn
  have hone : (n - 1).toNat = n.toNat - 1 := by
    have hle : 1 ≤ n := by
      rw [UInt64.le_iff_toNat_le, UInt64.toNat_one]
      omega
    rw [UInt64.toNat_sub_of_le _ _ hle, UInt64.toNat_one]
  have hstart := start.toNat_lt
  rw [UInt64.le_iff_toNat_le, UInt64.le_iff_toNat_le, toNat_shiftRight_twelve,
    toNat_shiftRight_twelve, toNat_spanEnd, hone]
  constructor
  · rintro ⟨a, rfl, hfirst, hlast⟩
    have ha := a.toNat_lt
    rw [UInt64.le_iff_toNat_le] at hfirst
    rw [toNat_shiftRight_twelve]
    omega
  · rintro ⟨hfirst, hlast⟩
    -- The first byte of the page, or of the span if it starts later.
    obtain ⟨a, ha⟩ : ∃ a : UInt64, a.toNat = max start.toNat (p.toNat * 4096) :=
      ⟨_, UInt64.toNat_ofNat_of_lt' (by show _ < 2 ^ 64; omega)⟩
    refine ⟨a, ?_, ?_, ?_⟩
    · rw [← UInt64.toNat_inj, toNat_shiftRight_twelve]
      omega
    · rw [UInt64.le_iff_toNat_le]
      omega
    · omega

namespace CodeRange

/-- A write that meets a range touches one of its pages. -/
theorem exists_page_of_meets {r : CodeRange} {start n : UInt64}
    (hr : r.start.toNat + r.length.toNat < 2 ^ 64) (h : r.meets start n) :
    ∃ p ∈ r.pages, TouchesPage start n p := by
  obtain ⟨k, ⟨hstart, hend⟩, hfirst, hlast⟩ := (meets_iff hr).1 h
  obtain ⟨a, rfl⟩ : ∃ a : UInt64, a.toNat = k :=
    ⟨_, UInt64.toNat_ofNat_of_lt' (by show _ < 2 ^ 64; omega)⟩
  refine ⟨a >>> 12, ?_, a, rfl, UInt64.le_iff_toNat_le.2 hfirst, hlast⟩
  have hfinish : r.finish.toNat = r.start.toNat + r.length.toNat := by
    rw [finish, UInt64.toNat_add, UInt32.toNat_toUInt64]
    omega
  have hne : r.finish ≠ 0 := by
    rintro hzero
    rw [hzero, UInt64.toNat_zero] at hfinish
    omega
  have hone : (r.finish - 1).toNat = r.start.toNat + r.length.toNat - 1 := by
    have hle : 1 ≤ r.finish := by
      rw [UInt64.le_iff_toNat_le, hfinish, UInt64.toNat_one]
      omega
    rw [UInt64.toNat_sub_of_le _ _ hle, hfinish, UInt64.toNat_one]
  unfold pages
  dsimp only
  rw [if_neg hne, toNat_shiftRight_twelve, toNat_shiftRight_twelve, hone]
  refine List.mem_map.2 ⟨(a >>> 12).toNat, ?_, UInt64.ofNat_toNat⟩
  rw [List.mem_range'_1, toNat_shiftRight_twelve]
  omega

end CodeRange

end X86Replay

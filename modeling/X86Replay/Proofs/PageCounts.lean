import X86Replay.Cache.Basic
import Mathlib.Algebra.Group.Nat.Defs
import Mathlib.Tactic.SplitIfs

/-!
# Counts of pages as words

A cache counts for every page how often its blocks list it, in words of 32 bits. Here the words are
kept beside the table of a `BlockCache`, whose counts have no bound, and change by change the two
stay equal as long as no count has to leave the range of a word.

* `PageChange.onWords`: one change. There is none above the greatest count or below zero.
* `Counts`: words and table that hold the same counts, without any zero.
* `Counts.countAll`, `Counts.discountAll`: the pages of a block are counted and taken back.
-/

namespace X86Replay

/-! ## Changes of counts -/

/-- A change of the counted pages. -/
inductive PageChange where
  | count (p : UInt64)
  | discount (p : UInt64)
  | clear

/-- The change where counts are words of 32 bits. There is none if a count would leave their
    range. -/
def PageChange.onWords (words : Std.HashMap UInt64 UInt32) :
    PageChange → Option (Std.HashMap UInt64 UInt32)
  | .count p =>
    let n := words.getD p 0
    if n = 0xFFFFFFFF then none else some (words.insert p (n + 1))
  | .discount p =>
    match words[p]? with
    | none => some words
    | some n =>
      if n = 0 then none
      else if n = 1 then some (words.erase p)
      else some (words.insert p (n - 1))
  | .clear => some ∅

/-- A table and words of 32 bits hold how often each page is used. A page that is not used is in
    neither. -/
structure Counts (words : Std.HashMap UInt64 UInt32) (table : Std.HashMap UInt64 Nat)
    (uses : UInt64 → Nat) : Prop where
  agrees : ∀ p : UInt64, words[p]?.map UInt32.toNat = table[p]?
  counted : ∀ p : UInt64, table[p]? = if uses p = 0 then none else some (uses p)

namespace Counts

variable {words : Std.HashMap UInt64 UInt32} {table : Std.HashMap UInt64 Nat}
  {uses uses' : UInt64 → Nat}

theorem empty (h : ∀ p, uses p = 0) : Counts ∅ ∅ uses where
  agrees p := by simp
  counted p := by simp [h]

theorem congr (h : Counts words table uses) (huses : ∀ p, uses' p = uses p) :
    Counts words table uses' := by
  rwa [funext huses]

theorem table_getD (h : Counts words table uses) (p : UInt64) : table.getD p 0 = uses p := by
  rw [Std.HashMap.getD_eq_getD_getElem?, h.counted]
  split_ifs with hp
  · exact hp.symm
  · rfl

theorem words_getD (h : Counts words table uses) (p : UInt64) :
    (words.getD p 0).toNat = uses p := by
  have hword := h.agrees p
  rw [← h.table_getD, Std.HashMap.getD_eq_getD_getElem?, Std.HashMap.getD_eq_getD_getElem?,
    ← hword]
  cases words[p]? <;> rfl

/-- A count is stored in both. -/
theorem insert (h : Counts words table uses) (q : UInt64) {n : UInt32} (hn : n.toNat ≠ 0) :
    Counts (words.insert q n) (table.insert q n.toNat)
      fun p => if q = p then n.toNat else uses p := by
  constructor
  · intro p
    rw [Std.HashMap.getElem?_insert, Std.HashMap.getElem?_insert]
    by_cases hp : q = p
    · simp [hp]
    · simp [hp, h.agrees]
  · intro p
    rw [Std.HashMap.getElem?_insert]
    by_cases hp : q = p
    · simp [hp, hn]
    · simp [hp, h.counted]

/-- A count is dropped from both. -/
theorem erase (h : Counts words table uses) (q : UInt64) :
    Counts (words.erase q) (table.erase q) fun p => if q = p then 0 else uses p := by
  constructor
  · intro p
    rw [Std.HashMap.getElem?_erase, Std.HashMap.getElem?_erase]
    by_cases hp : q = p
    · simp [hp]
    · simp [hp, h.agrees]
  · intro p
    rw [Std.HashMap.getElem?_erase]
    by_cases hp : q = p
    · simp [hp]
    · simp [hp, h.counted]

/-- A page can be counted as long as there is a greater word. -/
theorem count (h : Counts words table uses) (q : UInt64) (hroom : uses q + 1 < 2 ^ 32) :
    ∃ words', PageChange.onWords words (.count q) = some words' ∧
      Counts words' (table.insert q (table.getD q 0 + 1))
        fun p => uses p + if q = p then 1 else 0 := by
  have hword := h.words_getD q
  have hlast : words.getD q 0 ≠ 0xFFFFFFFF := by
    intro hq
    rw [hq, show (0xFFFFFFFF : UInt32).toNat = 2 ^ 32 - 1 by rfl] at hword
    omega
  have hnext : (words.getD q 0 + 1).toNat = uses q + 1 := by
    rw [UInt32.toNat_add, hword, UInt32.toNat_one]
    omega
  have hinsert := h.insert q (n := words.getD q 0 + 1) (by omega)
  rw [hnext] at hinsert
  refine ⟨_, if_neg hlast, ?_⟩
  rw [h.table_getD]
  refine hinsert.congr fun p => ?_
  split_ifs with hp
  · rw [hp]
  · rfl

/-- A page that is used can be taken back. -/
theorem discount (h : Counts words table uses) (q : UInt64) (hused : 0 < uses q) :
    ∃ words', PageChange.onWords words (.discount q) = some words' ∧
      Counts words' (BlockCache.discountPage table q)
        fun p => uses p - if q = p then 1 else 0 := by
  have htable : table[q]? = some (uses q) := by
    rw [h.counted, if_neg (by omega)]
  obtain ⟨n, hn, huses⟩ := Option.map_eq_some_iff.1 ((h.agrees q).trans htable)
  have hzero : n ≠ 0 := by
    rw [ne_eq, ← UInt32.toNat_inj, huses, UInt32.toNat_zero]
    omega
  have hone : n = 1 ↔ uses q ≤ 1 := by
    rw [← UInt32.toNat_inj, huses, UInt32.toNat_one]
    omega
  simp only [PageChange.onWords, BlockCache.discountPage, hn, htable, if_neg hzero, hone]
  by_cases hlast : uses q ≤ 1
  · refine ⟨words.erase q, if_pos hlast, ?_⟩
    rw [if_pos hlast]
    refine (h.erase q).congr fun p => ?_
    split_ifs with hp
    · rw [← hp]
      omega
    · rfl
  · have hle : 1 ≤ n := by
      rw [UInt32.le_iff_toNat_le, huses, UInt32.toNat_one]
      omega
    have hless : (n - 1).toNat = uses q - 1 := by
      rw [UInt32.toNat_sub_of_le _ _ hle, huses, UInt32.toNat_one]
    have hinsert := h.insert q (n := n - 1) (by omega)
    rw [hless] at hinsert
    refine ⟨words.insert q (n - 1), if_neg hlast, ?_⟩
    rw [if_neg hlast]
    refine hinsert.congr fun p => ?_
    split_ifs with hp
    · rw [hp]
    · rfl

/-- All pages of a list are counted. -/
theorem countAll (h : Counts words table uses) (pages : List UInt64)
    (hroom : ∀ p, uses p + pages.count p < 2 ^ 32) :
    ∃ words', (pages.map .count).foldlM PageChange.onWords words = some words' ∧
      Counts words' (pages.foldl (fun t p => t.insert p (t.getD p 0 + 1)) table)
        fun p => uses p + pages.count p := by
  induction pages generalizing words table uses with
  | nil => exact ⟨words, rfl, h⟩
  | cons q pages ih =>
    simp only [List.count_cons, beq_iff_eq] at hroom ⊢
    have hq := hroom q
    rw [if_pos rfl] at hq
    obtain ⟨words₁, hfirst, h₁⟩ := h.count q (by omega)
    obtain ⟨words', hrest, h'⟩ := ih h₁ fun p => by have hp := hroom p; omega
    refine ⟨words', ?_, h'.congr fun p => by omega⟩
    rw [List.map_cons, List.foldlM_cons, hfirst]
    exact hrest

/-- All pages of a list are taken back. -/
theorem discountAll (h : Counts words table uses) (pages : List UInt64)
    (hused : ∀ p, pages.count p ≤ uses p) :
    ∃ words', (pages.map .discount).foldlM PageChange.onWords words = some words' ∧
      Counts words' (pages.foldl BlockCache.discountPage table)
        fun p => uses p - pages.count p := by
  induction pages generalizing words table uses with
  | nil => exact ⟨words, rfl, h⟩
  | cons q pages ih =>
    simp only [List.count_cons, beq_iff_eq] at hused ⊢
    have hq := hused q
    rw [if_pos rfl] at hq
    obtain ⟨words₁, hfirst, h₁⟩ := h.discount q (by omega)
    obtain ⟨words', hrest, h'⟩ := ih h₁ fun p => by have hp := hused p; omega
    refine ⟨words', ?_, h'.congr fun p => by omega⟩
    rw [List.map_cons, List.foldlM_cons, hfirst]
    exact hrest

end Counts

end X86Replay

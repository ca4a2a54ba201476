import X86Replay.Proofs.Walks

/-!
# What the slots of a cache represent

After any operations on a new cache its links tell the same blocks in every direction, and the
operation that comes next walks over taken slots only.

* `BlockCache.Represents`: chains, recency list, free slots and size as they are read off the slots.
* `Linked.represents`: if the links of a cache agree, it is as described.
* `performAll_represents`: so it is for a new cache after any operations, and the walks of the next
  one stay among taken slots.
-/

namespace X86Replay

variable {c : BlockCache} {order : List Nat}

namespace BlockCache

/-! ## Slots as they are linked -/

/-- The blocks of the cache are those in the slots of `order`, most recently used first. -/
structure Represents (c : BlockCache) (order : List Nat) : Prop where
  /-- Every taken slot once, and no other. -/
  nodup : order.Nodup
  live : ∀ i, i ∈ order ↔ ∃ b, c.blockAt i = some b
  /-- The list from its front and from its back. -/
  older : Leads c.olderOf c.newest order
  newer : Leads c.newerOf c.oldest order.reverse
  /-- The chain of a bucket has the slots whose blocks belong there, each once. -/
  chains : ∀ q, ∃ chain : List Nat, Leads c.chainNextOf (c.chainHead q) chain ∧ chain.Nodup ∧
    ∀ i, i ∈ chain ↔ ∃ b, c.blockAt i = some b ∧ c.bucketOf b.physPc b.key = q
  free_nodup : c.free.Nodup
  free : ∀ i, i ∈ c.free ↔ i < c.slots.size ∧ c.blockAt i = none
  size : c.size = order.length
  size_le : c.size ≤ c.capacity
  slots_le : c.slots.size ≤ c.capacity

theorem Linked.represents (h : c.Linked order) : c.Represents order where
  nodup := h.recent.nodup
  live _ := h.mem_iff
  older := h.recent.older
  newer := h.recent.newer
  chains q := by
    obtain ⟨chain, hleads, hnodup, hmem⟩ := h.chained.chain q
    refine ⟨chain, hleads, hnodup, fun i => (hmem i).trans ?_⟩
    rw [← map_block_entry]
    constructor
    · rintro ⟨e, he, rfl⟩
      exact ⟨e.block, by rw [he]; rfl, (h.chained.bucket i e he).symm⟩
    · rintro ⟨b, hb, hq⟩
      obtain ⟨e, he, rfl⟩ := Option.map_eq_some_iff.1 hb
      exact ⟨e, he, (h.chained.bucket i e he).trans hq⟩
  free_nodup := h.free_nodup
  free := h.free
  size := h.size
  size_le := h.bounded
  slots_le := h.slots_le

/-! ## Caches after any operations -/

/-- **The slots of a cache represent its blocks after any operations**: chains, recency list in both
    directions, free slots and size agree, slots have numbers of 32 bits, and the walks of whatever
    operation comes next end and come to taken slots only. -/
theorem performAll_represents (capacity hashBits : Nat) (hcapacity : 1 ≤ capacity)
    (hindex : capacity < 2 ^ 32) (ops : List CacheOp) :
    ∃ order, ((empty capacity hashBits).performAll ops).2.Represents order ∧
      ((empty capacity hashBits).performAll ops).2.size ≤ capacity ∧
      ((empty capacity hashBits).performAll ops).2.slots.size < 2 ^ 32 ∧
      ∀ op, ∀ w ∈ ((empty capacity hashBits).performAll ops).2.walks op, w.staysLive := by
  obtain ⟨order, hlinked, hsame⟩ := (Linked.empty capacity hashBits).performAll ops
  have hkept : ((empty capacity hashBits).performAll ops).2.capacity = capacity :=
    hsame.trans (Nat.max_eq_left hcapacity)
  have hslots := hlinked.slots_le
  have hsize := hlinked.bounded
  exact ⟨order, hlinked.represents, by omega, by omega, hlinked.staysLive⟩

/-- The same for three blocks in one chain, when the second one in it has been removed. To remove
    the last one then, a walk of one slot is made. -/
theorem performAll_represents_collision :
    ∃ (block : UInt64 → Block) (c : BlockCache) (order : List Nat),
      c = ((empty 4 1).performAll [.insert (block 0), .insert (block 2), .insert (block 4),
        .remove ⟨1, 0⟩]).2 ∧
      c.Represents order ∧ order.length = 2 ∧ c.free = [1] ∧
      (c.newest, c.olderOf 2, c.olderOf 0) = (some 2, some 0, none) ∧
      (c.chainHead 0, c.chainNextOf 2, c.chainNextOf 0) = (some 2, some 0, none) ∧
      (c.walks (.remove ⟨0, 0⟩)).map ChainWalk.staysLive = [true] := by
  obtain ⟨block, hblock⟩ : ∃ block : UInt64 → Block, block = fun a =>
      ⟨a, a, ⟨0⟩, false, ⟨0, 0, 0, 0⟩, 1, [⟨a, 1⟩], [], 1⟩ := ⟨_, rfl⟩
  obtain ⟨order, hc, -, -, hwalks⟩ := performAll_represents 4 1 (by decide) (by decide)
    [.insert (block 0), .insert (block 2), .insert (block 4), .remove ⟨1, 0⟩]
  obtain ⟨c, hrun⟩ : ∃ c, c = ((empty 4 1).performAll [.insert (block 0), .insert (block 2),
    .insert (block 4), .remove ⟨1, 0⟩]).2 := ⟨_, rfl⟩
  rw [← hrun] at hc hwalks
  have hlinks : c.size = 2 ∧ c.free = [1] ∧
      (c.newest, c.olderOf 2, c.olderOf 0) = (some 2, some 0, none) ∧
      (c.chainHead 0, c.chainNextOf 2, c.chainNextOf 0) = (some 2, some 0, none) ∧
      (c.walks (.remove ⟨0, 0⟩)).length = 1 := by
    rw [hrun, hblock]
    decide +kernel
  obtain ⟨hsize, hfree, hrecent, hchain, hlength⟩ := hlinks
  refine ⟨block, c, order, hrun, hc, hc.size.symm.trans hsize, hfree, hrecent, hchain, ?_⟩
  obtain ⟨w, hw⟩ := List.length_eq_one_iff.1 hlength
  rw [hw, List.map_singleton, hwalks _ w (hw ▸ List.mem_singleton_self w)]

end BlockCache

end X86Replay

import X86Replay.Proofs.Recency

/-!
# Slots that operations empty one by one

Operations get rid of blocks by emptying slots one after another. An insertion empties the slot of
the block for the same code and then, from the back of the recency list, as many as make room; a
write empties all slots that it meets. What operations do on the way, walks along chains and changes
of counts, is told slot by slot.

* `BlockCache.removals`: the slots that an operation empties, in order.
* `BlockCache.perRemoval`: what each of them adds in the cache that it is emptied in.
* `makeRoom_eq`, `remove_eq_removeSlots`, `invalidate_eq_removeSlots`: counters apart, an operation
  does to the cache what emptying these slots does.
* `Linked.forall_perRemoval`: what holds of one slot of a cache whose links agree holds of them all.
-/

namespace X86Replay.BlockCache

variable {c : BlockCache} {order : List Nat} {i : Nat}

/-! ## Counters -/

section

variable (c) (stats : CacheStats)

theorem recencyRemove_withStats (i : Nat) :
    ({ c with stats } : BlockCache).recencyRemove i = { c.recencyRemove i with stats } := by
  have hentry : BlockCache.entry? { c with stats } i = c.entry? i := rfl
  unfold recencyRemove
  rw [hentry]
  rcases c.entry? i with _ | ⟨_, _, _, _ | _, _ | _⟩ <;> rfl

theorem chainBefore_withStats (i fuel : Nat) (start : Option Nat) :
    ({ c with stats } : BlockCache).chainBefore i fuel start = c.chainBefore i fuel start := by
  induction fuel generalizing start with
  | zero => cases start <;> rfl
  | succ fuel ih =>
    cases start with
    | none => rfl
    | some j =>
      rw [chainBefore, chainBefore]
      simp only [ih]
      rfl

theorem chainRemove_withStats (i bucket : Nat) (next : Option Nat) :
    ({ c with stats } : BlockCache).chainRemove i bucket next =
      { c.chainRemove i bucket next with stats } := by
  have hhead : BlockCache.chainHead { c with stats } bucket = c.chainHead bucket := rfl
  unfold chainRemove
  rw [chainBefore_withStats, hhead]
  split_ifs
  · rfl
  · cases c.chainBefore i c.slots.size (c.chainHead bucket) <;> rfl

/-- Counters make no difference to emptying a slot. -/
theorem removeSlot_withStats (i : Nat) :
    (({ c with stats } : BlockCache).removeSlot i).2 = { (c.removeSlot i).2 with stats } := by
  cases he : c.entry? i with
  | none => rw [removeSlot_free he, removeSlot_free (c := { c with stats }) he]
  | some e =>
    unfold removeSlot
    rw [he, show BlockCache.entry? { c with stats } i = some e from he]
    dsimp only
    rw [recencyRemove_withStats, chainRemove_withStats]

theorem removeSlots_withStats (slots : List Nat) :
    ({ c with stats } : BlockCache).removeSlots slots = { c.removeSlots slots with stats } := by
  induction slots generalizing c with
  | nil => rfl
  | cons i slots ih =>
    show (({ c with stats } : BlockCache).removeSlot i).2.removeSlots slots = _
    rw [removeSlot_withStats, ih]
    rfl

theorem stats_removeSlot (i : Nat) : (c.removeSlot i).2.stats = c.stats := by
  cases he : c.entry? i with
  | none => rw [removeSlot_free he]
  | some e => exact (freed_removeSlot he).stats

end

/-! ## The slots -/

/-- The slots emptied from the back of the recency list, at most `fuel`, until there is room for one
    more block. -/
def evicted (c : BlockCache) : Nat → List Nat
  | 0 => []
  | fuel + 1 =>
    if c.size < c.capacity then []
    else
      match c.oldest with
      | none => []
      | some i => i :: (c.removeSlot i).2.evicted fuel

/-- The slots emptied before a block is inserted. -/
def displaced (c : BlockCache) (b : Block) : List Nat :=
  match c.find? b.physPc b.flags b.identity with
  | some i => i :: (c.removeSlot i).2.evicted (c.removeSlot i).2.size
  | none => c.evicted c.size

/-- **The slots that an operation empties**, in order. A flush does not empty slots one by one. -/
def removals (c : BlockCache) : CacheOp → List Nat
  | .lookup _ _ _ => []
  | .insert b => c.displaced b
  | .remove h => if c.generation h.slot = h.generation then [h.slot] else []
  | .invalidate start n => c.slotsHit start n
  | .flush => []

/-- What slots add when they are emptied one after another, each in the cache at that time. -/
def perRemoval {α : Type} (c : BlockCache) (f : BlockCache → Nat → List α) : List Nat → List α
  | [] => []
  | i :: slots => f c i ++ (c.removeSlot i).2.perRemoval f slots

theorem evicted_withStats (c : BlockCache) (stats : CacheStats) (fuel : Nat) :
    ({ c with stats } : BlockCache).evicted fuel = c.evicted fuel := by
  induction fuel generalizing c with
  | zero => rfl
  | succ fuel ih =>
    rw [evicted, evicted]
    simp only [removeSlot_withStats, ih]

/-! ## Operations -/

/-- **Making room empties the slots that are listed**, and counts them as evictions. -/
theorem evict_eq (c : BlockCache) (fuel : Nat) :
    c.evict fuel = { c.removeSlots (c.evicted fuel) with
      stats := { c.stats with evictions := c.stats.evictions + (c.evicted fuel).length } } := by
  induction fuel generalizing c with
  | zero => rfl
  | succ fuel ih =>
    rw [evict, evicted]
    split_ifs
    · rfl
    · cases c.oldest with
      | none => rfl
      | some i =>
        dsimp only
        rw [ih, evicted_withStats, removeSlots_withStats, stats_removeSlot, List.length_cons,
          Nat.add_assoc, Nat.add_comm 1]
        rfl

theorem makeRoom_eq (c : BlockCache) (b : Block) :
    ∃ stats, c.makeRoom b = { c.removeSlots (c.displaced b) with stats } := by
  unfold makeRoom displaced
  cases c.find? b.physPc b.flags b.identity with
  | none => exact ⟨_, evict_eq c c.size⟩
  | some i => exact ⟨_, evict_eq (c.removeSlot i).2 (c.removeSlot i).2.size⟩

theorem remove_eq_removeSlots (c : BlockCache) (h : Handle) :
    (c.remove h).2 = c.removeSlots (c.removals (.remove h)) := by
  rw [remove, removals]
  split_ifs <;> rfl

theorem invalidate_eq_removeSlots (c : BlockCache) (start n : UInt64) :
    ∃ stats, (c.invalidate start n).2 =
      { c.removeSlots (c.removals (.invalidate start n)) with stats } :=
  ⟨_, by rw [invalidate_eq]; rfl⟩

/-- **What holds of a slot that is emptied holds of them all**, since the links agree in between. -/
theorem Linked.forall_perRemoval {α : Type} {f : BlockCache → Nat → List α} {P : α → Prop}
    (h : c.Linked order) (hf : ∀ {c order}, c.Linked order → ∀ i, ∀ a ∈ f c i, P a)
    (slots : List Nat) : ∀ a ∈ c.perRemoval f slots, P a := by
  induction slots generalizing c order with
  | nil => exact fun _ ha => nomatch ha
  | cons i slots ih =>
    obtain ⟨order', h', -⟩ := h.dropSlot i
    rw [perRemoval, List.forall_mem_append]
    exact ⟨hf h i, ih h'⟩

end X86Replay.BlockCache

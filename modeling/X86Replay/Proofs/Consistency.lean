import X86Replay.Proofs.Linking
import X86Replay.Proofs.Mode

/-!
# Consistent block caches

Slots, hash chains, recency list, free slots and counted pages of a block cache tell the same
blocks.

* `BlockCache.Linked`: slots, chains, recency list and free slots do.
* `BlockCache.Consistent`: so do the counted pages, of blocks that are inside the address space.
* `BlockCache.listed`: the blocks with their handles, most recently used first.
* `Linked.touch`, `Linked.removeSlot`, `Linked.evict`, `Linked.fillSlot`: the steps that operations
  are made of keep a cache linked, and change the list of its blocks in one place.
-/

namespace X86Replay

/-! ## Blocks for the same code -/

namespace Block

variable {b b' b'' : Block} {physPc : UInt64} {flags : ModeFlags} {identity : CodeIdentity}

/-- Two blocks are for the same code. The second is the one looked for when the first is
    inserted. -/
def ForSameCode (b b' : Block) : Prop :=
  b'.isFor b.physPc b.flags b.identity

theorem isFor_iff : b.isFor physPc flags identity ↔
    b.physPc = physPc ∧ b.key = flags.key ∧ b.identity.agrees identity flags.isFlat := by
  simp [isFor, and_assoc]

theorem agrees_iff {x y : CodeIdentity} {flat : Bool} : x.agrees y flat ↔
    x.attr = y.attr ∧ (flat = false → x.base = y.base ∧ x.limit = y.limit ∧
      x.selector = y.selector) := by
  cases flat <;> simp [CodeIdentity.agrees, and_assoc]

/-- All blocks that are found for one code are for the same code. -/
theorem forSameCode_of_isFor (h : b.isFor physPc flags identity) :
    b'.isFor physPc flags identity ↔ b.ForSameCode b' := by
  obtain ⟨hpc, hkey, hid⟩ := isFor_iff.1 h
  have hflat : b.flags.isFlat = flags.isFlat :=
    ModeFlags.isFlat_congr (ModeFlags.low_eq_of_key_eq hkey)
  rw [agrees_iff] at hid
  unfold ForSameCode
  rw [isFor_iff, isFor_iff, hpc, show b.flags.key = flags.key from hkey, hflat, agrees_iff,
    agrees_iff, hid.1]
  refine and_congr_right fun _ => and_congr_right fun _ => and_congr_right fun _ => ?_
  refine forall_congr' fun hfalse => ?_
  obtain ⟨hbase, hlimit, hselector⟩ := hid.2 hfalse
  rw [hbase, hlimit, hselector]

/-- Whether one of the ranges has a byte in common with `n` bytes from `start`. -/
def intersects (b : Block) (start n : Nat) : Bool :=
  b.ranges.any fun r =>
    max r.start.toNat start < min (r.start.toNat + r.length.toNat) (start + n)

/-- The ranges end inside the address space. -/
def Addressable (b : Block) : Prop :=
  ∀ r ∈ b.ranges, r.start.toNat + r.length.toNat < 2 ^ 64

instance : Decidable b.Addressable :=
  inferInstanceAs (Decidable (∀ r ∈ b.ranges, r.start.toNat + r.length.toNat < 2 ^ 64))

theorem meets_eq_intersects (hb : b.Addressable) (start n : UInt64) :
    b.meets start n = b.intersects start.toNat n.toNat := by
  rw [Bool.eq_iff_iff, meets, intersects, List.any_eq_true, List.any_eq_true]
  refine exists_congr fun r => and_congr_right fun hr => ?_
  rw [CodeRange.meets_iff (hb r hr), decide_eq_true_eq]
  unfold CodeRange.Covers
  constructor
  · rintro ⟨a, ha⟩
    omega
  · intro h
    exact ⟨max r.start.toNat start.toNat, by omega⟩

theorem ForSameCode.refl (b : Block) : b.ForSameCode b :=
  isFor_iff.2 ⟨rfl, rfl, agrees_iff.2 ⟨rfl, fun _ => ⟨rfl, rfl, rfl⟩⟩⟩

theorem ForSameCode.symm (h : b.ForSameCode b') : b'.ForSameCode b :=
  (forSameCode_of_isFor h).1 (ForSameCode.refl b)

end Block

namespace BlockCache

variable {c c' : BlockCache} {i j : Nat} {b : Block} {e : CacheEntry} {order : List Nat}
  {physPc : UInt64} {flags : ModeFlags} {identity : CodeIdentity}

/-! ## Consistent caches -/

/-- All links of the cache agree that the slots in `order` are taken, most recently used first. -/
structure Linked (c : BlockCache) (order : List Nat) : Prop where
  recent : c.Recent order
  chained : c.Chained
  complete : ∀ i b, c.blockAt i = some b → i ∈ order
  free_nodup : c.free.Nodup
  free : ∀ i, i ∈ c.free ↔ i < c.slots.size ∧ c.blockAt i = none
  size : c.size = order.length
  bounded : c.size ≤ c.capacity
  capacity_pos : 0 < c.capacity
  slots_le : c.slots.size ≤ c.capacity
  distinct : ∀ i j b b', c.blockAt i = some b → c.blockAt j = some b' → b.ForSameCode b' → i = j

/-- The links of the cache agree, and so do the counted pages. -/
structure Consistent (c : BlockCache) (order : List Nat) : Prop extends Linked c order where
  sound : c.Sound Block.Addressable

/-- The blocks in the given slots with their handles. -/
def listed (c : BlockCache) (order : List Nat) : List (Handle × Block) :=
  order.filterMap fun i => (c.blockAt i).map fun b => (c.handle i, b)

theorem listed_congr (h : ∀ i ∈ order, c'.blockAt i = c.blockAt i ∧ c'.handle i = c.handle i) :
    c'.listed order = c.listed order :=
  List.filterMap_congr fun i hi => by rw [(h i hi).1, (h i hi).2]

theorem map_recencyFrom {fuel : Nat} {start : Option Nat} (h : Leads c.olderOf start order)
    (htaken : ∀ i ∈ order, ∃ e, c.entry? i = some e) (hfuel : order.length ≤ fuel) :
    (c.recencyFrom fuel start).map (fun (i, b) => (c.handle i, b)) = c.listed order := by
  induction order generalizing fuel start with
  | nil =>
    cases h
    cases fuel <;> rfl
  | cons i order ih =>
    obtain ⟨rfl, hrest⟩ := h
    obtain ⟨fuel, rfl⟩ : ∃ n, fuel = n + 1 := ⟨fuel - 1, by simp at hfuel; omega⟩
    obtain ⟨e, he⟩ := htaken i List.mem_cons_self
    rw [olderOf, he, Option.bind_some] at hrest
    rw [recencyFrom, he, listed, List.filterMap_cons, blockAt_of_taken he]
    dsimp only [Option.map_some]
    rw [List.map_cons, ih hrest (fun j hj => htaken j (List.mem_cons_of_mem i hj))
      (by simp at hfuel; omega)]
    rfl

namespace Linked

theorem mem_iff (h : c.Linked order) : i ∈ order ↔ ∃ b, c.blockAt i = some b := by
  constructor
  · intro hi
    obtain ⟨e, he⟩ := h.recent.taken i hi
    exact ⟨e.block, blockAt_of_taken he⟩
  · rintro ⟨b, hb⟩
    exact h.complete i b hb

/-- The entries that satisfy what holds for all slots but one. -/
theorem filter_listed (h : c.Linked order) {p : Handle × Block → Bool}
    (hp : ∀ j ∈ order, ∀ b, c.blockAt j = some b → (p (c.handle j, b) ↔ j ≠ i)) :
    (c.listed order).filter p = c.listed (order.erase i) := by
  rw [h.recent.nodup.erase_eq_filter, listed, listed, List.filter_filterMap,
    List.filterMap_filter]
  refine List.filterMap_congr fun j hj => ?_
  obtain ⟨b, hb⟩ := h.mem_iff.1 hj
  have hpj : p (c.handle j, b) = (j != i) :=
    Bool.eq_iff_iff.2 ((hp j hj b hb).trans bne_iff_ne.symm)
  rw [hb, Option.map_some, Option.filter_some, hpj]

/-- Only one block is for some code. -/
theorem isFor_iff (h : c.Linked order) (hb : c.blockAt i = some b)
    (hfor : b.isFor physPc flags identity) {b' : Block} (hb' : c.blockAt j = some b') :
    b'.isFor physPc flags identity ↔ j = i := by
  rw [Block.forSameCode_of_isFor hfor]
  constructor
  · intro hsame
    exact (h.distinct i j b b' hb hb' hsame).symm
  · rintro rfl
    rw [hb] at hb'
    cases hb'
    exact .refl b

theorem filter_isFor (h : c.Linked order) (hb : c.blockAt i = some b)
    (hfor : b.isFor physPc flags identity) :
    (c.listed order).filter (!·.2.isFor physPc flags identity) = c.listed (order.erase i) := by
  refine h.filter_listed fun j _ b' hb' => ?_
  rw [Bool.not_eq_true', Bool.eq_false_iff]
  exact not_congr (h.isFor_iff hb hfor hb')

/-- **The recency list is read off from its front.** -/
theorem toList_eq (h : c.Linked order) : c.toList = c.listed order :=
  map_recencyFrom h.recent.older h.recent.taken (length_le_of_taken h.recent.nodup h.recent.taken)

theorem mem_listed (h : c.Linked order) {handle : Handle} :
    (handle, b) ∈ c.listed order ↔
      c.blockAt handle.slot = some b ∧ c.handle handle.slot = handle := by
  rw [listed, List.mem_filterMap]
  constructor
  · rintro ⟨i, -, hi⟩
    obtain ⟨b', hb', heq⟩ := Option.map_eq_some_iff.1 hi
    cases heq
    exact ⟨hb', rfl⟩
  · rintro ⟨hb, hhandle⟩
    exact ⟨handle.slot, h.mem_iff.2 ⟨b, hb⟩, by rw [hb, Option.map_some, hhandle]⟩

theorem map_slot_listed (h : c.Linked order) :
    (c.listed order).map (fun e => e.1.slot) = order := by
  rw [listed, List.map_filterMap]
  refine (List.filterMap_congr fun i hi => ?_).trans List.filterMap_some
  obtain ⟨b, hb⟩ := h.mem_iff.1 hi
  rw [hb]
  rfl

theorem length_listed (h : c.Linked order) : (c.listed order).length = order.length := by
  conv_rhs => rw [← h.map_slot_listed, List.length_map]

theorem take_listed (h : c.Linked order) (n : Nat) :
    (c.listed order).take n = c.listed (order.take n) := by
  have hmap {l : List Nat} (hl : ∀ i ∈ l, ∃ b, c.blockAt i = some b) (n : Nat) :
      (c.listed l).take n = c.listed (l.take n) := by
    induction l generalizing n with
    | nil => simp [listed]
    | cons i l ih =>
      obtain ⟨b, hb⟩ := hl i List.mem_cons_self
      cases n with
      | zero => rfl
      | succ n =>
        have hrest := ih (fun j hj => hl j (List.mem_cons_of_mem i hj)) n
        rw [listed, listed, List.take_succ_cons, List.filterMap_cons, List.filterMap_cons, hb]
        exact congrArg (_ :: ·) hrest
  exact hmap (fun i hi => h.mem_iff.1 hi) n

end Linked

/-! ## Using a block -/

namespace Linked

/-- What has been counted makes no difference. -/
theorem withStats (h : c.Linked order) (stats : CacheStats) :
    ({ c with stats } : BlockCache).Linked order where
  recent := ⟨h.recent.older, h.recent.newer, h.recent.nodup, h.recent.taken⟩
  chained := ⟨h.chained.buckets, h.chained.bucket, h.chained.chain⟩
  complete := h.complete
  free_nodup := h.free_nodup
  free := h.free
  size := h.size
  bounded := h.bounded
  capacity_pos := h.capacity_pos
  slots_le := h.slots_le
  distinct := h.distinct

/-- New links between the same slots, in whatever order. -/
theorem relink {order' : List Nat} (h : c.Linked order) (hrelinked : Relinked c c')
    (hsame : SameBlocks c c') (hperm : order'.Perm order) (hrecent : c'.Recent order')
    (hchained : c'.Chained) : c'.Linked order' where
  recent := hrecent
  chained := hchained
  complete j b hb := hperm.mem_iff.2 (h.complete j b (hsame.blockAt_eq j ▸ hb))
  free_nodup := by
    rw [hrelinked.rest]
    exact h.free_nodup
  free j := by
    rw [hsame.blockAt_eq, hrelinked.slots, hrelinked.rest]
    exact h.free j
  size := by
    rw [hrelinked.rest, hperm.length_eq]
    exact h.size
  bounded := by
    rw [hrelinked.rest]
    exact h.bounded
  capacity_pos := by
    rw [hrelinked.rest]
    exact h.capacity_pos
  slots_le := by
    rw [hrelinked.slots, hrelinked.rest]
    exact h.slots_le
  distinct j k b b' hb hb' :=
    h.distinct j k b b' (hsame.blockAt_eq j ▸ hb) (hsame.blockAt_eq k ▸ hb')

/-- A block that is used moves to the front. -/
theorem touch (h : c.Linked order) (hb : c.blockAt i = some b) :
    ((c.recencyRemove i).recencyPush i).Linked (i :: order.erase i) ∧
      ((c.recencyRemove i).recencyPush i).listed (i :: order.erase i) =
        (c.handle i, b) :: c.listed (order.erase i) ∧
      ((c.recencyRemove i).recencyPush i).handle i = c.handle i ∧
      ((c.recencyRemove i).recencyPush i).stats = c.stats ∧
      ((c.recencyRemove i).recencyPush i).capacity = c.capacity := by
  have hi := h.complete i b hb
  have hrelinked := (Relinked.recencyRemove c i).trans (.recencyPush (c.recencyRemove i) i)
  have hsame := (sameBlocks_recencyRemove c i).trans (sameBlocks_recencyPush _ i)
  have hrecent : ((c.recencyRemove i).recencyPush i).Recent (i :: order.erase i) := by
    obtain ⟨e, he⟩ := h.recent.taken i hi
    have he' := entry?_recencyRemove he i
    rw [he] at he'
    exact (h.recent.recencyRemove hi).recencyPush (h.recent.nodup.not_mem_erase) he'
  have hchained := (h.chained.recencyRemove i).recencyPush i
  generalize (c.recencyRemove i).recencyPush i = c' at hrelinked hsame hrecent hchained ⊢
  have hhandle (j : Nat) : c'.handle j = c.handle j :=
    congrArg (Handle.mk j) (hrelinked.generation j)
  have hlisted : c'.listed (i :: order.erase i) = c.listed (i :: order.erase i) :=
    listed_congr fun j _ => ⟨hsame.blockAt_eq j, hhandle j⟩
  refine ⟨h.relink hrelinked hsame (List.perm_cons_erase hi).symm hrecent hchained,
    hlisted.trans ?_, hhandle i, ?_, ?_⟩
  · rw [listed, List.filterMap_cons, hb]
    rfl
  · rw [hrelinked.rest]
  · rw [hrelinked.rest]

end Linked

/-! ## Removing -/

theorem links_chainRemove (he : c.entry? i = some e) (j q : Nat) (next : Option Nat) :
    ∃ e', entry? (c.chainRemove j q next) i = some e' ∧
      e'.older = e.older ∧ e'.newer = e.newer := by
  unfold chainRemove
  split_ifs
  · exact ⟨e, he, rfl, rfl⟩
  · split
    · rename_i k _
      rw [entry?_modifyEntry, he]
      split_ifs
      · exact ⟨_, rfl, rfl, rfl⟩
      · exact ⟨e, rfl, rfl, rfl⟩
    · exact ⟨e, he, rfl, rfl⟩

theorem ends_chainRemove (c : BlockCache) (j q : Nat) (next : Option Nat) :
    (c.chainRemove j q next).newest = c.newest ∧ (c.chainRemove j q next).oldest = c.oldest := by
  unfold chainRemove
  split_ifs
  · exact ⟨rfl, rfl⟩
  · split <;> exact ⟨rfl, rfl⟩

/-- What is left of a cache when a slot is emptied, links apart. -/
structure Freed (c : BlockCache) (i : Nat) (c' : BlockCache) : Prop where
  slots : c'.slots.size = c.slots.size
  free : c'.free = i :: c.free
  size : c'.size = c.size - 1
  capacity : c'.capacity = c.capacity
  stats : c'.stats = c.stats
  generation : ∀ j, c'.generation j = if i = j then c.generation j + 1 else c.generation j

theorem freed_removeSlot (he : c.entry? i = some e) : Freed c i (c.removeSlot i).2 := by
  have hrelinked := (Relinked.recencyRemove c i).trans
    (.chainRemove (c.recencyRemove i) i e.bucket e.chainNext)
  unfold removeSlot
  rw [he]
  dsimp only
  generalize (c.recencyRemove i).chainRemove i e.bucket e.chainNext = c₂ at hrelinked ⊢
  have hrest := hrelinked.rest
  refine ⟨Array.size_modify.trans hrelinked.slots, ?_, ?_, ?_, ?_, fun j => ?_⟩
  · rw [hrest]
  · rw [hrest]
  · rw [hrest]
  · rw [hrest]
  · rw [← hrelinked.generation]
    unfold generation
    dsimp only
    rw [Array.getElem?_modify]
    split_ifs with hij
    · have hi : i < c₂.slots.size := hrelinked.slots ▸ lt_size_of_taken he
      rw [← hij, Array.getElem?_eq_getElem hi]
      rfl
    · rfl

/-- The links of a slot that is emptied have been led past it before. -/
theorem entry?_removeSlot (he : c.entry? i = some e) (j : Nat) :
    entry? (c.removeSlot i).2 j = if i = j then none
      else entry? ((c.recencyRemove i).chainRemove i e.bucket e.chainNext) j := by
  unfold removeSlot
  rw [he]
  dsimp only
  generalize (c.recencyRemove i).chainRemove i e.bucket e.chainNext = c₂
  unfold entry?
  dsimp only
  rw [Array.getElem?_modify]
  split_ifs
  · cases c₂.slots[j]? <;> rfl
  · rfl

theorem recent_removeSlot (h : c.Recent order) (hi : i ∈ order) :
    (c.removeSlot i).2.Recent (order.erase i) := by
  obtain ⟨e, he⟩ := h.taken i hi
  obtain ⟨hnewest, holdest⟩ := ends_chainRemove (c.recencyRemove i) i e.bucket e.chainNext
  refine (h.recencyRemove hi).congr ?_ ?_ fun j hj x hx => ?_
  · rw [← hnewest, removeSlot, he]
  · rw [← holdest, removeSlot, he]
  · rw [entry?_removeSlot he, if_neg fun hij => (h.nodup.mem_erase_iff.1 hj).1 hij.symm]
    exact links_chainRemove hx i e.bucket e.chainNext

theorem chained_removeSlot (h : c.Chained) (he : c.entry? i = some e) :
    (c.removeSlot i).2.Chained := by
  have he' := entry?_recencyRemove he i
  rw [he] at he'
  have hentries := entry?_removeSlot he
  refine (h.recencyRemove i).freed he' ?_ hentries
  rw [removeSlot, he]

namespace Linked

/-- **A slot that is emptied leaves the list of the others as it was.** -/
theorem removeSlot (h : c.Linked order) (hi : i ∈ order) :
    (c.removeSlot i).2.Linked (order.erase i) ∧
      (c.removeSlot i).2.listed (order.erase i) = c.listed (order.erase i) := by
  obtain ⟨e, he⟩ := h.recent.taken i hi
  have hfreed := freed_removeSlot he
  have hblocks := blockAt_removeSlot c i
  have hne {j : Nat} (hj : j ∈ order.erase i) : i ≠ j := fun hij =>
    (h.recent.nodup.mem_erase_iff.1 hj).1 hij.symm
  have hlive {j : Nat} {b : Block} (hb : (c.removeSlot i).2.blockAt j = some b) :
      i ≠ j ∧ c.blockAt j = some b := by
    rw [hblocks] at hb
    split_ifs at hb with hij
    exact ⟨hij, hb⟩
  have hlinked : (c.removeSlot i).2.Linked (order.erase i) :=
    { recent := recent_removeSlot h.recent hi
      chained := chained_removeSlot h.chained he
      complete := fun j b hb => by
        obtain ⟨hij, hb⟩ := hlive hb
        exact h.recent.nodup.mem_erase_iff.2 ⟨hij.symm, h.complete j b hb⟩
      free_nodup := by
        -- The slot was taken, and so it was not on the stack before.
        rw [hfreed.free, List.nodup_cons, h.free]
        refine ⟨fun hfree => ?_, h.free_nodup⟩
        rw [blockAt_of_taken he] at hfree
        cases hfree.2
      free := fun j => by
        rw [hfreed.free, hfreed.slots, List.mem_cons, h.free, hblocks]
        split_ifs with hij
        · subst hij
          simp [lt_size_of_taken he]
        · simp [Ne.symm hij]
      size := by rw [hfreed.size, h.size, List.length_erase_of_mem hi]
      bounded := by
        rw [hfreed.size, hfreed.capacity]
        exact Nat.le_trans (Nat.sub_le _ _) h.bounded
      capacity_pos := by
        rw [hfreed.capacity]
        exact h.capacity_pos
      slots_le := by
        rw [hfreed.slots, hfreed.capacity]
        exact h.slots_le
      distinct := fun j k b b' hb hb' => h.distinct j k b b' (hlive hb).2 (hlive hb').2 }
  refine ⟨hlinked, listed_congr fun j hj => ?_⟩
  rw [hblocks, if_neg (hne hj)]
  exact ⟨rfl, congrArg (Handle.mk j) ((hfreed.generation j).trans (if_neg (hne hj)))⟩

/-- Emptying a slot, even a free one, drops its block from the list. -/
theorem dropSlot (h : c.Linked order) (i : Nat) :
    ∃ order', (c.removeSlot i).2.Linked order' ∧
      (c.removeSlot i).2.capacity = c.capacity ∧
      (c.removeSlot i).2.stats = c.stats ∧
      (c.removeSlot i).2.listed order' = (c.listed order).filter (·.1.slot != i) := by
  cases he : c.entry? i with
  | none =>
    rw [removeSlot_free he]
    refine ⟨order, h, rfl, rfl, (List.filter_eq_self.2 fun e hmem => ?_).symm⟩
    obtain ⟨handle, b⟩ := e
    have hb := (h.mem_listed.1 hmem).1
    rw [bne_iff_ne]
    rintro rfl
    rw [blockAt_of_free he] at hb
    cases hb
  | some e =>
    have hfreed := freed_removeSlot he
    obtain ⟨hlinked, hlisted⟩ := h.removeSlot (h.complete i e.block (blockAt_of_taken he))
    refine ⟨order.erase i, hlinked, hfreed.capacity, hfreed.stats, hlisted.trans ?_⟩
    exact (h.filter_listed fun j _ b _ => bne_iff_ne).symm

theorem dropSlots (h : c.Linked order) (slots : List Nat) :
    ∃ order', (c.removeSlots slots).Linked order' ∧
      (c.removeSlots slots).capacity = c.capacity ∧
      (c.removeSlots slots).stats = c.stats ∧
      (c.removeSlots slots).listed order' =
        (c.listed order).filter (!slots.contains ·.1.slot) := by
  induction slots generalizing c order with
  | nil => exact ⟨order, h, rfl, rfl, by simp [BlockCache.removeSlots]⟩
  | cons i slots ih =>
    obtain ⟨order₁, h₁, hcapacity₁, hstats₁, hlisted₁⟩ := h.dropSlot i
    obtain ⟨order', h', hcapacity, hstats, hlisted⟩ := ih h₁
    refine ⟨order', h', hcapacity.trans hcapacity₁, hstats.trans hstats₁, hlisted.trans ?_⟩
    rw [hlisted₁, List.filter_filter]
    refine List.filter_congr fun e _ => ?_
    rw [List.contains_cons, Bool.not_or, Bool.and_comm]
    rfl

/-- The slots that a write meets are those of the blocks that it meets. -/
theorem length_slotsMeeting (h : c.Linked order) (start n : UInt64) :
    (c.slotsMeeting start n).length = (c.listed order).countP (·.2.meets start n) := by
  have hperm : (c.slotsMeeting start n).Perm
      (order.filter fun i => (c.entry? i).any (·.block.meets start n)) := by
    refine (List.perm_ext_iff_of_nodup (List.nodup_range.filter _)
      (h.recent.nodup.filter _)).2 fun i => ?_
    rw [List.mem_filter, List.mem_filter]
    refine and_congr_left fun hmeets => ?_
    obtain ⟨e, he, -⟩ := (Option.any_eq_true _ _).1 hmeets
    have hi := h.complete i e.block (blockAt_of_taken he)
    simp [hi, lt_size_of_taken he]
  rw [hperm.length_eq, ← List.countP_eq_length_filter, listed, List.countP_filterMap]
  refine List.countP_congr fun i _ => ?_
  rw [← map_block_entry]
  cases c.entry? i <;> rfl

theorem mem_slotsMeeting {handle : Handle} (h : c.Linked order)
    (hmem : (handle, b) ∈ c.listed order) (start n : UInt64) :
    handle.slot ∈ c.slotsMeeting start n ↔ b.meets start n := by
  have hb := (h.mem_listed.1 hmem).1
  rw [← map_block_entry] at hb
  obtain ⟨e, he, rfl⟩ := Option.map_eq_some_iff.1 hb
  unfold slotsMeeting
  rw [List.mem_filter, he, Option.any_some, List.mem_range]
  exact and_iff_right (lt_size_of_taken he)

end Linked

/-! ## Inserting -/

theorem evict_of_room (h : c.size < c.capacity) (fuel : Nat) : c.evict fuel = c := by
  cases fuel with
  | zero => rfl
  | succ fuel => exact if_pos h

/-- A full cache gives up its last slot, after which there is room. -/
theorem Linked.evict_of_full {front : List Nat} (h : c.Linked (front ++ [i]))
    (hfull : ¬ c.size < c.capacity) :
    c.evict c.size = { (c.removeSlot i).2 with
      stats.evictions := (c.removeSlot i).2.stats.evictions + 1 } := by
  have hsize := h.size
  have hbounded := h.bounded
  rw [List.length_append, List.length_singleton] at hsize
  have holdest : c.oldest = some i := by
    rw [h.recent.newer.start_eq, List.head?_reverse, List.getLast?_concat]
  obtain ⟨e, he⟩ := h.recent.taken i (List.mem_append_right _ (List.mem_singleton_self i))
  have hfreed := freed_removeSlot he
  rw [hsize, BlockCache.evict, if_neg hfull, holdest]
  refine evict_of_room ?_ front.length
  show (c.removeSlot i).2.size < (c.removeSlot i).2.capacity
  rw [hfreed.size, hfreed.capacity]
  omega

/-- **A full cache drops a block from the back.** -/
theorem Linked.evict (h : c.Linked order) :
    (c.evict c.size).Linked (order.take (c.capacity - 1)) ∧
      (c.evict c.size).listed (order.take (c.capacity - 1)) =
        c.listed (order.take (c.capacity - 1)) ∧
      (c.evict c.size).capacity = c.capacity ∧
      (c.evict c.size).stats = { c.stats with
        evictions := c.stats.evictions + (order.length - (c.capacity - 1)) } := by
  have hsize := h.size
  have hbounded := h.bounded
  have hpos := h.capacity_pos
  by_cases hroom : c.size < c.capacity
  · have htake : order.take (c.capacity - 1) = order := List.take_of_length_le (by omega)
    rw [evict_of_room hroom, htake, show order.length - (c.capacity - 1) = 0 by omega]
    exact ⟨h, rfl, rfl, rfl⟩
  · obtain ⟨front, i, rfl⟩ : ∃ front i, order = front ++ [i] := by
      have hne : order ≠ [] := List.ne_nil_of_length_pos (by omega)
      exact ⟨order.dropLast, order.getLast hne, (List.dropLast_append_getLast hne).symm⟩
    have hi : i ∈ front ++ [i] := List.mem_append_right _ (List.mem_singleton_self i)
    obtain ⟨e, he⟩ := h.recent.taken i hi
    have hfreed := freed_removeSlot he
    obtain ⟨hlinked, hlisted⟩ := h.removeSlot hi
    rw [erase_middle h.recent.nodup, List.append_nil] at hlinked hlisted
    rw [List.length_append, List.length_singleton] at hsize
    have htake : (front ++ [i]).take (c.capacity - 1) = front := List.take_left' (by omega)
    have hone : (front ++ [i]).length - (c.capacity - 1) = 1 := by
      rw [List.length_append, List.length_singleton]
      omega
    rw [h.evict_of_full hroom, htake, hone]
    refine ⟨hlinked.withStats _, hlisted, hfreed.capacity, ?_⟩
    dsimp only
    rw [hfreed.stats]

/-- The second cache is the first with a free slot taken off the stack or newly made. -/
structure Takes (c : BlockCache) (i : Nat) (c' : BlockCache) : Prop where
  vacant : c.blockAt i = none
  lt_size : i < c'.slots.size
  entries : ∀ j, c'.entry? j = c.entry? j
  generation : ∀ j, c'.generation j = c.generation j
  free_nodup : c'.free.Nodup
  free : ∀ j, j ∈ c'.free ↔ j ≠ i ∧ j < c'.slots.size ∧ c.blockAt j = none
  slots_le : c.size < c.capacity → c'.slots.size ≤ c.capacity
  rest : c' = { c with slots := c'.slots, free := c'.free }

/-- A slot off the stack. -/
theorem Linked.takes_pop (h : c.Linked order) {free : List Nat} (hfree : c.free = i :: free) :
    Takes c i { c with free } := by
  have hnodup := h.free_nodup
  have hmem := h.free
  rw [hfree] at hnodup hmem
  obtain ⟨hi, hnodup⟩ := List.nodup_cons.1 hnodup
  obtain ⟨hlt, hvacant⟩ := (hmem i).1 List.mem_cons_self
  refine ⟨hvacant, hlt, fun _ => rfl, fun _ => rfl, hnodup, fun j => ?_, fun _ => h.slots_le, rfl⟩
  dsimp only
  rw [← hmem, List.mem_cons]
  constructor
  · intro hj
    exact ⟨fun hji => hi (hji ▸ hj), .inr hj⟩
  · rintro ⟨hji, hj⟩
    exact hj.resolve_left hji

/-- With no slot on the stack all slots are taken. -/
theorem Linked.slots_le_size (h : c.Linked order) (hfree : c.free = []) :
    c.slots.size ≤ c.size := by
  have hall : List.range c.slots.size ⊆ order := fun j hj => by
    cases hb : c.blockAt j with
    | none =>
      have hj : j ∈ c.free := (h.free j).2 ⟨List.mem_range.1 hj, hb⟩
      rw [hfree] at hj
      cases hj
    | some b => exact h.complete j b hb
  have hlength := (List.nodup_range.subperm hall).length_le
  rwa [List.length_range, ← h.size] at hlength

/-- A new slot behind the others. -/
theorem Linked.takes_new (h : c.Linked order) (hfree : c.free = []) :
    Takes c c.slots.size { c with slots := c.slots.push {} } := by
  have hlast : c.slots[c.slots.size]? = none := Array.getElem?_eq_none (Nat.le_refl _)
  have hentry : c.entry? c.slots.size = none := by
    unfold entry?
    rw [hlast]
    rfl
  have hpush (j : Nat) :
      (c.slots.push {})[j]? = if j = c.slots.size then some {} else c.slots[j]? :=
    Array.getElem?_push
  have hsize : (c.slots.push {}).size = c.slots.size + 1 := Array.size_push _
  exact
    { vacant := blockAt_of_free hentry
      lt_size := by
        dsimp only
        omega
      entries := fun j => by
        show (c.slots.push {})[j]?.bind CacheSlot.entry = c.entry? j
        rw [hpush]
        split_ifs with hj
        · rw [hj, hentry]
          rfl
        · rfl
      generation := fun j => by
        show (c.slots.push {})[j]?.elim 0 CacheSlot.generation = c.generation j
        rw [hpush]
        split_ifs with hj
        · rw [hj, BlockCache.generation, hlast]
          rfl
        · rfl
      free_nodup := h.free_nodup
      free := fun j => by
        have hmem := h.free j
        dsimp only
        rw [hsize]
        rw [hfree] at hmem ⊢
        constructor
        · exact fun hj => nomatch hj
        · rintro ⟨hne, hlt, hnone⟩
          exact hmem.2 ⟨by omega, hnone⟩
      slots_le := fun hroom => by
        have hle := h.slots_le_size hfree
        dsimp only
        omega
      rest := rfl }

theorem Linked.takeSlot (h : c.Linked order) : Takes c c.takeSlot.1 c.takeSlot.2 := by
  unfold BlockCache.takeSlot
  split
  · rename_i hfree
    exact h.takes_pop hfree
  · rename_i hfree
    exact h.takes_new hfree

/-- The cache with a block in a slot that is in front of the chain of its bucket. -/
def chainBlock (c : BlockCache) (i : Nat) (b : Block) (bucket : Nat) : BlockCache :=
  let entry : CacheEntry := { block := b, bucket, chainNext := c.chainHead bucket }
  let c := { c with slots := c.slots.modify i fun s => { s with entry := some entry } }
  c.chainPush i bucket

theorem entry?_chainBlock (c : BlockCache) (b : Block) (q : Nat) (hi : i < c.slots.size) (j : Nat) :
    entry? (c.chainBlock i b q) j =
      if i = j then some { block := b, bucket := q, chainNext := c.chainHead q }
      else c.entry? j := by
  unfold entry? chainBlock chainPush
  dsimp only
  rw [Array.getElem?_modify]
  split_ifs with hij
  · rw [← hij, Array.getElem?_eq_getElem hi]
    rfl
  · rfl

theorem size_chainBlock (c : BlockCache) (i : Nat) (b : Block) (q : Nat) :
    (c.chainBlock i b q).slots.size = c.slots.size :=
  Array.size_modify

theorem generation_chainBlock (c : BlockCache) (i : Nat) (b : Block) (q j : Nat) :
    (c.chainBlock i b q).generation j = c.generation j := by
  unfold generation chainBlock chainPush
  dsimp only
  rw [Array.getElem?_modify]
  split_ifs
  · cases c.slots[j]? <;> rfl
  · rfl

/-- The cache with a block in a slot that has been taken, as the most recently used one. -/
def fillSlot (c : BlockCache) (i : Nat) (b : Block) (bucket : Nat) : BlockCache :=
  let c := (c.chainBlock i b bucket).recencyPush i
  { c with
    size := c.size + 1
    codePages := countPages c.codePages b
    stats.inserts := c.stats.inserts + 1 }

theorem insert_eq (c : BlockCache) (b : Block) :
    c.insert b =
      let taken := (c.makeRoom b).takeSlot
      let filled := taken.2.fillSlot taken.1 b ((c.makeRoom b).bucketOf b.physPc b.key)
      (filled.handle taken.1, filled) := by
  rfl

/-- What is in a cache when a slot of it has been taken and filled, links apart. -/
structure Filled (c : BlockCache) (taken : BlockCache) (c' : BlockCache) : Prop where
  slots : c'.slots.size = taken.slots.size
  free : c'.free = taken.free
  size : c'.size = c.size + 1
  capacity : c'.capacity = c.capacity
  stats : c'.stats = { c.stats with inserts := c.stats.inserts + 1 }
  handle : ∀ j, c'.handle j = c.handle j

namespace Takes

variable {taken : BlockCache}

theorem filled (h : Takes c i taken) (b : Block) (q : Nat) :
    Filled c taken (taken.fillSlot i b q) := by
  have hrelinked := Relinked.recencyPush (taken.chainBlock i b q) i
  have hslots := hrelinked.slots.trans (size_chainBlock taken i b q)
  have hgeneration (j : Nat) := (hrelinked.generation j).trans (generation_chainBlock taken i b q j)
  have hrest : (taken.chainBlock i b q).recencyPush i =
      { c with
        slots := ((taken.chainBlock i b q).recencyPush i).slots
        buckets := ((taken.chainBlock i b q).recencyPush i).buckets
        newest := ((taken.chainBlock i b q).recencyPush i).newest
        oldest := ((taken.chainBlock i b q).recencyPush i).oldest
        free := taken.free } := by
    rw [hrelinked.rest]
    unfold chainBlock chainPush
    dsimp only
    rw [h.rest]
  unfold fillSlot
  dsimp only
  generalize (taken.chainBlock i b q).recencyPush i = pushed at hslots hgeneration hrest ⊢
  refine ⟨hslots, ?_, ?_, ?_, ?_, fun j => ?_⟩
  · rw [hrest]
  · rw [hrest]
  · rw [hrest]
  · rw [hrest]
  · exact congrArg (Handle.mk j) ((hgeneration j).trans (h.generation j))

theorem entry?_chainBlock (h : Takes c i taken) (b : Block) (q j : Nat) :
    entry? (taken.chainBlock i b q) j =
      if i = j then some { block := b, bucket := q, chainNext := c.chainHead q }
      else c.entry? j := by
  rw [BlockCache.entry?_chainBlock taken b q h.lt_size, h.entries, chainHead, h.rest]
  rfl

theorem blockAt_fillSlot (h : Takes c i taken) (b : Block) (q j : Nat) :
    (taken.fillSlot i b q).blockAt j = if i = j then some b else c.blockAt j := by
  show ((taken.chainBlock i b q).recencyPush i).blockAt j = _
  rw [(sameBlocks_recencyPush _ i).blockAt_eq, ← map_block_entry, h.entry?_chainBlock,
    ← map_block_entry]
  split_ifs <;> rfl

theorem chained (h : Takes c i taken) (hc : c.Chained) (b : Block) :
    (taken.fillSlot i b (c.bucketOf b.physPc b.key)).Chained := by
  have hfree : c.entry? i = none := by
    have hvacant := h.vacant
    rw [← map_block_entry] at hvacant
    exact Option.map_eq_none_iff.1 hvacant
  have hbuckets : (taken.chainBlock i b (c.bucketOf b.physPc b.key)).buckets =
      (c.chainPush i (c.bucketOf b.physPc b.key)).buckets := by
    rw [h.rest]
    rfl
  have hfilled := (hc.taken hfree rfl hbuckets (h.entry?_chainBlock b _)).recencyPush i
  exact ⟨hfilled.buckets, hfilled.bucket, hfilled.chain⟩

theorem recent (h : Takes c i taken) (hc : c.Recent order) (b : Block) (q : Nat) :
    (taken.fillSlot i b q).Recent (i :: order) := by
  have hi : i ∉ order := fun hi => by
    obtain ⟨e, he⟩ := hc.taken i hi
    have hvacant := h.vacant
    rw [blockAt_of_taken he] at hvacant
    cases hvacant
  have hchained : (taken.chainBlock i b q).Recent order := by
    refine hc.congr ?_ ?_ fun j hj e he => ⟨e, ?_, rfl, rfl⟩
    · rw [h.rest]
      rfl
    · rw [h.rest]
      rfl
    · rw [h.entry?_chainBlock, if_neg fun hij : i = j => hi (hij ▸ hj)]
      exact he
  have hfilled := hchained.recencyPush hi ((h.entry?_chainBlock b q i).trans (if_pos rfl))
  exact ⟨hfilled.older, hfilled.newer, hfilled.nodup, hfilled.taken⟩

/-- No slot that holds a block is left out of the order. -/
theorem complete (h : Takes c i taken) (hc : ∀ j b', c.blockAt j = some b' → j ∈ order)
    {b b' : Block} {q j : Nat} (hb' : (taken.fillSlot i b q).blockAt j = some b') :
    j ∈ i :: order := by
  rw [h.blockAt_fillSlot] at hb'
  split_ifs at hb' with hij
  · exact hij ▸ List.mem_cons_self
  · exact List.mem_cons_of_mem i (hc j b' hb')

/-- The stack holds the slots without a block. -/
theorem mem_free (h : Takes c i taken) (b : Block) (q j : Nat) :
    j ∈ (taken.fillSlot i b q).free ↔
      j < (taken.fillSlot i b q).slots.size ∧ (taken.fillSlot i b q).blockAt j = none := by
  have hfilled := h.filled b q
  rw [hfilled.free, h.free, hfilled.slots, h.blockAt_fillSlot]
  split_ifs with hij
  · simp [hij]
  · simp [Ne.symm hij]

/-- A block for other code than all that were there before has its code for itself. -/
theorem distinct (h : Takes c i taken)
    (hc : ∀ j k b₁ b₂, c.blockAt j = some b₁ → c.blockAt k = some b₂ → b₁.ForSameCode b₂ → j = k)
    {b : Block} (hnew : ∀ j b', c.blockAt j = some b' → ¬ b.ForSameCode b') {q j k : Nat}
    {b₁ b₂ : Block} (h₁ : (taken.fillSlot i b q).blockAt j = some b₁)
    (h₂ : (taken.fillSlot i b q).blockAt k = some b₂) (hcode : b₁.ForSameCode b₂) : j = k := by
  rw [h.blockAt_fillSlot] at h₁ h₂
  split_ifs at h₁ h₂ with hij hik hik
  · exact hij.symm.trans hik
  · cases h₁
    exact absurd hcode (hnew k b₂ h₂)
  · cases h₂
    exact absurd hcode.symm (hnew j b₁ h₁)
  · exact hc j k b₁ b₂ h₁ h₂ hcode

theorem listed (h : Takes c i taken) (hi : i ∉ order) (b : Block) (q : Nat) :
    (taken.fillSlot i b q).listed (i :: order) = (c.handle i, b) :: c.listed order := by
  have hfilled := h.filled b q
  have hothers {j : Nat} (hj : j ∈ order) : (taken.fillSlot i b q).blockAt j = c.blockAt j := by
    rw [h.blockAt_fillSlot, if_neg fun hij : i = j => hi (hij ▸ hj)]
  rw [BlockCache.listed, List.filterMap_cons, h.blockAt_fillSlot, if_pos rfl, Option.map_some,
    hfilled.handle]
  exact congrArg (_ :: ·) (listed_congr fun j hj => ⟨hothers hj, hfilled.handle j⟩)

end Takes

namespace Linked

/-- The block for the same code is dropped. -/
theorem replace (h : c.Linked order) (b : Block) :
    ∃ (c₀ : BlockCache) (order₀ : List Nat), c.makeRoom b = c₀.evict c₀.size ∧
      c₀.Linked order₀ ∧
      c₀.listed order₀ =
        (c.listed order).filter (!·.2.isFor b.physPc b.flags b.identity) ∧
      c₀.capacity = c.capacity ∧ c₀.stats = c.stats := by
  unfold BlockCache.makeRoom
  cases hfind : c.find? b.physPc b.flags b.identity with
  | none =>
    refine ⟨c, order, rfl, h, (List.filter_eq_self.2 fun e he => ?_).symm, rfl, rfl⟩
    obtain ⟨handle, b'⟩ := e
    rw [h.chained.find?_eq_none hfind (h.mem_listed.1 he).1]
    rfl
  | some i =>
    obtain ⟨b', hb', hfor⟩ := findInChain_some hfind
    have hi := h.complete i b' hb'
    obtain ⟨e, he⟩ := h.recent.taken i hi
    have hfreed := freed_removeSlot he
    obtain ⟨hlinked, hlisted⟩ := h.removeSlot hi
    refine ⟨_, _, rfl, hlinked, ?_, hfreed.capacity, hfreed.stats⟩
    rw [hlisted]
    exact (h.filter_isFor hb' hfor).symm

/-- **A block in a slot that has been taken is in front of the others.** -/
theorem fillSlot (h : c.Linked order) {taken : BlockCache} (htakes : Takes c i taken)
    (hroom : c.size < c.capacity) (hnew : ∀ j b', c.blockAt j = some b' → ¬ b.ForSameCode b') :
    (taken.fillSlot i b (c.bucketOf b.physPc b.key)).Linked (i :: order) ∧
      (taken.fillSlot i b (c.bucketOf b.physPc b.key)).listed (i :: order) =
        (c.handle i, b) :: c.listed order := by
  have hfilled := htakes.filled b (c.bucketOf b.physPc b.key)
  have hrecent := htakes.recent h.recent b (c.bucketOf b.physPc b.key)
  refine ⟨?_, htakes.listed (List.nodup_cons.1 hrecent.nodup).1 b _⟩
  exact
    { recent := hrecent
      chained := htakes.chained h.chained b
      complete := fun _ _ => htakes.complete h.complete
      free_nodup := by
        rw [hfilled.free]
        exact htakes.free_nodup
      free := htakes.mem_free b _
      size := by rw [hfilled.size, h.size, List.length_cons]
      bounded := by
        rw [hfilled.size, hfilled.capacity]
        exact hroom
      capacity_pos := by
        rw [hfilled.capacity]
        exact h.capacity_pos
      slots_le := by
        rw [hfilled.slots, hfilled.capacity]
        exact htakes.slots_le hroom
      distinct := fun _ _ _ _ => htakes.distinct h.distinct hnew }

end Linked

end BlockCache

end X86Replay

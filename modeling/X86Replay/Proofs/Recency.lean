import X86Replay.Proofs.Consistency

/-!
# The block cache as a bounded list

To its users a block cache is a list of blocks, most recently used first. Slots, chains, free slots
and counted pages are there to find a block quickly.

* `RecencyList`: that list, with the operations of a cache on it.
* `Linked.lookup`, `Linked.insert`, `Linked.remove`, `Linked.invalidate`, `Linked.flush`: a cache
  whose links agree does what the list prescribes, but for writes, which drop the blocks in the
  slots that the cache finds.
* `Linked.perform`, `Linked.performAll`: operations keep the links.
* `Consistent.invalidate`, `Consistent.perform`: a consistent cache finds the blocks that a write
  meets.
* `performAll_refines`: so does a new cache under every sequence of operations.
-/

namespace X86Replay

/-! ## Lists of blocks -/

/-- Blocks with their handles, most recently used first, and what has been done so far. -/
structure RecencyList where
  entries : List (Handle × Block) := []
  stats : CacheStats := {}

namespace RecencyList

/-- The handle to the block for some code, which moves to the front. -/
def lookup (l : RecencyList) (physPc : UInt64) (flags : ModeFlags) (identity : CodeIdentity) :
    Option Handle × RecencyList :=
  match l.entries.find? (·.2.isFor physPc flags identity) with
  | some e =>
    (some e.1,
      { entries := e :: l.entries.filter (!·.2.isFor physPc flags identity)
        stats := { l.stats with hits := l.stats.hits + 1 } })
  | none => (none, { l with stats.misses := l.stats.misses + 1 })

/-- The list with a block in front. The block for the same code is dropped, then as many from the
    back as leave room. -/
def insert (capacity : Nat) (l : RecencyList) (h : Handle) (b : Block) : RecencyList :=
  let others := l.entries.filter (!·.2.isFor b.physPc b.flags b.identity)
  { entries := (h, b) :: others.take (capacity - 1)
    stats := { l.stats with
      inserts := l.stats.inserts + 1
      evictions := l.stats.evictions + (others.length - (capacity - 1)) } }

/-- The block of a handle. -/
def get? (l : RecencyList) (h : Handle) : Option Block :=
  (l.entries.find? (·.1 == h)).map Prod.snd

/-- The block of a handle and the list without it. -/
def remove (l : RecencyList) (h : Handle) : Option Block × RecencyList :=
  (l.get? h, { l with entries := l.entries.filter (·.1 != h) })

/-- The number of blocks that a write meets and the list without them. -/
def invalidate (l : RecencyList) (start n : UInt64) : Nat × RecencyList :=
  let count := l.entries.countP (·.2.intersects start.toNat n.toNat)
  (count,
    { entries := l.entries.filter (!·.2.intersects start.toNat n.toNat)
      stats := { l.stats with invalidations := l.stats.invalidations + count } })

/-- The list without any block. -/
def flush (l : RecencyList) : RecencyList :=
  { l with entries := [] }

/-- At most `capacity` blocks with distinct handles, no two of them for the same code. -/
structure Valid (capacity : Nat) (l : RecencyList) : Prop where
  bounded : l.entries.length ≤ capacity
  handles : (l.entries.map Prod.fst).Nodup
  blocks : (l.entries.map Prod.snd).Pairwise fun b b' => ¬ b.ForSameCode b'

end RecencyList

namespace BlockCache

variable {c : BlockCache} {b : Block} {order : List Nat}

/-! ## Caches as lists -/

/-- The list of blocks that the cache is to its users. -/
def recencyList (c : BlockCache) (order : List Nat) : RecencyList :=
  ⟨c.listed order, c.stats⟩

namespace Linked

/-- **A handle leads to the block that the list has for it.** -/
theorem get?_eq (h : c.Linked order) (handle : Handle) :
    c.get? handle = (c.recencyList order).get? handle := by
  unfold get? RecencyList.get? recencyList
  dsimp only
  cases hfind : (c.listed order).find? (·.1 == handle) with
  | none =>
    rw [List.find?_eq_none] at hfind
    split_ifs with hgeneration
    · rw [map_block_entry]
      cases hb : c.blockAt handle.slot with
      | none => rfl
      | some b =>
        have hmem := h.mem_listed.2 ⟨hb, congrArg (Handle.mk handle.slot) hgeneration⟩
        exact absurd (beq_self_eq_true handle) (hfind _ hmem)
    · rfl
  | some e =>
    obtain ⟨handle', b⟩ := e
    have hhandle : handle' = handle := by simpa using List.find?_some hfind
    have hmem := h.mem_listed.1 (List.mem_of_find?_eq_some hfind)
    rw [hhandle] at hmem
    have hgeneration : c.generation handle.slot = handle.generation :=
      congrArg Handle.generation hmem.2
    rw [if_pos hgeneration, map_block_entry, hmem.1]
    rfl

theorem valid (h : c.Linked order) : (c.recencyList order).Valid c.capacity where
  bounded := by
    show (c.listed order).length ≤ _
    rw [h.length_listed, ← h.size]
    exact h.bounded
  handles := by
    refine List.Nodup.of_map Handle.slot ?_
    rw [List.map_map]
    exact h.map_slot_listed.symm ▸ h.recent.nodup
  blocks := by
    refine List.pairwise_map.2 (List.pairwise_filterMap.2 (h.recent.nodup.imp ?_))
    intro i j hij x hx y hy hsame
    obtain ⟨b, hb, rfl⟩ := Option.map_eq_some_iff.1 hx
    obtain ⟨b', hb', rfl⟩ := Option.map_eq_some_iff.1 hy
    exact hij (h.distinct i j b b' hb hb' hsame)

end Linked

/-! ## Operations -/

namespace Linked

/-- A new cache is empty. -/
theorem empty (capacity hashBits : Nat) : (BlockCache.empty capacity hashBits).Linked [] where
  recent := ⟨rfl, rfl, List.nodup_nil, fun _ hi => nomatch hi⟩
  chained := by
    have hhead (q : Nat) : (BlockCache.empty capacity hashBits).chainHead q = none := by
      unfold chainHead BlockCache.empty
      rw [Array.getElem?_replicate]
      split_ifs <;> rfl
    refine ⟨?_, fun i e he => (nomatch he), fun q => ⟨[], hhead q, List.nodup_nil, fun i => ?_⟩⟩
    · unfold BlockCache.empty
      rw [Array.size_replicate, Nat.one_shiftLeft]
      exact Nat.two_pow_pos _
    · exact ⟨fun hi => (nomatch hi), fun ⟨_, he, _⟩ => (nomatch he)⟩
  complete _ _ hb := nomatch hb
  free_nodup := List.nodup_nil
  free _ := ⟨fun hi => (nomatch hi), fun hi => absurd hi.1 (Nat.not_lt_zero _)⟩
  size := rfl
  bounded := Nat.zero_le _
  capacity_pos := Nat.le_max_right capacity 1
  slots_le := Nat.zero_le _
  distinct _ _ _ _ hb := nomatch hb

/-- The one block for the code is the one that is found in the list. -/
theorem find?_isFor (h : c.Linked order) {i : Nat} {b : Block} {physPc : UInt64}
    {flags : ModeFlags} {identity : CodeIdentity} (hb : c.blockAt i = some b)
    (hfor : b.isFor physPc flags identity) :
    (c.listed order).find? (·.2.isFor physPc flags identity) = some (c.handle i, b) := by
  have hmem : (c.handle i, b) ∈ c.listed order := h.mem_listed.2 ⟨hb, rfl⟩
  cases hfound : (c.listed order).find? (·.2.isFor physPc flags identity) with
  | none => exact absurd hfor (List.find?_eq_none.1 hfound _ hmem)
  | some e =>
    obtain ⟨handle, b'⟩ := e
    obtain ⟨hb', hhandle⟩ := h.mem_listed.1 (List.mem_of_find?_eq_some hfound)
    have hslot := (h.isFor_iff hb hfor hb').1 (by simpa using List.find?_some hfound)
    rw [hslot] at hb' hhandle
    rw [hb] at hb'
    rw [hhandle, ← Option.some.inj hb']

/-- **Looking up finds the block for the code and moves it to the front.** -/
theorem lookup (h : c.Linked order) (physPc : UInt64) (flags : ModeFlags)
    (identity : CodeIdentity) :
    ∃ order', (c.lookup physPc flags identity).2.Linked order' ∧
      (c.lookup physPc flags identity).2.capacity = c.capacity ∧
      ((c.lookup physPc flags identity).1,
          (c.lookup physPc flags identity).2.recencyList order') =
        (c.recencyList order).lookup physPc flags identity := by
  unfold BlockCache.lookup RecencyList.lookup recencyList
  dsimp only
  cases hfind : c.find? physPc flags identity with
  | none =>
    have hnone : (c.listed order).find? (·.2.isFor physPc flags identity) = none := by
      refine List.find?_eq_none.2 fun e he => ?_
      obtain ⟨handle, b⟩ := e
      rw [h.chained.find?_eq_none hfind (h.mem_listed.1 he).1]
      exact Bool.false_ne_true
    refine ⟨order, h.withStats _, rfl, ?_⟩
    rw [hnone]
    rfl
  | some i =>
    obtain ⟨b, hb, hfor⟩ := findInChain_some hfind
    have hi := h.complete i b hb
    have hfound := h.find?_isFor hb hfor
    obtain ⟨hlinked, hlisted, hhandle, hstats, hcapacity⟩ := h.touch hb
    dsimp only
    generalize (c.recencyRemove i).recencyPush i = c' at *
    refine ⟨i :: order.erase i, hlinked.withStats _, hcapacity, ?_⟩
    rw [hfound]
    dsimp only
    rw [h.filter_isFor hb hfor, hhandle, hstats, ← hlisted]
    rfl

/-- **A new block takes the place of the one for the same code, or of the one used least recently
    if the cache is full.** -/
theorem insert (h : c.Linked order) (b : Block) :
    ∃ order', (c.insert b).2.Linked order' ∧ (c.insert b).2.capacity = c.capacity ∧
      (c.insert b).2.recencyList order' =
        (c.recencyList order).insert c.capacity (c.insert b).1 b := by
  -- The block for the same code goes first and then, if the cache is still full, the oldest one:
  -- only then there is a slot, and no other block for this code.
  obtain ⟨c₀, order₀, hroom, h₀, hlisted₀, hcapacity₀, hstats₀⟩ := h.replace b
  obtain ⟨h₁, hlisted₁, hcapacity₁, hstats₁⟩ := h₀.evict
  rw [← hroom] at h₁ hlisted₁ hcapacity₁ hstats₁
  have htakes := h₁.takeSlot
  rw [insert_eq]
  dsimp only
  generalize (c.makeRoom b).takeSlot = t at htakes ⊢
  obtain ⟨i, taken⟩ := t
  dsimp only at htakes ⊢
  generalize c.makeRoom b = room at *
  have hothers : room.listed (order₀.take (c₀.capacity - 1)) =
      ((c.listed order).filter (!·.2.isFor b.physPc b.flags b.identity)).take (c.capacity - 1) := by
    rw [hlisted₁, ← h₀.take_listed, hlisted₀, hcapacity₀]
  have hlength : ((c.listed order).filter (!·.2.isFor b.physPc b.flags b.identity)).length =
      order₀.length := by
    rw [← hlisted₀, h₀.length_listed]
  have hsize : room.size < room.capacity := by
    have hpos := h₁.capacity_pos
    have htake := List.length_take_le (c₀.capacity - 1) order₀
    rw [h₁.size, hcapacity₁]
    omega
  have hnew (j : Nat) (b' : Block) (hb' : room.blockAt j = some b') : ¬ b.ForSameCode b' := by
    have hmem : (room.handle j, b') ∈ room.listed (order₀.take (c₀.capacity - 1)) :=
      h₁.mem_listed.2 ⟨hb', rfl⟩
    rw [hothers] at hmem
    have hfilter := (List.mem_filter.1 (List.mem_of_mem_take hmem)).2
    rw [Bool.not_eq_true'] at hfilter
    exact Bool.eq_false_iff.1 hfilter
  have hfilled := htakes.filled b (room.bucketOf b.physPc b.key)
  obtain ⟨hlinked, hlisted⟩ := h₁.fillSlot htakes hsize hnew
  refine ⟨_, hlinked, ?_, ?_⟩
  · rw [hfilled.capacity, hcapacity₁, hcapacity₀]
  · unfold recencyList RecencyList.insert
    dsimp only
    rw [hlisted, hothers, hfilled.handle, hfilled.stats, hstats₁, hstats₀, hcapacity₀, hlength]

/-- **Removing by handle drops the block of the handle.** -/
theorem remove (h : c.Linked order) (handle : Handle) :
    ∃ order', (c.remove handle).2.Linked order' ∧
      (c.remove handle).2.capacity = c.capacity ∧
      ((c.remove handle).1, (c.remove handle).2.recencyList order') =
        (c.recencyList order).remove handle := by
  unfold RecencyList.remove
  rw [← h.get?_eq, get?]
  unfold BlockCache.remove
  split_ifs with hgeneration
  · obtain ⟨order', h', hcapacity, hstats, hlisted⟩ := h.dropSlot handle.slot
    refine ⟨order', h', hcapacity, Prod.ext ?_ ?_⟩
    · unfold BlockCache.removeSlot
      cases c.entry? handle.slot <;> rfl
    · unfold recencyList
      rw [hlisted, hstats]
      refine congrArg (RecencyList.mk · c.stats) (List.filter_congr fun e he => ?_)
      obtain ⟨handle', b⟩ := e
      have hhandle := (h.mem_listed.1 he).2
      rw [Bool.eq_iff_iff, bne_iff_ne, bne_iff_ne, not_iff_not]
      constructor
      · intro hslot
        rw [← hhandle, hslot]
        exact congrArg (Handle.mk handle.slot) hgeneration
      · exact congrArg Handle.slot
  · refine ⟨order, h, rfl, Prod.ext rfl ?_⟩
    refine congrArg (RecencyList.mk · c.stats) (List.filter_eq_self.2 fun e he => ?_).symm
    obtain ⟨handle', b⟩ := e
    have hhandle := (h.mem_listed.1 he).2
    rw [bne_iff_ne]
    rintro rfl
    exact hgeneration (congrArg Handle.generation hhandle)

/-- **A write drops the blocks in the slots that have been found to meet it.** -/
theorem invalidate (h : c.Linked order) (start n : UInt64) :
    ∃ order', (c.invalidate start n).2.Linked order' ∧
      (c.invalidate start n).2.capacity = c.capacity ∧
      (c.invalidate start n).1 = (c.slotsHit start n).length ∧
      (c.invalidate start n).2.recencyList order' =
        { entries := (c.listed order).filter (!(c.slotsHit start n).contains ·.1.slot)
          stats := { c.stats with
            invalidations := c.stats.invalidations + (c.slotsHit start n).length } } := by
  obtain ⟨order', h', hcapacity, hstats, hlisted⟩ := h.dropSlots (c.slotsHit start n)
  rw [invalidate_eq]
  dsimp only
  generalize c.removeSlots _ = c' at *
  refine ⟨order', h'.withStats _, hcapacity, rfl, ?_⟩
  rw [← hlisted, hstats]
  rfl

/-- **Flushing drops all blocks.** -/
theorem flush (h : c.Linked order) :
    c.flush.Linked [] ∧ c.flush.capacity = c.capacity ∧
      c.flush.recencyList [] = (c.recencyList order).flush := by
  have hblock (i : Nat) : c.flush.blockAt i = none :=
    Option.eq_none_iff_forall_ne_some.2 fun b hb =>
      (Sound.flush (P := fun _ => False) c).blocks i b hb
  have hentry (i : Nat) : c.flush.entry? i = none := by
    have hb := hblock i
    rw [← map_block_entry] at hb
    exact Option.map_eq_none_iff.1 hb
  have hhead (q : Nat) : c.flush.chainHead q = none := by
    unfold chainHead BlockCache.flush
    dsimp only
    rw [Array.getElem?_map]
    cases c.buckets[q]? <;> rfl
  have hchained : c.flush.Chained := by
    refine ⟨?_, fun i e he => ?_, fun q => ⟨[], hhead q, List.nodup_nil, fun i => ?_⟩⟩
    · show 0 < (c.buckets.map fun _ => none).size
      rw [Array.size_map]
      exact h.chained.buckets
    · rw [hentry] at he
      cases he
    · rw [hentry]
      exact ⟨fun hi => (nomatch hi), fun ⟨_, he, _⟩ => (nomatch he)⟩
  have hslots : c.flush.slots.size = c.slots.size := Array.size_map
  refine ⟨⟨⟨rfl, rfl, List.nodup_nil, fun _ hi => nomatch hi⟩, hchained, fun i b hb => ?_,
    List.nodup_range, fun i => ?_, rfl, Nat.zero_le _, h.capacity_pos, hslots ▸ h.slots_le,
    fun i j b b' hb => ?_⟩, rfl, rfl⟩
  · rw [hblock] at hb
    cases hb
  · rw [hblock, hslots]
    simp [BlockCache.flush]
  · rw [hblock] at hb
    cases hb

end Linked

/-- **A consistent cache drops the blocks that a write meets.** -/
theorem Consistent.invalidate (h : c.Consistent order) (start n : UInt64) :
    ∃ order', (c.invalidate start n).2.Linked order' ∧
      (c.invalidate start n).2.capacity = c.capacity ∧
      ((c.invalidate start n).1, (c.invalidate start n).2.recencyList order') =
        (c.recencyList order).invalidate start n := by
  have hmeets (e : Handle × Block) (he : e ∈ c.listed order) :
      e.2.intersects start.toNat n.toNat = e.2.meets start n :=
    (Block.meets_eq_intersects (h.sound.blocks _ e.2 (h.mem_listed.1 he).1) start n).symm
  have hhit : c.slotsHit start n = c.slotsMeeting start n := by
    unfold slotsHit
    split_ifs with hcode
    · rfl
    · refine (List.eq_nil_iff_forall_not_mem.2 fun i hi => ?_).symm
      obtain ⟨e, he, hmeets⟩ := (Option.any_eq_true _ _).1 (List.mem_filter.1 hi).2
      exact hcode (h.sound.containsCode (fun _ hb => hb) (blockAt_of_taken he) hmeets)
  have hcount : (c.listed order).countP (·.2.intersects start.toNat n.toNat) =
      (c.slotsMeeting start n).length := by
    rw [h.length_slotsMeeting]
    exact List.countP_congr fun e he => by rw [hmeets e he]
  have hfilter : (c.listed order).filter (!·.2.intersects start.toNat n.toNat) =
      (c.listed order).filter (!(c.slotsMeeting start n).contains ·.1.slot) := by
    refine List.filter_congr fun e he => congrArg not ?_
    rw [hmeets e he, Bool.eq_iff_iff, List.contains_iff_mem]
    exact (h.mem_slotsMeeting he start n).symm
  obtain ⟨order', h', hcapacity, hanswer, hlist⟩ := h.toLinked.invalidate start n
  refine ⟨order', h', hcapacity, Prod.ext ?_ ?_⟩
  · rw [hanswer, hhit]
    exact hcount.symm
  · rw [hlist, hhit]
    unfold RecencyList.invalidate recencyList
    dsimp only
    rw [hcount, hfilter]

end BlockCache

/-! ## Sequences of operations -/

/-- An operation on a cache. -/
inductive CacheOp where
  | lookup (physPc : UInt64) (flags : ModeFlags) (identity : CodeIdentity)
  | insert (b : Block)
  | remove (h : Handle)
  | invalidate (start n : UInt64)
  | flush

/-- What an operation answers. -/
inductive CacheAnswer where
  | found (h : Option Handle)
  | inserted (h : Handle)
  | removed (b : Option Block)
  | invalidated (n : Nat)
  | flushed
deriving DecidableEq

namespace BlockCache

variable {c : BlockCache} {order : List Nat}

/-- What an operation answers, and the cache after it. -/
def perform (c : BlockCache) : CacheOp → CacheAnswer × BlockCache
  | .lookup physPc flags identity =>
    let (h, c) := c.lookup physPc flags identity
    (.found h, c)
  | .insert b =>
    let (h, c) := c.insert b
    (.inserted h, c)
  | .remove h =>
    let (b, c) := c.remove h
    (.removed b, c)
  | .invalidate start n =>
    let (n, c) := c.invalidate start n
    (.invalidated n, c)
  | .flush => (.flushed, c.flush)

/-- The answers to operations that are done one after the other, and the cache after them. -/
def performAll (c : BlockCache) : List CacheOp → List CacheAnswer × BlockCache
  | [] => ([], c)
  | op :: ops =>
    let (answer, c) := c.perform op
    let (answers, c) := c.performAll ops
    (answer :: answers, c)

end BlockCache

namespace RecencyList

/-- What an operation may answer, and the list after it. Only the choice of a handle for a new
    block, none that is in use, is left open. -/
inductive Step (capacity : Nat) (l : RecencyList) : CacheOp → CacheAnswer → RecencyList → Prop
  | lookup (physPc : UInt64) (flags : ModeFlags) (identity : CodeIdentity) :
    Step capacity l (.lookup physPc flags identity) (.found (l.lookup physPc flags identity).1)
      (l.lookup physPc flags identity).2
  | insert (b : Block) (h : Handle)
      (hvalid : (l.insert capacity h b).Valid capacity) :
    Step capacity l (.insert b) (.inserted h) (l.insert capacity h b)
  | remove (h : Handle) :
    Step capacity l (.remove h) (.removed (l.remove h).1) (l.remove h).2
  | invalidate (start n : UInt64) :
    Step capacity l (.invalidate start n) (.invalidated (l.invalidate start n).1)
      (l.invalidate start n).2
  | flush : Step capacity l .flush .flushed l.flush

/-- What operations may answer that are done one after the other, and the list after them. -/
inductive Steps (capacity : Nat) :
    RecencyList → List CacheOp → List CacheAnswer → RecencyList → Prop
  | nil (l : RecencyList) : Steps capacity l [] [] l
  | cons {l l' l'' : RecencyList} {op : CacheOp} {answer : CacheAnswer} {ops : List CacheOp}
      {answers : List CacheAnswer} (head : Step capacity l op answer l')
      (tail : Steps capacity l' ops answers l'') :
    Steps capacity l (op :: ops) (answer :: answers) l''

end RecencyList

namespace BlockCache

variable {c : BlockCache} {order : List Nat}

/-- **Every operation keeps the links of a cache.** -/
theorem Linked.perform (h : c.Linked order) (op : CacheOp) :
    ∃ order', (c.perform op).2.Linked order' ∧ (c.perform op).2.capacity = c.capacity := by
  cases op with
  | lookup physPc flags identity =>
    obtain ⟨order', h', hcapacity, -⟩ := h.lookup physPc flags identity
    exact ⟨order', h', hcapacity⟩
  | insert b =>
    obtain ⟨order', h', hcapacity, -⟩ := h.insert b
    exact ⟨order', h', hcapacity⟩
  | remove handle =>
    obtain ⟨order', h', hcapacity, -⟩ := h.remove handle
    exact ⟨order', h', hcapacity⟩
  | invalidate start n =>
    obtain ⟨order', h', hcapacity, -⟩ := h.invalidate start n
    exact ⟨order', h', hcapacity⟩
  | flush => exact ⟨[], h.flush.1, h.flush.2.1⟩

theorem Linked.performAll (h : c.Linked order) (ops : List CacheOp) :
    ∃ order', (c.performAll ops).2.Linked order' ∧ (c.performAll ops).2.capacity = c.capacity := by
  induction ops generalizing c order with
  | nil => exact ⟨order, h, rfl⟩
  | cons op ops ih =>
    obtain ⟨order₁, h₁, hcapacity₁⟩ := h.perform op
    obtain ⟨order', h', hcapacity⟩ := ih h₁
    exact ⟨order', h', hcapacity.trans hcapacity₁⟩

/-- Every operation keeps what all blocks have in common. -/
theorem Sound.perform {P : Block → Prop} (h : Sound P c) (op : CacheOp)
    (hop : ∀ b, op = .insert b → P b) : Sound P (c.perform op).2 := by
  cases op with
  | lookup physPc flags identity => exact h.lookupBlock physPc flags identity
  | insert b => exact h.insert (hop b rfl)
  | remove handle => exact h.remove handle
  | invalidate start n => exact h.dropHit start n
  | flush => exact .flush c

theorem Consistent.empty (capacity hashBits : Nat) :
    (BlockCache.empty capacity hashBits).Consistent [] :=
  ⟨.empty capacity hashBits, .empty capacity hashBits⟩

/-- **Every operation does to a consistent cache what it does to the list.** -/
theorem Consistent.perform (h : c.Consistent order) (op : CacheOp)
    (hop : ∀ b, op = .insert b → b.Addressable) :
    ∃ order', (c.perform op).2.Consistent order' ∧ (c.perform op).2.capacity = c.capacity ∧
      RecencyList.Step c.capacity (c.recencyList order) op (c.perform op).1
        ((c.perform op).2.recencyList order') := by
  have hsound := h.sound.perform op hop
  cases op with
  | lookup physPc flags identity =>
    obtain ⟨order', h', hcapacity, heq⟩ := h.lookup physPc flags identity
    refine ⟨order', ⟨h', hsound⟩, hcapacity, ?_⟩
    have hstep : RecencyList.Step c.capacity (c.recencyList order) _ _ _ :=
      .lookup physPc flags identity
    rwa [← heq] at hstep
  | insert b =>
    obtain ⟨order', h', hcapacity, heq⟩ := h.insert b
    refine ⟨order', ⟨h', hsound⟩, hcapacity, ?_⟩
    have hvalid := h'.valid
    rw [hcapacity, heq] at hvalid
    have hstep : RecencyList.Step c.capacity (c.recencyList order) _ _ _ :=
      .insert b (c.insert b).1 hvalid
    rwa [← heq] at hstep
  | remove handle =>
    obtain ⟨order', h', hcapacity, heq⟩ := h.remove handle
    refine ⟨order', ⟨h', hsound⟩, hcapacity, ?_⟩
    have hstep : RecencyList.Step c.capacity (c.recencyList order) _ _ _ := .remove handle
    rwa [← heq] at hstep
  | invalidate start n =>
    obtain ⟨order', h', hcapacity, heq⟩ := h.invalidate start n
    refine ⟨order', ⟨h', hsound⟩, hcapacity, ?_⟩
    have hstep : RecencyList.Step c.capacity (c.recencyList order) _ _ _ := .invalidate start n
    rwa [← heq] at hstep
  | flush =>
    obtain ⟨h', hcapacity, heq⟩ := h.flush
    refine ⟨[], ⟨h', hsound⟩, hcapacity, ?_⟩
    have hstep : RecencyList.Step c.capacity (c.recencyList order) _ _ _ := .flush
    rwa [← heq] at hstep

theorem Consistent.performAll (h : c.Consistent order) (ops : List CacheOp)
    (hops : ∀ b, .insert b ∈ ops → b.Addressable) :
    ∃ order', (c.performAll ops).2.Consistent order' ∧ (c.performAll ops).2.capacity = c.capacity ∧
      RecencyList.Steps c.capacity (c.recencyList order) ops (c.performAll ops).1
        ((c.performAll ops).2.recencyList order') := by
  induction ops generalizing c order with
  | nil => exact ⟨order, h, rfl, .nil _⟩
  | cons op ops ih =>
    obtain ⟨order₁, h₁, hcapacity₁, hstep⟩ :=
      h.perform op fun b hb => hops b (hb ▸ List.mem_cons_self)
    obtain ⟨order', h', hcapacity, hsteps⟩ := ih h₁ fun b hb => hops b (List.mem_cons_of_mem op hb)
    rw [hcapacity₁] at hcapacity hsteps
    exact ⟨order', h', hcapacity, .cons hstep hsteps⟩

end BlockCache

end X86Replay

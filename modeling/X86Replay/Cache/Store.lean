import X86Replay.Cache.Basic

/-!
# Block cache: operations

* `lookup`, `get?`: blocks by what they were compiled for, and by handle.
* `insert`: a block takes the place of the one for the same code; in a full cache, that of the least
  recently used one.
* `remove`, `invalidate`, `flush`: one block, all blocks that a write meets, all blocks.

The cache that several processors share (`SharedTbCache`) is this one behind a lock, which every
operation holds from beginning to end; the lock is left out. `lookupBlock` is its `lookup_cloned`.

Names in parentheses are those in the emulator, here in its module `tb_cache`.
-/

namespace X86Replay.BlockCache

/-! ## Looking up -/

/-- The handle to the block for a physical address, mode flags and code segment, which becomes the
    most recently used one (`lookup`). -/
def lookup (c : BlockCache) (physPc : UInt64) (flags : ModeFlags) (identity : CodeIdentity) :
    Option Handle × BlockCache :=
  match c.find? physPc flags identity with
  | some i =>
    let c := (c.recencyRemove i).recencyPush i
    (some (c.handle i), { c with stats.hits := c.stats.hits + 1 })
  | none => (none, { c with stats.misses := c.stats.misses + 1 })

/-- The block of a handle, unless it is gone (`get`). -/
def get? (c : BlockCache) (h : Handle) : Option Block :=
  if c.generation h.slot = h.generation then (c.entry? h.slot).map CacheEntry.block else none

/-- The block for a physical address, mode flags and code segment, as `lookup` finds it
    (`lookup_cloned`). -/
def lookupBlock (c : BlockCache) (physPc : UInt64) (flags : ModeFlags) (identity : CodeIdentity) :
    Option (Handle × Block) × BlockCache :=
  let (h, c) := c.lookup physPc flags identity
  (h.bind fun h => (c.get? h).map fun b => (h, b), c)

/-! ## Removing -/

/-- The block in a slot and the cache without it (`unlink`). A free slot stays free. -/
def removeSlot (c : BlockCache) (i : Nat) : Option Block × BlockCache :=
  match c.entry? i with
  | none => (none, c)
  | some e =>
    let c := (c.recencyRemove i).chainRemove i e.bucket e.chainNext
    (some e.block,
      { c with
        slots := c.slots.modify i fun s => ⟨s.generation + 1, none⟩
        free := i :: c.free
        size := c.size - 1
        codePages := discountPages c.codePages e.block })

/-- The block of a handle and the cache without it (`remove`). -/
def remove (c : BlockCache) (h : Handle) : Option Block × BlockCache :=
  if c.generation h.slot = h.generation then c.removeSlot h.slot else (none, c)

/-- The cache after removing least recently used blocks, at most `fuel`, until there is room for one
    more (the loop of `insert`). -/
def evict (c : BlockCache) : Nat → BlockCache
  | 0 => c
  | fuel + 1 =>
    if c.size < c.capacity then c
    else
      match c.oldest with
      | none => c
      | some i =>
        let c := (c.removeSlot i).2
        evict { c with stats.evictions := c.stats.evictions + 1 } fuel

/-- The slots of blocks whose code `n` bytes from `start` meet, ascending (part of
    `invalidate_phys_range`). -/
def slotsMeeting (c : BlockCache) (start n : UInt64) : List Nat :=
  (List.range c.slots.size).filter fun i => (c.entry? i).any (·.block.meets start n)

/-- The number of blocks that a write of `n` bytes from `start` meets, and the cache without them
    (`invalidate_phys_range`). -/
def invalidate (c : BlockCache) (start n : UInt64) : Nat × BlockCache :=
  if c.containsCode start n then
    let hit := c.slotsMeeting start n
    let c := hit.foldl (fun c i => (c.removeSlot i).2) c
    (hit.length, { c with stats.invalidations := c.stats.invalidations + hit.length })
  else
    (0, c)

/-- The cache without any block (`flush`). The first slot is the next one to be taken. -/
def flush (c : BlockCache) : BlockCache :=
  { c with
    slots := c.slots.map fun s =>
      if s.entry.isSome then ⟨s.generation + 1, none⟩ else s
    free := List.range c.slots.size
    buckets := c.buckets.map fun _ => none
    newest := none
    oldest := none
    size := 0
    codePages := ∅ }

/-! ## Inserting -/

/-- A free slot, and the cache with it taken off the stack or newly made (part of `insert`). -/
def takeSlot (c : BlockCache) : Nat × BlockCache :=
  match c.free with
  | i :: free => (i, { c with free })
  | [] => (c.slots.size, { c with slots := c.slots.push {} })

/-- The handle to a block and the cache with it as the most recently used one (`insert`). -/
def insert (c : BlockCache) (b : Block) : Handle × BlockCache :=
  let c :=
    match c.find? b.physPc b.flags b.identity with
    | some i => (c.removeSlot i).2
    | none => c
  let c := c.evict c.size
  let bucket := c.bucketOf b.physPc b.key
  let (i, c) := c.takeSlot
  let entry : CacheEntry := { block := b, bucket, chainNext := c.chainHead bucket }
  let c := { c with slots := c.slots.modify i fun s => { s with entry := some entry } }
  let c := (c.chainPush i bucket).recencyPush i
  let c :=
    { c with
      size := c.size + 1
      codePages := countPages c.codePages b
      stats.inserts := c.stats.inserts + 1 }
  (c.handle i, c)

end X86Replay.BlockCache

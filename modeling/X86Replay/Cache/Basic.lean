import Std.Data.HashMap
import X86Replay.Block.Basic

/-!
# Block cache: slots and links

`BlockCache` keeps blocks in numbered slots. Three structures over the slots lead to them:

* a hash chain per bucket, singly linked (`chainNext`);
* the recency list of all blocks, doubly linked (`newer`, `older`);
* the stack of free slots.

Beside them a table counts, for every physical page, how often the blocks list it as holding code.
A slot has a generation that goes up each time it is emptied, so that a handle to a block that is
gone leads to another one only when the generation has come round.

Names in parentheses are those in the emulator, here in its module `tb_cache`.
-/

namespace X86Replay

/-! ## Slots -/

/-- A handle to a cached block (`TbHandle`). -/
structure Handle where
  slot : Nat
  generation : UInt32
deriving DecidableEq, Repr

/-- A cached block and its links (`Entry`). -/
structure CacheEntry where
  block : Block
  bucket : Nat
  /-- The next slot of the hash chain. -/
  chainNext : Option Nat
  /-- The next more recently used slot. -/
  newer : Option Nat := none
  /-- The next less recently used slot. -/
  older : Option Nat := none
deriving Repr

/-- A slot, which is free if it has no entry (`Slot`). -/
structure CacheSlot where
  generation : UInt32 := 0
  entry : Option CacheEntry := none
deriving Repr

/-- What a cache has done so far (`TbCacheStats`). -/
structure CacheStats where
  hits : Nat := 0
  misses : Nat := 0
  inserts : Nat := 0
  evictions : Nat := 0
  /-- Blocks removed because their code was written to. -/
  invalidations : Nat := 0
deriving DecidableEq, Repr

/-- A bounded cache of blocks (`TbCache`). -/
structure BlockCache where
  slots : Array CacheSlot := #[]
  /-- The free slots, the last one freed first. -/
  free : List Nat := []
  /-- The first slot of the hash chain of each bucket. -/
  buckets : Array (Option Nat)
  /-- The most recently used slot. -/
  newest : Option Nat := none
  /-- The least recently used slot, which is evicted first. -/
  oldest : Option Nat := none
  /-- The number of blocks. -/
  size : Nat := 0
  /-- The most blocks that are kept. -/
  capacity : Nat
  /-- How often the blocks list each page as holding code. -/
  codePages : Std.HashMap UInt64 Nat := ∅
  stats : CacheStats := {}

namespace BlockCache

/-- An empty cache for at least one block, with a number of buckets between `2` and `2 ^ 24` that is
    a power of two (`new`). -/
def empty (capacity hashBits : Nat) : BlockCache where
  buckets := Array.replicate (1 <<< max 1 (min hashBits 24)) none
  capacity := max capacity 1

/-- The entry in a slot (`entry`). -/
def entry? (c : BlockCache) (i : Nat) : Option CacheEntry :=
  c.slots[i]?.bind CacheSlot.entry

/-- The generation of a slot. -/
def generation (c : BlockCache) (i : Nat) : UInt32 :=
  c.slots[i]?.elim 0 CacheSlot.generation

/-- The handle to the block in a slot (`handle`). -/
def handle (c : BlockCache) (i : Nat) : Handle :=
  ⟨i, c.generation i⟩

/-- The cache with the entry of a slot changed (`entry_mut`). A free slot stays free. -/
def modifyEntry (c : BlockCache) (i : Nat) (f : CacheEntry → CacheEntry) : BlockCache :=
  { c with slots := c.slots.modify i fun s => { s with entry := s.entry.map f } }

/-! ## Hash chains -/

/-- The hash of a physical address and key (`hash`). -/
def hash (physPc : UInt64) (key : UInt32) : UInt64 :=
  let x := (physPc * 0x9E3779B97F4A7C15) ^^^ (key.toUInt64 * 0xC2B2AE3D27D4EB4F)
  x ^^^ (x >>> 33)

/-- The bucket of a physical address and key (`bucket_of`). -/
def bucketOf (c : BlockCache) (physPc : UInt64) (key : UInt32) : Nat :=
  (hash physPc key).toNat % c.buckets.size

/-- The first slot of a bucket. -/
def chainHead (c : BlockCache) (bucket : Nat) : Option Nat :=
  c.buckets[bucket]?.join

/-- The first slot of a chain whose block satisfies `p`, among the first `fuel` (the loop of
    `find`). -/
def findInChain (c : BlockCache) (p : Block → Bool) : Nat → Option Nat → Option Nat
  | fuel + 1, some i =>
    match c.entry? i with
    | none => none
    | some e => if p e.block then some i else c.findInChain p fuel e.chainNext
  | _, _ => none

/-- The slot of the block for a physical address, mode flags and code segment (`find`). A chain is
    no longer than there are slots. -/
def find? (c : BlockCache) (physPc : UInt64) (flags : ModeFlags) (identity : CodeIdentity) :
    Option Nat :=
  c.findInChain (·.isFor physPc flags identity) c.slots.size
    (c.chainHead (c.bucketOf physPc flags.key))

/-- The slot before `i` in a chain, among the first `fuel` (the loop of `unlink`). -/
def chainBefore (c : BlockCache) (i : Nat) : Nat → Option Nat → Option Nat
  | fuel + 1, some j =>
    match c.entry? j with
    | none => none
    | some e => if e.chainNext = some i then some j else c.chainBefore i fuel e.chainNext
  | _, _ => none

/-- The cache with a slot in front of the chain of its bucket (part of `insert`). -/
def chainPush (c : BlockCache) (i bucket : Nat) : BlockCache :=
  { c with buckets := c.buckets.setIfInBounds bucket (some i) }

/-- The cache without a slot in the chain of its bucket, where `next` comes after it (part of
    `unlink`). -/
def chainRemove (c : BlockCache) (i bucket : Nat) (next : Option Nat) : BlockCache :=
  if c.chainHead bucket = some i then
    { c with buckets := c.buckets.setIfInBounds bucket next }
  else
    match c.chainBefore i c.slots.size (c.chainHead bucket) with
    | some j => c.modifyEntry j fun e => { e with chainNext := next }
    | none => c

/-! ## The recency list -/

/-- The cache with the newer neighbour of a slot, or the old end of the list, led to `older`. -/
def linkOlder (c : BlockCache) (newer older : Option Nat) : BlockCache :=
  match newer with
  | some j => c.modifyEntry j fun e => { e with older }
  | none => { c with newest := older }

/-- The cache with the older neighbour of a slot, or the new end of the list, led to `newer`. -/
def linkNewer (c : BlockCache) (older newer : Option Nat) : BlockCache :=
  match older with
  | some j => c.modifyEntry j fun e => { e with newer }
  | none => { c with oldest := newer }

/-- The cache without a slot in the recency list (`lru_unlink`). -/
def recencyRemove (c : BlockCache) (i : Nat) : BlockCache :=
  match c.entry? i with
  | none => c
  | some e =>
    let c := c.modifyEntry i fun e => { e with newer := none, older := none }
    (c.linkOlder e.newer e.older).linkNewer e.older e.newer

/-- The cache with a slot at the front of the recency list (`lru_push_front`). -/
def recencyPush (c : BlockCache) (i : Nat) : BlockCache :=
  let front := c.newest
  let c := c.modifyEntry i fun e => { e with newer := none, older := front }
  { c.linkNewer front (some i) with newest := some i }

/-- The slots of the recency list from `i` on, at most `fuel`. -/
def recencyFrom (c : BlockCache) : Nat → Option Nat → List (Nat × Block)
  | fuel + 1, some i =>
    match c.entry? i with
    | none => []
    | some e => (i, e.block) :: c.recencyFrom fuel e.older
  | _, _ => []

/-- The cached blocks with their handles, most recently used first (`iter`). -/
def toList (c : BlockCache) : List (Handle × Block) :=
  (c.recencyFrom c.slots.size c.newest).map fun (i, b) => (c.handle i, b)

/-! ## Code pages -/

/-- The table with the pages of a block counted (part of `insert`). -/
def countPages (table : Std.HashMap UInt64 Nat) (b : Block) : Std.HashMap UInt64 Nat :=
  b.codePages.foldl (fun t p => t.insert p (t.getD p 0 + 1)) table

/-- The table with one count of a page taken back; a page that is counted no more is absent (part of
    `unlink`). -/
def discountPage (table : Std.HashMap UInt64 Nat) (p : UInt64) : Std.HashMap UInt64 Nat :=
  match table[p]? with
  | none => table
  | some n => if n ≤ 1 then table.erase p else table.insert p (n - 1)

/-- The table with the pages of a block taken back (part of `unlink`). -/
def discountPages (table : Std.HashMap UInt64 Nat) (b : Block) : Std.HashMap UInt64 Nat :=
  b.codePages.foldl discountPage table

/-- Whether a cached block lists one of the pages of `n` bytes from `start` (`contains_code`). -/
def containsCode (c : BlockCache) (start n : UInt64) : Bool :=
  let first := start >>> 12
  let last := spanEnd start (n - 1) >>> 12
  n != 0 && c.codePages.keys.any fun p => first ≤ p && p ≤ last

end BlockCache

end X86Replay

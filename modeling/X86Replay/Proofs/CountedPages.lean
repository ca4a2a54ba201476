import X86Replay.Proofs.PageCounts
import X86Replay.Proofs.Removals

/-!
# Counted pages tell where code is

Before a cache looks for blocks that a write meets, it asks whether any page that the write touches
is counted. A count that is too low would hide code from the write. A count that is too high would
never be taken back.

* `BlockCache.pageChanges`: the changes of counts that an operation makes, one page after the other.
* `BlockCache.Tallies`: words that hold what a cache counts, which is what its blocks list.
  `Tallies.removeSlots`, `Tallies.insert`, `Tallies.perform`: operations change them in step.
* `Linked.totalUses_le`: how high counts go.
* `performAll_tellsCode`: the counts after any operations on a new cache.
-/

namespace X86Replay

/-! ## Pages of blocks -/

theorem CodeRange.nodup_pages (r : CodeRange) : r.pages.Nodup := by
  have hpage (a : UInt64) : (a >>> 12).toNat < 2 ^ 52 := by
    have ha := a.toNat_lt
    rw [toNat_shiftRight_twelve]
    omega
  have hlast := hpage (if r.finish = 0 then 0 else r.finish - 1)
  have hword {k : Nat} (hk : k < 2 ^ 52) : k.toUInt64.toNat = k :=
    UInt64.toNat_ofNat_of_lt' (by show _ < 2 ^ 64; omega)
  unfold pages
  dsimp only
  refine List.Nodup.map_on ?_ List.nodup_range'
  intro x hx y hy hxy
  rw [List.mem_range'_1] at hx hy
  rw [← hword (k := x) (by omega), hxy, hword (by omega)]

/-- A block lists a page once for each range at most. -/
theorem Block.count_codePages_le (b : Block) (p : UInt64) :
    b.codePages.count p ≤ b.ranges.length := by
  unfold codePages
  induction b.ranges with
  | nil => exact Nat.zero_le _
  | cons r ranges ih =>
    have hone := List.nodup_iff_count_le_one.1 r.nodup_pages p
    rw [List.flatMap_cons, List.count_append, List.length_cons]
    omega

/-- The changes of counts that an operation makes once it has emptied slots. -/
def CacheOp.lastChanges : CacheOp → List PageChange
  | .insert b => b.codePages.map .count
  | .flush => [.clear]
  | _ => []

namespace BlockCache

variable {c c' : BlockCache} {order : List Nat} {b : Block} {i : Nat}
  {words : Std.HashMap UInt64 UInt32} {changes changes' : List PageChange}

/-! ## The changes that operations make -/

/-- The changes when a slot is emptied: the pages of its block are taken back. -/
def removeChanges (c : BlockCache) (i : Nat) : List PageChange :=
  (c.blockAt i).elim [] fun b => b.codePages.map .discount

/-- The changes of counts that an operation makes, one page after the other. -/
def pageChanges (c : BlockCache) (op : CacheOp) : List PageChange :=
  c.perRemoval removeChanges (c.removals op) ++ op.lastChanges

/-- The changes that operations make which are done one after the other. -/
def pageChangesAll (c : BlockCache) : List CacheOp → List PageChange
  | [] => []
  | op :: ops => c.pageChanges op ++ (c.perform op).2.pageChangesAll ops

/-! ## Caches that count -/

/-- The words and the table of the cache hold how often its blocks list each page. -/
def Tallies (c : BlockCache) (words : Std.HashMap UInt64 UInt32) : Prop :=
  Counts words c.codePages fun p => totalUses p c.view

/-- After the changes the words hold what the cache counts. -/
def Recounts (words : Std.HashMap UInt64 UInt32) (changes : List PageChange) (c : BlockCache) :
    Prop :=
  ∃ words', changes.foldlM PageChange.onWords words = some words' ∧ c.Tallies words'

theorem Tallies.congr (h : c.Tallies words) (hsame : SameBlocks c c') : c'.Tallies words := by
  unfold Tallies
  rw [hsame.view, hsame.codePages]
  exact h

theorem Tallies.recounts (h : c.Tallies words) : Recounts words [] c :=
  ⟨words, rfl, h⟩

theorem Recounts.congr (h : Recounts words changes c) (hsame : SameBlocks c c') :
    Recounts words changes c' := by
  obtain ⟨words', hrun, h'⟩ := h
  exact ⟨words', hrun, h'.congr hsame⟩

/-- One after the other, changes lead to what the later ones lead to. -/
theorem Recounts.append (h : Recounts words changes c)
    (hnext : ∀ words', c.Tallies words' → Recounts words' changes' c') :
    Recounts words (changes ++ changes') c' := by
  obtain ⟨words₁, hrun₁, h₁⟩ := h
  obtain ⟨words', hrun, h'⟩ := hnext words₁ h₁
  refine ⟨words', ?_, h'⟩
  rw [List.foldlM_append, hrun₁]
  exact hrun

/-! ## Removing -/

namespace Tallies

/-- **Emptying a slot takes back what its block has been counted for.** -/
theorem removeSlot (h : c.Tallies words) (i : Nat) :
    Recounts words (c.removeChanges i) (c.removeSlot i).2 := by
  have huses := totalUses_removeSlot c i
  unfold BlockCache.removeChanges
  cases he : c.entry? i with
  | none =>
    rw [removeSlot_free he, blockAt_of_free he]
    exact h.recounts
  | some e =>
    rw [blockAt_of_taken he] at huses ⊢
    have hpages (p : UInt64) : pageUses p (some e.block) = e.block.codePages.count p := rfl
    simp only [hpages] at huses
    obtain ⟨words', hrun, h'⟩ := h.discountAll e.block.codePages fun p => by
      have hp := huses p
      omega
    refine ⟨words', hrun, ?_⟩
    unfold Tallies
    rw [codePages_removeSlot he]
    exact h'.congr fun p => by
      have hp := huses p
      omega

/-- **Emptying slots takes back what their blocks have been counted for.** -/
theorem removeSlots (h : c.Tallies words) (slots : List Nat) :
    Recounts words (c.perRemoval removeChanges slots) (c.removeSlots slots) := by
  induction slots generalizing c words with
  | nil => exact h.recounts
  | cons i slots ih =>
    apply (h.removeSlot i).append
    intro words' h'
    exact ih h'

end Tallies

/-! ## Inserting -/

/-- A block that is inserted adds its pages. -/
theorem Linked.totalUses_insert (h : c.Linked order) (b : Block) (p : UInt64) :
    totalUses p (c.insert b).2.view =
      totalUses p (c.makeRoom b).view + b.codePages.count p := by
  obtain ⟨c₀, order₀, hroom, h₀, -⟩ := h.replace b
  have htakes := (hroom ▸ h₀.evict.1).takeSlot
  have hvacant := htakes.vacant
  have hlt := htakes.lt_size
  obtain ⟨-, hview, -⟩ := insert_spec c b
  rw [hview, ← totalUses_takeSlot (c.makeRoom b)]
  rw [← map_block_entry, ← htakes.entries, map_block_entry] at hvacant
  generalize (c.makeRoom b).takeSlot = room at hvacant hlt ⊢
  obtain ⟨i, taken⟩ := room
  dsimp only at hvacant hlt ⊢
  have hmodify := totalUses_modify p taken.view i fun _ => some b
  have hslot : taken.view[i]? = some none := by
    have hlength : i < taken.view.length := by
      rwa [view, List.length_map, Array.length_toList]
    rw [blockAt, List.getElem?_eq_getElem hlength] at hvacant
    rw [List.getElem?_eq_getElem hlength]
    exact congrArg some hvacant
  rw [hslot] at hmodify
  exact hmodify

/-- **An insertion counts the pages of the block**, as long as the counts stay words. -/
theorem Tallies.insert (h : c.Tallies words) (hlinked : c.Linked order) (b : Block)
    (hroom : ∀ p, totalUses p (c.insert b).2.view < 2 ^ 32) :
    Recounts words (c.pageChanges (.insert b)) (c.insert b).2 := by
  have huses := hlinked.totalUses_insert b
  simp only [huses] at hroom
  obtain ⟨-, -, htable⟩ := insert_spec c b
  obtain ⟨stats, hmakeRoom⟩ := makeRoom_eq c b
  have hsame : SameBlocks (c.removeSlots (c.displaced b)) (c.makeRoom b) := by
    rw [hmakeRoom]
    exact ⟨rfl, rfl⟩
  have hmade := (h.removeSlots (c.displaced b)).congr hsame
  apply hmade.append
  intro words₁ h₁
  obtain ⟨words', hrun, h'⟩ := h₁.countAll b.codePages hroom
  refine ⟨words', hrun, ?_⟩
  unfold Tallies
  rw [htable, codePages_takeSlot]
  exact h'.congr huses

/-! ## Operations -/

/-- **The words hold what the cache counts after every operation**, and no count leaves their
    range. -/
theorem Tallies.perform (h : c.Tallies words) (hlinked : c.Linked order) (op : CacheOp)
    (hroom : ∀ p, totalUses p (c.perform op).2.view < 2 ^ 32) :
    Recounts words (c.pageChanges op) (c.perform op).2 := by
  have hremoved := h.removeSlots (c.removals op)
  cases op with
  | lookup physPc flags identity =>
    exact h.recounts.congr (sameBlocks_lookupBlock c physPc flags identity)
  | insert b => exact h.insert hlinked b hroom
  | remove handle =>
    show Recounts words (c.perRemoval removeChanges (c.removals _) ++ []) (c.remove handle).2
    rwa [List.append_nil, remove_eq_removeSlots]
  | invalidate start n =>
    obtain ⟨stats, hdropped⟩ := invalidate_eq_removeSlots c start n
    show Recounts words (c.perRemoval removeChanges (c.removals _) ++ []) (c.invalidate start n).2
    rw [List.append_nil, hdropped]
    exact hremoved.congr ⟨rfl, rfl⟩
  | flush => exact ⟨∅, rfl, .empty (totalUses_flush c)⟩

/-! ## How high counts go -/

/-- The pages that the cached blocks list, block by block. -/
def listedPages (c : BlockCache) : List UInt64 :=
  c.toList.flatMap (·.2.codePages)

theorem totalUses_eq_count (p : UInt64) (v : List (Option Block)) :
    totalUses p v = ((v.filterMap id).flatMap Block.codePages).count p := by
  unfold totalUses
  induction v with
  | nil => rfl
  | cons x v ih =>
    rw [List.map_cons, List.sum_cons, ih]
    cases x with
    | none => simp [pageUses]
    | some b => simp [pageUses]

theorem count_flatMap_le {l : List (Handle × Block)} {p : UInt64}
    (h : ∀ e ∈ l, e.2.ranges.length ≤ 2) :
    (l.flatMap (·.2.codePages)).count p ≤ 2 * l.length := by
  induction l with
  | nil => exact Nat.zero_le _
  | cons e l ih =>
    have hfirst := e.2.count_codePages_le p
    have htwo := h e List.mem_cons_self
    have hrest := ih fun x hx => h x (List.mem_cons_of_mem e hx)
    rw [List.flatMap_cons, List.count_append, List.length_cons]
    omega

theorem view_eq_map (c : BlockCache) : c.view = (List.range c.slots.size).map c.blockAt := by
  apply List.ext_getElem
  · simp [view]
  · intro i hi hi'
    rw [List.getElem_map, List.getElem_range, blockAt, List.getElem?_eq_getElem hi]
    rfl

namespace Linked

/-- The recency list has the blocks that are in slots. -/
theorem perm_blocks (h : c.Linked order) :
    (c.view.filterMap id).Perm (c.toList.map Prod.snd) := by
  have hlist : c.toList.map Prod.snd = order.filterMap c.blockAt := by
    rw [h.toList_eq, listed, List.map_filterMap]
    simp only [Option.map_map]
    refine List.filterMap_congr fun i _ => ?_
    cases c.blockAt i <;> rfl
  have hslots : c.view.filterMap id =
      ((List.range c.slots.size).filter fun i => (c.blockAt i).isSome).filterMap c.blockAt := by
    rw [view_eq_map, List.filterMap_map, List.filterMap_filter]
    refine List.filterMap_congr fun i _ => ?_
    show c.blockAt i = _
    cases c.blockAt i <;> rfl
  rw [hlist, hslots]
  refine List.Perm.filterMap _ ?_
  refine (List.perm_ext_iff_of_nodup (List.nodup_range.filter _) h.recent.nodup).2 fun i => ?_
  rw [List.mem_filter, List.mem_range, h.mem_iff, Option.isSome_iff_exists]
  apply and_iff_right_of_imp
  rintro ⟨b, hb⟩
  exact lt_size_of_blockAt hb

theorem count_listedPages (h : c.Linked order) (p : UInt64) :
    c.listedPages.count p = totalUses p c.view := by
  have hlisted : c.listedPages = (c.toList.map Prod.snd).flatMap Block.codePages := by
    rw [List.flatMap_map]
    rfl
  rw [hlisted, totalUses_eq_count]
  exact ((h.perm_blocks.flatMap_right _).count_eq p).symm

/-- A block with two ranges at most adds two at most to a count. -/
theorem totalUses_le (h : c.Linked order)
    (hranges : ∀ i b, c.blockAt i = some b → b.ranges.length ≤ 2) (p : UInt64) :
    totalUses p c.view ≤ 2 * c.size := by
  rw [← h.count_listedPages, listedPages, h.size, ← h.length_listed, h.toList_eq]
  exact count_flatMap_le fun e he => hranges e.1.slot e.2 (h.mem_listed.1 he).1

end Linked

/-! ## Counted pages as a filter -/

/-- The counts of a cache tell the pages that its blocks list, and so where code may be. -/
structure TellsCode (c : BlockCache) : Prop where
  /-- A page is counted as often as the blocks list it. One that they do not list is absent. -/
  counted : ∀ p : UInt64, c.codePages[p]? =
    if c.listedPages.count p = 0 then none else some (c.listedPages.count p)
  /-- A write may touch code if and only if it touches a page that a block lists. -/
  containsCode_iff : ∀ start n, 0 < n → (c.containsCode start n ↔
    ∃ e ∈ c.toList, ∃ p ∈ e.2.codePages, TouchesPage start n p)
  /-- No write that meets a block is let pass. -/
  containsCode_of_meets : ∀ start n, ∀ e ∈ c.toList, e.2.meets start n → c.containsCode start n

theorem Tallies.tellsCode (h : c.Tallies words) (hconsistent : c.Consistent order) :
    c.TellsCode := by
  have hcounted (p : UInt64) : c.codePages[p]? =
      if c.listedPages.count p = 0 then none else some (c.listedPages.count p) := by
    rw [hconsistent.count_listedPages]
    exact h.counted p
  refine ⟨hcounted, ?_, ?_⟩
  · intro start n hn
    have hmem (p : UInt64) : p ∈ c.codePages ↔ ∃ e ∈ c.toList, p ∈ e.2.codePages := by
      rw [← Std.HashMap.isSome_getElem?_iff_mem, hcounted, ← List.mem_flatMap]
      show _ ↔ p ∈ c.listedPages
      rw [← List.count_pos_iff]
      split_ifs with hp
      · simp [hp]
      · exact iff_of_true rfl (by omega)
    rw [BlockCache.containsCode_iff hn]
    constructor
    · rintro ⟨p, hp, htouches⟩
      obtain ⟨e, he, hlisted⟩ := (hmem p).1 hp
      exact ⟨e, he, p, hlisted, htouches⟩
    · rintro ⟨e, he, p, hlisted, htouches⟩
      exact ⟨p, (hmem p).2 ⟨e, he, hlisted⟩, htouches⟩
  · rintro start n ⟨handle, b⟩ he hmeets
    rw [hconsistent.toList_eq] at he
    exact hconsistent.sound.containsCode (fun _ hb => hb) (hconsistent.mem_listed.1 he).1 hmeets

/-! ## Sequences of operations -/

/-- **Words hold what a cache counts after any operations**, if it is for less than `2 ^ 31` blocks
    of two ranges at most. -/
theorem Tallies.performAll (h : c.Tallies words) (hconsistent : c.Consistent order)
    (hranges : c.Sound fun b => b.ranges.length ≤ 2) (hcapacity : c.capacity < 2 ^ 31)
    (ops : List CacheOp)
    (hops : ∀ b, .insert b ∈ ops → b.Addressable ∧ b.ranges.length ≤ 2) :
    Recounts words (c.pageChangesAll ops) (c.performAll ops).2 := by
  induction ops generalizing c order words with
  | nil => exact h.recounts
  | cons op ops ih =>
    have hop (b : Block) (hb : op = .insert b) : b.Addressable ∧ b.ranges.length ≤ 2 :=
      hops b (hb ▸ List.mem_cons_self)
    obtain ⟨order', hconsistent', hsame, -⟩ :=
      hconsistent.perform op fun b hb => (hop b hb).1
    have hranges' := hranges.perform op fun b hb => (hop b hb).2
    have hcapacity' : (c.perform op).2.capacity < 2 ^ 31 := hsame ▸ hcapacity
    have hroom (p : UInt64) : totalUses p (c.perform op).2.view < 2 ^ 32 := by
      have huses := hconsistent'.totalUses_le hranges'.blocks p
      have hbounded := hconsistent'.bounded
      omega
    apply (h.perform hconsistent.toLinked op hroom).append
    intro words' h'
    exact ih h' hconsistent' hranges' hcapacity' fun b hb => hops b (List.mem_cons_of_mem op hb)

/-- **The counted pages are those of the cached blocks, after any operations.** Counts in words of
    32 bits do not leave their range on the way, and are the same. -/
theorem performAll_tellsCode (capacity hashBits : Nat) (hcapacity : capacity < 2 ^ 31)
    (ops : List CacheOp)
    (hops : ∀ b, .insert b ∈ ops → b.Addressable ∧ b.ranges.length ≤ 2) :
    ∃ words, ((empty capacity hashBits).pageChangesAll ops).foldlM PageChange.onWords ∅ =
        some words ∧
      (∀ p : UInt64, words[p]?.map UInt32.toNat =
        ((empty capacity hashBits).performAll ops).2.codePages[p]?) ∧
      ((empty capacity hashBits).performAll ops).2.TellsCode := by
  have hempty : (empty capacity hashBits).Tallies ∅ := .empty fun _ => rfl
  have hmax : (empty capacity hashBits).capacity < 2 ^ 31 := by
    show max capacity 1 < 2 ^ 31
    omega
  obtain ⟨words, hrun, h⟩ :=
    hempty.performAll (.empty capacity hashBits) (.empty capacity hashBits) hmax ops hops
  obtain ⟨order, hconsistent, -⟩ :=
    (Consistent.empty capacity hashBits).performAll ops fun b hb => (hops b hb).1
  exact ⟨words, hrun, h.agrees, h.tellsCode hconsistent⟩

/-- The same for three blocks in a cache for two. The first lists page 1 twice, since both of its
    ranges are there, and is dropped for the third, which is on two pages. Page 1 stays counted for
    the second. -/
theorem performAll_tellsCode_evict :
    ∃ (block : List CodeRange → Block) (words : Std.HashMap UInt64 UInt32) (c : BlockCache),
      c = ((empty 2 1).performAll [.insert (block [⟨0x1FFF, 1⟩, ⟨0x1000, 2⟩]),
        .insert (block [⟨0x1010, 16⟩]), .insert (block [⟨0x2FF8, 16⟩])]).2 ∧
      ((empty 2 1).pageChangesAll [.insert (block [⟨0x1FFF, 1⟩, ⟨0x1000, 2⟩]),
        .insert (block [⟨0x1010, 16⟩]), .insert (block [⟨0x2FF8, 16⟩])]).foldlM
          PageChange.onWords ∅ = some words ∧
      c.TellsCode ∧ c.listedPages = [2, 3, 1] ∧
      [1, 2, 3, 4].map (fun p : UInt64 => words[p]?.map UInt32.toNat) =
        [some 1, some 1, some 1, none] ∧
      c.containsCode 0x1FFF 1 := by
  obtain ⟨block, hblock⟩ : ∃ block : List CodeRange → Block, block = fun ranges =>
      ⟨(ranges.headD ⟨0, 0⟩).start, 0, ⟨0⟩, false, ⟨0, 0, 0, 0⟩, 0, ranges, [], 1⟩ := ⟨_, rfl⟩
  obtain ⟨ops, hops⟩ : ∃ ops : List CacheOp, ops =
      [.insert (block [⟨0x1FFF, 1⟩, ⟨0x1000, 2⟩]), .insert (block [⟨0x1010, 16⟩]),
        .insert (block [⟨0x2FF8, 16⟩])] := ⟨_, rfl⟩
  have hinserted (b : Block) (hb : .insert b ∈ ops) : b.Addressable ∧ b.ranges.length ≤ 2 := by
    rw [hops, hblock] at hb
    simp only [List.mem_cons, CacheOp.insert.injEq, List.not_mem_nil, or_false] at hb
    obtain rfl | rfl | rfl := hb <;> decide
  obtain ⟨words, hrun, hagrees, htells⟩ := performAll_tellsCode 2 1 (by decide) ops hinserted
  obtain ⟨c, hcache⟩ : ∃ c, c = ((empty 2 1).performAll ops).2 := ⟨_, rfl⟩
  rw [← hcache] at hagrees htells
  have hlisted : c.listedPages = [2, 3, 1] := by
    rw [hcache, hops, hblock]
    decide +kernel
  have hpage : (1 : UInt64) ∈ c.listedPages := by
    rw [hlisted]
    decide
  obtain ⟨e, he, hp⟩ := List.mem_flatMap.1 hpage
  have htouches : TouchesPage 0x1FFF 1 1 := ⟨0x1FFF, by decide, by decide, by decide⟩
  refine ⟨block, words, c, hops ▸ hcache, hops ▸ hrun, htells, hlisted, ?_, ?_⟩
  · simp only [hagrees, htells.counted, hlisted]
    decide
  · exact (htells.containsCode_iff 0x1FFF 1 (by decide)).2 ⟨e, he, 1, hp, htouches⟩

end BlockCache

end X86Replay

import X86Replay.Cache.Store
import X86Replay.Proofs.Pages
import Mathlib.Algebra.GroupWithZero.Nat
import Mathlib.Tactic.ByContra

/-!
# What a block cache holds

The links between slots decide what is found, not what is there. What is there is the list of the
slots with their blocks, of which every operation of the cache is a simple one.

* `BlockCache.view`: the block in each slot.
* `BlockCache.Sound`: all blocks in the cache have a property, and the pages that they list as
  holding code are counted.
* `Sound.lookupBlock`, `Sound.insert`, `Sound.remove`, `Sound.flush`: the cache stays sound.
* `Sound.invalidate`: after a write no block is left that the write meets.
-/

namespace X86Replay

namespace BlockCache

variable {c c' : BlockCache} {P Q : Block → Prop} {b : Block} {i j : Nat}

/-! ## Slots -/

/-- The block in each slot. -/
def view (c : BlockCache) : List (Option Block) :=
  c.slots.toList.map fun s => s.entry.map CacheEntry.block

/-- The block in a slot. -/
def blockAt (c : BlockCache) (i : Nat) : Option Block :=
  c.view[i]?.join

theorem map_block_entry (c : BlockCache) (i : Nat) :
    (c.entry? i).map CacheEntry.block = c.blockAt i := by
  rw [blockAt, view, List.getElem?_map, Array.getElem?_toList, entry?]
  cases c.slots[i]? <;> rfl

theorem blockAt_of_taken {e : CacheEntry} (h : c.entry? i = some e) :
    c.blockAt i = some e.block := by
  rw [← map_block_entry, h]
  rfl

theorem blockAt_of_free (h : c.entry? i = none) : c.blockAt i = none := by
  rw [← map_block_entry, h]
  rfl

theorem lt_size_of_blockAt (h : c.blockAt i = some b) : i < c.slots.size := by
  have hslot : c.view[i]? = some (some b) := Option.join_eq_some_iff.1 h
  have hlt := (List.getElem?_eq_some_iff.1 hslot).1
  rwa [view, List.length_map, Array.length_toList] at hlt

/-- Two caches hold the same blocks and count the same pages. -/
structure SameBlocks (c c' : BlockCache) : Prop where
  view : c'.view = c.view
  codePages : c'.codePages = c.codePages

namespace SameBlocks

theorem refl (c : BlockCache) : SameBlocks c c :=
  ⟨rfl, rfl⟩

theorem trans {c'' : BlockCache} (h : SameBlocks c c') (h' : SameBlocks c' c'') :
    SameBlocks c c'' :=
  ⟨h'.view.trans h.view, h'.codePages.trans h.codePages⟩

theorem blockAt_eq (h : SameBlocks c c') (i : Nat) : c'.blockAt i = c.blockAt i := by
  rw [blockAt, h.view, blockAt]

end SameBlocks

/-- Changing the slot changes the view there. -/
theorem view_modify (slots : Array CacheSlot) (i : Nat) (f : CacheSlot → CacheSlot)
    (g : Option Block → Option Block)
    (h : ∀ s, (f s).entry.map CacheEntry.block = g (s.entry.map CacheEntry.block)) :
    (slots.modify i f).toList.map (fun s => s.entry.map CacheEntry.block) =
      (slots.toList.map fun s => s.entry.map CacheEntry.block).modify i g := by
  refine List.ext_getElem? fun k => ?_
  rw [List.getElem?_map, Array.getElem?_toList, Array.getElem?_modify, List.getElem?_modify,
    List.getElem?_map, Array.getElem?_toList]
  cases slots[k]? with
  | none => split_ifs <;> rfl
  | some s =>
    split_ifs
    · simp [h]
    · rfl

theorem modify_id {α : Type} (l : List α) (i : Nat) : l.modify i id = l := by
  refine List.ext_getElem? fun k => ?_
  rw [List.getElem?_modify]
  split_ifs <;> cases l[k]? <;> rfl

theorem sameBlocks_modifyEntry (c : BlockCache) (i : Nat) {f : CacheEntry → CacheEntry}
    (hf : ∀ e, (f e).block = e.block) : SameBlocks c (c.modifyEntry i f) := by
  refine ⟨?_, rfl⟩
  refine (view_modify c.slots i _ id fun s => ?_).trans (modify_id _ i)
  cases s.entry with
  | none => rfl
  | some e => exact congrArg some (hf e)

/-! ## Links -/

theorem sameBlocks_linkOlder (c : BlockCache) (newer older : Option Nat) :
    SameBlocks c (c.linkOlder newer older) := by
  cases newer with
  | none => exact ⟨rfl, rfl⟩
  | some j => exact sameBlocks_modifyEntry c j fun _ => rfl

theorem sameBlocks_linkNewer (c : BlockCache) (older newer : Option Nat) :
    SameBlocks c (c.linkNewer older newer) := by
  cases older with
  | none => exact ⟨rfl, rfl⟩
  | some j => exact sameBlocks_modifyEntry c j fun _ => rfl

theorem sameBlocks_unlink (c : BlockCache) (i : Nat) (newer older : Option Nat) :
    SameBlocks c (c.modifyEntry i fun e => { e with newer, older }) :=
  sameBlocks_modifyEntry c i fun _ => rfl

theorem sameBlocks_recencyRemove (c : BlockCache) (i : Nat) : SameBlocks c (c.recencyRemove i) := by
  unfold recencyRemove
  split
  · exact .refl c
  · rename_i e _
    have hunlink := sameBlocks_unlink c i none none
    have holder := sameBlocks_linkOlder
      (c.modifyEntry i fun e => { e with newer := none, older := none }) e.newer e.older
    exact (hunlink.trans holder).trans (sameBlocks_linkNewer _ e.older e.newer)

theorem sameBlocks_recencyPush (c : BlockCache) (i : Nat) : SameBlocks c (c.recencyPush i) := by
  have h := (sameBlocks_unlink c i none c.newest).trans
    (sameBlocks_linkNewer _ c.newest (some i))
  exact ⟨h.view, h.codePages⟩

theorem sameBlocks_chainRemove (c : BlockCache) (i bucket : Nat) (next : Option Nat) :
    SameBlocks c (c.chainRemove i bucket next) := by
  unfold chainRemove
  split_ifs
  · exact ⟨rfl, rfl⟩
  · split
    · exact sameBlocks_modifyEntry c _ fun _ => rfl
    · exact .refl c

/-! ## Looking up -/

/-- What a chain leads to satisfies what was looked for. -/
theorem findInChain_some {p : Block → Bool} {fuel : Nat} {start : Option Nat}
    (h : c.findInChain p fuel start = some i) : ∃ b, c.blockAt i = some b ∧ p b := by
  induction fuel generalizing start with
  | zero => cases h
  | succ fuel ih =>
    cases start with
    | none => cases h
    | some k =>
      rw [findInChain] at h
      split at h
      · cases h
      · rename_i e he
        split_ifs at h with hp
        · cases h
          exact ⟨e.block, blockAt_of_taken he, hp⟩
        · exact ih h

theorem get?_some {h : Handle} (hget : c.get? h = some b) : c.blockAt h.slot = some b := by
  unfold get? at hget
  split_ifs at hget
  rwa [map_block_entry] at hget

/-- Looking up changes the order of the blocks only, and finds one that is there. -/
theorem lookup_cases (c : BlockCache) (physPc : UInt64) (flags : ModeFlags)
    (identity : CodeIdentity) :
    SameBlocks c (c.lookup physPc flags identity).2 ∧
      ∀ h ∈ (c.lookup physPc flags identity).1,
        ∃ b, c.blockAt h.slot = some b ∧ b.isFor physPc flags identity := by
  unfold lookup
  split
  · rename_i i hi
    have hsame :=
      (sameBlocks_recencyRemove c i).trans (sameBlocks_recencyPush (c.recencyRemove i) i)
    refine ⟨⟨hsame.view, hsame.codePages⟩, fun h hh => ?_⟩
    obtain rfl := Option.some.inj hh
    exact findInChain_some hi
  · exact ⟨⟨rfl, rfl⟩, fun h hh => nomatch hh⟩

theorem sameBlocks_lookupBlock (c : BlockCache) (physPc : UInt64) (flags : ModeFlags)
    (identity : CodeIdentity) : SameBlocks c (c.lookupBlock physPc flags identity).2 :=
  (lookup_cases c physPc flags identity).1

/-- **A block that is found is in the cache, and is the one looked for.** -/
theorem lookupBlock_some {physPc : UInt64} {flags : ModeFlags} {identity : CodeIdentity}
    {h : Handle} (hlookup : (c.lookupBlock physPc flags identity).1 = some (h, b)) :
    c.blockAt h.slot = some b ∧ b.isFor physPc flags identity := by
  obtain ⟨hsame, hfor⟩ := lookup_cases c physPc flags identity
  unfold lookupBlock at hlookup
  rcases hresult : c.lookup physPc flags identity with ⟨o, c'⟩
  rw [hresult] at hlookup hsame hfor
  obtain ⟨h', hh', hget⟩ := Option.bind_eq_some_iff.1 hlookup
  obtain ⟨b', hget, heq⟩ := Option.map_eq_some_iff.1 hget
  cases heq
  have hblock := get?_some hget
  rw [hsame.blockAt_eq] at hblock
  obtain ⟨b', hb', hfor⟩ := hfor h hh'
  rw [hblock] at hb'
  cases hb'
  exact ⟨hblock, hfor⟩

/-! ## Counted pages -/

/-- How often what is in a slot lists a page. -/
def pageUses (p : UInt64) (x : Option Block) : Nat :=
  x.elim 0 fun b => b.codePages.count p

/-- How often the blocks in all slots list a page. -/
def totalUses (p : UInt64) (v : List (Option Block)) : Nat :=
  (v.map (pageUses p)).sum

theorem totalUses_modify (p : UInt64) (v : List (Option Block)) (i : Nat)
    (f : Option Block → Option Block) :
    totalUses p (v.modify i f) + v[i]?.elim 0 (pageUses p) =
      totalUses p v + v[i]?.elim 0 fun x => pageUses p (f x) := by
  unfold totalUses
  induction v generalizing i with
  | nil =>
    rw [List.modify_nil]
    rfl
  | cons x v ih =>
    cases i with
    | zero =>
      rw [List.modify_zero_cons, List.map_cons, List.map_cons, List.sum_cons, List.sum_cons,
        List.getElem?_cons_zero, Option.elim_some, Option.elim_some]
      omega
    | succ i =>
      have h := ih i
      rw [List.modify_succ_cons, List.map_cons, List.map_cons, List.sum_cons, List.sum_cons,
        List.getElem?_cons_succ]
      omega

theorem count_le_totalUses (p : UInt64) (h : c.blockAt i = some b) :
    b.codePages.count p ≤ totalUses p c.view := by
  have hslot : c.view[i]? = some (some b) := Option.join_eq_some_iff.1 h
  have hmodify := totalUses_modify p c.view i fun _ => none
  rw [hslot, Option.elim_some, Option.elim_some] at hmodify
  have hb : pageUses p (some b) = b.codePages.count p := rfl
  have hnone : pageUses p none = 0 := rfl
  omega

/-- Taking a page back takes one from its count, as long as there is one. -/
theorem getD_discountPage (table : Std.HashMap UInt64 Nat) (q p : UInt64) :
    (discountPage table q).getD p 0 = table.getD p 0 - if q = p then 1 else 0 := by
  have hq : table.getD q 0 = table[q]?.getD 0 := Std.HashMap.getD_eq_getD_getElem?
  unfold discountPage
  cases hn : table[q]? with
  | none =>
    rw [hn, Option.getD_none] at hq
    dsimp only
    split_ifs with h
    · rw [← h, hq]
    · rfl
  | some n =>
    rw [hn, Option.getD_some] at hq
    dsimp only
    split_ifs with hle h h
    · rw [← h, Std.HashMap.getD_erase, beq_self_eq_true, if_pos rfl, hq]
      omega
    · rw [Std.HashMap.getD_erase, beq_eq_false_iff_ne.2 h, if_neg Bool.false_ne_true, Nat.sub_zero]
    · rw [← h, Std.HashMap.getD_insert_self, hq]
    · rw [Std.HashMap.getD_insert, beq_eq_false_iff_ne.2 h, if_neg Bool.false_ne_true, Nat.sub_zero]

theorem getD_discountPages (table : Std.HashMap UInt64 Nat) (b : Block) (p : UInt64) :
    (discountPages table b).getD p 0 = table.getD p 0 - b.codePages.count p := by
  unfold discountPages
  induction b.codePages generalizing table with
  | nil => rfl
  | cons q pages ih =>
    rw [List.foldl_cons, ih, getD_discountPage, List.count_cons]
    simp only [beq_iff_eq]
    omega

theorem getD_countPages (table : Std.HashMap UInt64 Nat) (b : Block) (p : UInt64) :
    (countPages table b).getD p 0 = table.getD p 0 + b.codePages.count p := by
  unfold countPages
  induction b.codePages generalizing table with
  | nil => rfl
  | cons q pages ih =>
    rw [List.foldl_cons, ih, Std.HashMap.getD_insert, List.count_cons]
    simp only [beq_iff_eq]
    split_ifs with h
    · rw [h]
      omega
    · rfl

/-! ## Sound caches -/

/-- All blocks have a property, and the pages that they list are counted at least as often as they
    are listed. -/
structure Sound (P : Block → Prop) (c : BlockCache) : Prop where
  blocks : ∀ i b, c.blockAt i = some b → P b
  counted : ∀ p, totalUses p c.view ≤ c.codePages.getD p 0

namespace Sound

theorem congr (h : Sound P c) (hsame : SameBlocks c c') : Sound P c' where
  blocks i b hb := h.blocks i b (by rwa [hsame.blockAt_eq] at hb)
  counted p := by
    rw [hsame.view, hsame.codePages]
    exact h.counted p

theorem mono (h : Sound P c) (hPQ : ∀ b, P b → Q b) : Sound Q c :=
  ⟨fun i b hb => hPQ b (h.blocks i b hb), h.counted⟩

theorem empty (capacity hashBits : Nat) : Sound P (.empty capacity hashBits) where
  blocks _ _ hb := nomatch hb
  counted _ := Nat.zero_le _

theorem lookupBlock (h : Sound P c) (physPc : UInt64) (flags : ModeFlags)
    (identity : CodeIdentity) : Sound P (c.lookupBlock physPc flags identity).2 :=
  h.congr (sameBlocks_lookupBlock c physPc flags identity)

end Sound

/-! ## Removing -/

theorem modify_none_eq {v : List (Option Block)} (h : v[i]?.join = none) :
    v.modify i (fun _ => none) = v := by
  refine List.ext_getElem? fun k => ?_
  rw [List.getElem?_modify]
  split_ifs with hk
  · subst hk
    cases hx : v[i]? with
    | none => rfl
    | some x =>
      rw [hx] at h
      exact congrArg some h.symm
  · cases v[k]? <;> rfl

theorem removeSlot_free (h : c.entry? i = none) : c.removeSlot i = (none, c) := by
  unfold removeSlot
  rw [h]

/-- The cache without an entry, before its slot is emptied. -/
theorem sameBlocks_unlinked (c : BlockCache) (i bucket : Nat) (next : Option Nat) :
    SameBlocks c ((c.recencyRemove i).chainRemove i bucket next) :=
  (sameBlocks_recencyRemove c i).trans (sameBlocks_chainRemove _ i bucket next)

theorem view_removeSlot (c : BlockCache) (i : Nat) :
    (c.removeSlot i).2.view = c.view.modify i fun _ => none := by
  cases he : c.entry? i with
  | none =>
    rw [removeSlot_free he]
    exact (modify_none_eq (blockAt_of_free he)).symm
  | some e =>
    unfold removeSlot
    rw [he]
    dsimp only
    rw [← (sameBlocks_unlinked c i e.bucket e.chainNext).view]
    exact view_modify _ i _ (fun _ => none) fun _ => rfl

theorem blockAt_removeSlot (c : BlockCache) (i j : Nat) :
    (c.removeSlot i).2.blockAt j = if i = j then none else c.blockAt j := by
  rw [blockAt, view_removeSlot, List.getElem?_modify, blockAt]
  split_ifs
  · cases c.view[j]? <;> rfl
  · cases c.view[j]? <;> rfl

/-- A slot is emptied together with the counts of its pages. -/
theorem codePages_removeSlot {e : CacheEntry} (he : c.entry? i = some e) :
    (c.removeSlot i).2.codePages = discountPages c.codePages e.block := by
  unfold removeSlot
  rw [he]
  exact congrArg (discountPages · e.block)
    (sameBlocks_unlinked c i e.bucket e.chainNext).codePages

theorem getD_codePages_removeSlot (c : BlockCache) (i : Nat) (p : UInt64) :
    (c.removeSlot i).2.codePages.getD p 0 =
      c.codePages.getD p 0 - pageUses p (c.blockAt i) := by
  cases he : c.entry? i with
  | none =>
    rw [removeSlot_free he, blockAt_of_free he]
    rfl
  | some e =>
    rw [codePages_removeSlot he, getD_discountPages, blockAt_of_taken he]
    rfl

/-- A slot that is emptied takes the pages of its block along. -/
theorem totalUses_removeSlot (c : BlockCache) (i : Nat) (p : UInt64) :
    totalUses p (c.removeSlot i).2.view + pageUses p (c.blockAt i) = totalUses p c.view := by
  have hmodify := totalUses_modify p c.view i fun _ => none
  have hslot : c.view[i]?.elim 0 (pageUses p) = pageUses p (c.blockAt i) := by
    rw [blockAt]
    cases c.view[i]? <;> rfl
  have hnone : c.view[i]?.elim 0 (fun _ => pageUses p none) = 0 := by
    cases c.view[i]? <;> rfl
  rw [view_removeSlot]
  omega

theorem view_flush (c : BlockCache) : c.flush.view = c.view.map fun _ => none := by
  unfold view BlockCache.flush
  rw [Array.toList_map, List.map_map, List.map_map]
  refine List.map_congr_left fun s _ => ?_
  show (if s.entry.isSome then (⟨s.generation + 1, none⟩ : CacheSlot) else s).entry.map _ = none
  split_ifs with hs
  · rfl
  · rw [Option.not_isSome_iff_eq_none.1 hs]
    rfl

theorem totalUses_flush (c : BlockCache) (p : UInt64) : totalUses p c.flush.view = 0 := by
  rw [view_flush]
  unfold totalUses
  induction c.view with
  | nil => rfl
  | cons x v ih =>
    rw [List.map_cons, List.map_cons, List.sum_cons, ih]
    rfl

namespace Sound

theorem removeSlot (h : Sound P c) (i : Nat) : Sound P (c.removeSlot i).2 where
  blocks j b hb := by
    rw [blockAt_removeSlot] at hb
    split_ifs at hb
    exact h.blocks j b hb
  counted p := by
    have hcounted := h.counted p
    have huses := totalUses_removeSlot c i p
    rw [getD_codePages_removeSlot]
    omega

theorem remove (h : Sound P c) (handle : Handle) : Sound P (c.remove handle).2 := by
  unfold BlockCache.remove
  split_ifs
  · exact h.removeSlot handle.slot
  · exact h

theorem evict (h : Sound P c) (fuel : Nat) : Sound P (c.evict fuel) := by
  induction fuel generalizing c with
  | zero => exact h
  | succ fuel ih =>
    unfold BlockCache.evict
    split_ifs
    · exact h
    · split
      · exact h
      · rename_i i _
        exact ih ((h.removeSlot i).congr ⟨rfl, rfl⟩)

theorem flush (c : BlockCache) : Sound P c.flush := by
  refine ⟨fun i b hb => ?_, fun p => ?_⟩
  · rw [blockAt, view_flush, List.getElem?_map] at hb
    cases hslot : c.view[i]? with
    | none => rw [hslot] at hb; cases hb
    | some x => rw [hslot] at hb; cases hb
  · rw [totalUses_flush]
    exact Nat.zero_le _

end Sound

/-! ## Inserting -/

/-- The slot taken is one of those there were, or a new one without a block. -/
theorem view_takeSlot (c : BlockCache) :
    c.takeSlot.2.view = c.view ∨ c.takeSlot.2.view = c.view ++ [none] := by
  unfold BlockCache.takeSlot
  split
  · exact .inl rfl
  · right
    unfold view
    rw [Array.toList_push, List.map_append]
    rfl

theorem codePages_takeSlot (c : BlockCache) : c.takeSlot.2.codePages = c.codePages := by
  unfold BlockCache.takeSlot
  split <;> rfl

theorem totalUses_takeSlot (c : BlockCache) (p : UInt64) :
    totalUses p c.takeSlot.2.view = totalUses p c.view := by
  obtain hview | hview := view_takeSlot c
  · rw [hview]
  · rw [hview, totalUses, List.map_append, List.sum_append]
    rfl

theorem Sound.takeSlot (h : Sound P c) : Sound P c.takeSlot.2 := by
  refine ⟨fun i b hb => h.blocks i b ?_, fun p => ?_⟩
  · obtain hview | hview := view_takeSlot c
    · rwa [blockAt, hview] at hb
    · rw [blockAt, hview, List.getElem?_append] at hb
      split_ifs at hb with hi
      · exact hb
      · cases hslot : ([none] : List (Option Block))[i - c.view.length]? with
        | none => rw [hslot] at hb; cases hb
        | some x =>
          rw [hslot, List.mem_singleton.1 (List.mem_of_getElem? hslot)] at hb
          cases hb
  · rw [totalUses_takeSlot, codePages_takeSlot]
    exact h.counted p

/-- The cache without the block that is to be replaced, with room for another one. -/
def makeRoom (c : BlockCache) (b : Block) : BlockCache :=
  let c :=
    match c.find? b.physPc b.flags b.identity with
    | some i => (c.removeSlot i).2
    | none => c
  c.evict c.size

theorem Sound.makeRoom (h : Sound P c) (b : Block) : Sound P (c.makeRoom b) := by
  unfold BlockCache.makeRoom
  split
  · exact (h.removeSlot _).evict _
  · exact h.evict _

/-- A block is put into the slot taken, and its pages are counted. -/
theorem insert_spec (c : BlockCache) (b : Block) :
    (c.insert b).1.slot = (c.makeRoom b).takeSlot.1 ∧
      (c.insert b).2.view = (c.makeRoom b).takeSlot.2.view.modify (c.makeRoom b).takeSlot.1
        (fun _ => some b) ∧
      (c.insert b).2.codePages = countPages (c.makeRoom b).takeSlot.2.codePages b := by
  unfold insert makeRoom
  dsimp only
  generalize BlockCache.evict _ _ = c₁
  rcases c₁.takeSlot with ⟨i, c₂⟩
  dsimp only
  generalize c₁.bucketOf b.physPc b.key = bucket
  have hlinked := sameBlocks_recencyPush
    (({ c₂ with
        slots := c₂.slots.modify i fun s =>
          { s with
            entry := some { block := b, bucket, chainNext := c₂.chainHead bucket } } } :
      BlockCache).chainPush i bucket) i
  refine ⟨rfl, hlinked.view.trans ?_, congrArg (countPages · b) hlinked.codePages⟩
  exact view_modify c₂.slots i _ (fun _ => some b) fun _ => rfl

theorem Sound.insert (h : Sound P c) (hb : P b) : Sound P (c.insert b).2 := by
  obtain ⟨-, hview, hcodePages⟩ := insert_spec c b
  have hroom := (h.makeRoom b).takeSlot
  generalize (c.makeRoom b).takeSlot = room at hview hcodePages hroom
  obtain ⟨i, c₁⟩ := room
  refine ⟨fun j b' hb' => ?_, fun p => ?_⟩
  · rw [blockAt, hview, List.getElem?_modify] at hb'
    split_ifs at hb'
    · cases hslot : c₁.view[j]? with
      | none => rw [hslot] at hb'; cases hb'
      | some x =>
        rw [hslot] at hb'
        obtain rfl := Option.some.inj hb'
        exact hb
    · refine hroom.blocks j b' ?_
      rw [blockAt]
      cases hslot : c₁.view[j]? with
      | none => rw [hslot] at hb'; cases hb'
      | some x => rwa [hslot] at hb'
  · have hcounted := hroom.counted p
    have hmodify := totalUses_modify p c₁.view i fun _ => some b
    have hadded : c₁.view[i]?.elim 0 (fun _ => pageUses p (some b)) ≤ b.codePages.count p := by
      cases c₁.view[i]? with
      | none => exact Nat.zero_le _
      | some x => exact Nat.le_refl _
    rw [hview, hcodePages, getD_countPages]
    dsimp only at hcounted hmodify hadded ⊢
    omega

/-- The block that has been inserted is what its handle leads to. -/
theorem get?_insert {b' : Block} (h : (c.insert b).2.get? (c.insert b).1 = some b') : b' = b := by
  have hblock := get?_some h
  obtain ⟨hslot, hview, -⟩ := insert_spec c b
  rw [blockAt, hslot, hview, List.getElem?_modify_eq] at hblock
  cases hx : (c.makeRoom b).takeSlot.2.view[(c.makeRoom b).takeSlot.1]? with
  | none => rw [hx] at hblock; cases hblock
  | some x =>
    rw [hx] at hblock
    exact (Option.some.inj hblock).symm

/-! ## Writes to memory -/

/-- A write may touch code if it touches a counted page. -/
theorem containsCode_iff {start n : UInt64} (hn : 0 < n) :
    c.containsCode start n ↔ ∃ p ∈ c.codePages, TouchesPage start n p := by
  have hne : n ≠ 0 := UInt64.pos_iff_ne_zero.1 hn
  simp [touchesPage_iff hn, containsCode, hne]

/-- The table does not miss a page of a block that a write meets. -/
theorem Sound.containsCode (h : Sound P c)
    (hranges : ∀ b, P b → ∀ r ∈ b.ranges, r.start.toNat + r.length.toNat < 2 ^ 64)
    {start n : UInt64} (hb : c.blockAt i = some b) (hmeets : b.meets start n) :
    c.containsCode start n = true := by
  obtain ⟨r, hr, hmeets⟩ := List.any_eq_true.1 hmeets
  obtain ⟨p, hp, htouches⟩ := CodeRange.exists_page_of_meets (hranges b (h.blocks i b hb) r hr) hmeets
  have hlisted : p ∈ b.codePages := List.mem_flatMap.2 ⟨r, hr, hp⟩
  have hcount := Nat.lt_of_lt_of_le (List.count_pos_iff.2 hlisted)
    (Nat.le_trans (count_le_totalUses p hb) (h.counted p))
  have hkey : p ∈ c.codePages := by
    by_contra hmem
    rw [Std.HashMap.getD_eq_fallback hmem] at hcount
    exact Nat.lt_irrefl 0 hcount
  have hn : n ≠ 0 := by
    rintro rfl
    cases hmeets
  exact (containsCode_iff (UInt64.pos_iff_ne_zero.2 hn)).2 ⟨p, hkey, htouches⟩

/-- The cache after slots have been emptied one after another. -/
def removeSlots (c : BlockCache) (slots : List Nat) : BlockCache :=
  slots.foldl (fun c i => (c.removeSlot i).2) c

/-- Emptying slots leaves the blocks of the other slots. -/
theorem Sound.removeSlots (h : Sound P c) (slots : List Nat) :
    Sound P (c.removeSlots slots) ∧ ∀ i b, (c.removeSlots slots).blockAt i = some b →
      i ∉ slots ∧ c.blockAt i = some b := by
  induction slots generalizing c with
  | nil => exact ⟨h, fun i b hb => ⟨List.not_mem_nil, hb⟩⟩
  | cons k slots ih =>
    obtain ⟨hsound, hothers⟩ := ih (h.removeSlot k)
    refine ⟨hsound, fun i b hb => ?_⟩
    obtain ⟨hi, hb⟩ := hothers i b hb
    rw [blockAt_removeSlot] at hb
    split_ifs at hb with hk
    exact ⟨fun hmem => (List.mem_cons.1 hmem).elim (fun heq => hk heq.symm) hi, hb⟩

/-- The slots that are emptied after a write. -/
def slotsHit (c : BlockCache) (start n : UInt64) : List Nat :=
  if c.containsCode start n then c.slotsMeeting start n else []

theorem invalidate_eq (c : BlockCache) (start n : UInt64) :
    c.invalidate start n =
      let hit := c.slotsHit start n
      let c := c.removeSlots hit
      (hit.length, { c with stats.invalidations := c.stats.invalidations + hit.length }) := by
  unfold BlockCache.invalidate slotsHit
  split_ifs <;> rfl

/-- The blocks that a write leaves are as sound as before. -/
theorem Sound.dropHit (h : Sound P c) (start n : UInt64) : Sound P (c.invalidate start n).2 := by
  obtain ⟨hsound, -⟩ := h.removeSlots (c.slotsHit start n)
  rw [invalidate_eq]
  exact ⟨hsound.blocks, hsound.counted⟩

/-- **After a write no block is left that the write meets.** -/
theorem Sound.invalidate (h : Sound P c)
    (hranges : ∀ b, P b → ∀ r ∈ b.ranges, r.start.toNat + r.length.toNat < 2 ^ 64)
    (start n : UInt64) :
    Sound (fun b => P b ∧ b.meets start n = false) (c.invalidate start n).2 := by
  unfold BlockCache.invalidate
  split_ifs with hcode
  · obtain ⟨hsound, hothers⟩ := h.removeSlots (c.slotsMeeting start n)
    refine ⟨fun i b hb => ?_, hsound.counted⟩
    obtain ⟨hi, hb'⟩ := hothers i b hb
    refine ⟨h.blocks i b hb', ?_⟩
    by_contra hmeets
    refine hi (List.mem_filter.2 ⟨List.mem_range.2 (lt_size_of_blockAt hb'), ?_⟩)
    rw [← map_block_entry] at hb'
    obtain ⟨e, he, rfl⟩ := Option.map_eq_some_iff.1 hb'
    rw [he, Option.any_some]
    exact (Bool.not_eq_false _).mp hmeets
  · refine ⟨fun i b hb => ⟨h.blocks i b hb, ?_⟩, h.counted⟩
    by_contra hmeets
    exact hcode (h.containsCode hranges hb (by simpa using hmeets))

end BlockCache

end X86Replay

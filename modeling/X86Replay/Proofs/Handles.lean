import X86Replay.Proofs.Removals

/-!
# Handles to blocks that are gone

Slots are used again and again. What tells the blocks that have been in a slot apart is its
generation, a word of 32 bits that goes up by one each time the slot is emptied, by whatever
operation. So a handle leads to the block it has been given out for, to nothing, or, once its slot
has been emptied a multiple of `2 ^ 32` times, to whatever is there by then.

* `BlockCache.emptied`, `BlockCache.emptiedAll`: the slots that operations empty, as an observer of
  the slots and the answers sees it.
* `BlockCache.Empties`: what emptying slots does.
* `Linked.perform_cases`, `Linked.mem_emptied_iff`: operations empty the slots that are listed for
  them, and an insertion fills a free one.
* `Linked.generation_performAll`, `Linked.blockAt_performAll`: generations count how often slots have
  been emptied; a block stays in its slot until then.
* `handles_do_not_resolve_to_others`: what a handle leads to.
-/

namespace X86Replay

/-! ## Slots that are emptied -/

/-- The answer says that a block has been put into a slot. -/
def CacheAnswer.fills (i : Nat) : CacheAnswer → Bool
  | .inserted h => h.slot == i
  | _ => false

/-- The block that an operation is about: the one to insert, or the one that is looked for. -/
def CacheOp.IsAbout (b : Block) : CacheOp → Prop
  | .insert b' => b' = b
  | .lookup physPc flags identity => b.isFor physPc flags identity
  | _ => False

namespace BlockCache

variable {c c' c'' : BlockCache} {order : List Nat} {gone gone' : List Nat} {i j : Nat} {b : Block}

/-- The slots that an operation empties: those with a block before, and afterwards with none or with
    one that the operation has inserted. -/
def emptied (c : BlockCache) (op : CacheOp) : List Nat :=
  (List.range c.slots.size).filter fun i =>
    (c.blockAt i).isSome &&
      (((c.perform op).2.blockAt i).isNone || (c.perform op).1.fills i)

/-- The slots that operations empty which are done one after the other, as often as they do. -/
def emptiedAll (c : BlockCache) : List CacheOp → List Nat
  | [] => []
  | op :: ops => c.emptied op ++ (c.perform op).2.emptiedAll ops

/-! ## Emptying slots -/

/-- The second cache is the first with some of the taken slots emptied, links apart. -/
structure Empties (c : BlockCache) (gone : List Nat) (c' : BlockCache) : Prop where
  taken : ∀ i ∈ gone, c.blockAt i ≠ none
  blockAt : ∀ i, c'.blockAt i = if i ∈ gone then none else c.blockAt i
  generation : ∀ i, c'.generation i = if i ∈ gone then c.generation i + 1 else c.generation i

namespace Empties

theorem refl (c : BlockCache) : Empties c [] c :=
  ⟨fun _ hi => absurd hi List.not_mem_nil, fun _ => (if_neg List.not_mem_nil).symm,
    fun _ => (if_neg List.not_mem_nil).symm⟩

/-- No slot is emptied twice, since the second time it would have to be taken. -/
theorem trans (h : Empties c gone c') (h' : Empties c' gone' c'') :
    Empties c (gone ++ gone') c'' := by
  have hdisjoint (i : Nat) (hi : i ∈ gone) : i ∉ gone' := fun hi' => by
    have htaken := h'.taken i hi'
    rw [h.blockAt, if_pos hi] at htaken
    exact htaken rfl
  refine ⟨fun i hi => ?_, fun i => ?_, fun i => ?_⟩
  · by_cases hmem : i ∈ gone
    · exact h.taken i hmem
    · have htaken := h'.taken i ((List.mem_append.1 hi).resolve_left hmem)
      rwa [h.blockAt, if_neg hmem] at htaken
  · rw [h'.blockAt, h.blockAt]
    by_cases hmem : i ∈ gone
    · simp [hmem]
    · simp [hmem]
  · rw [h'.generation, h.generation]
    by_cases hmem : i ∈ gone
    · simp [hmem, hdisjoint i hmem]
    · simp [hmem]

/-- A free slot cannot be emptied. -/
theorem removeSlot (c : BlockCache) (i : Nat) :
    ∃ gone, Empties c gone (c.removeSlot i).2 ∧
      ∀ j, j ∈ gone ↔ j = i ∧ c.blockAt j ≠ none := by
  cases he : c.entry? i with
  | none =>
    rw [removeSlot_free he]
    refine ⟨[], .refl c, fun j => iff_of_false List.not_mem_nil ?_⟩
    rintro ⟨rfl, htaken⟩
    exact htaken (blockAt_of_free he)
  | some e =>
    have htaken : c.blockAt i ≠ none := by
      rw [blockAt_of_taken he]
      exact Option.some_ne_none _
    refine ⟨[i], ⟨fun j hj => ?_, fun j => ?_, fun j => ?_⟩, fun j => ?_⟩
    · rwa [List.mem_singleton.1 hj]
    · rw [blockAt_removeSlot]
      simp only [List.mem_singleton, eq_comm]
    · rw [(freed_removeSlot he).generation]
      simp only [List.mem_singleton, eq_comm]
    · rw [List.mem_singleton]
      refine ⟨?_, And.left⟩
      rintro rfl
      exact ⟨rfl, htaken⟩

/-- **Of slots that are emptied one after another, those that are taken are.** -/
theorem removeSlots (c : BlockCache) (slots : List Nat) :
    ∃ gone, Empties c gone (c.removeSlots slots) ∧
      ∀ j, j ∈ gone ↔ j ∈ slots ∧ c.blockAt j ≠ none := by
  induction slots generalizing c with
  | nil => exact ⟨[], .refl c, fun j => iff_of_false List.not_mem_nil fun hj => nomatch hj.1⟩
  | cons i slots ih =>
    obtain ⟨gone, h, hmem⟩ := removeSlot c i
    obtain ⟨gone', h', hmem'⟩ := ih (c.removeSlot i).2
    refine ⟨_, h.trans h', fun j => ?_⟩
    rw [List.mem_append, hmem', h.blockAt, List.mem_cons]
    by_cases hgone : j ∈ gone
    · obtain ⟨rfl, htaken⟩ := (hmem j).1 hgone
      simp [hgone, htaken]
    · rw [hmem, not_and_or, not_not] at hgone
      obtain hj | hfree := hgone
      · simp [hmem, hj]
      · simp [hmem, hfree]

/-- Counters make no difference. -/
theorem withStats (h : Empties c gone c') (stats : CacheStats) :
    Empties c gone { c' with stats } :=
  ⟨h.taken, h.blockAt, h.generation⟩

/-- The generations of free slots stay as they are. -/
theorem flush (c : BlockCache) : ∃ gone, Empties c gone c.flush := by
  refine ⟨(List.range c.slots.size).filter fun i => (c.blockAt i).isSome, fun i hi => ?_,
    fun i => ?_, fun i => ?_⟩
  · exact Option.isSome_iff_ne_none.1 (List.mem_filter.1 hi).2
  · have hnone : c.flush.blockAt i = none := Option.eq_none_iff_forall_ne_some.2 fun b hb =>
      (Sound.flush (P := fun _ => False) c).blocks i b hb
    rw [hnone]
    split_ifs with hi
    · rfl
    · refine (Option.eq_none_iff_forall_ne_some.2 fun b hb => hi ?_).symm
      exact List.mem_filter.2 ⟨List.mem_range.2 (lt_size_of_blockAt hb), by rw [hb]; rfl⟩
  · have hmem : (i ∈ (List.range c.slots.size).filter fun i => (c.blockAt i).isSome) ↔
        (c.entry? i).isSome := by
      rw [List.mem_filter, ← map_block_entry, Option.isSome_map, List.mem_range]
      refine and_iff_right_of_imp fun hi => ?_
      obtain ⟨e, he⟩ := Option.isSome_iff_exists.1 hi
      exact lt_size_of_taken he
    simp only [hmem]
    unfold BlockCache.generation entry? BlockCache.flush
    dsimp only
    rw [Array.getElem?_map]
    cases c.slots[i]? with
    | none => rfl
    | some s =>
      dsimp only [Option.map_some, Option.elim_some, Option.bind_some]
      split_ifs <;> rfl

end Empties

/-! ## Operations -/

/-- **What an operation does to slots.** It empties some, those listed unless it is a flush, after
    which an insertion fills a free one. -/
theorem Linked.perform_cases (h : c.Linked order) (op : CacheOp) :
    ∃ gone room, Empties c gone room ∧
      (op ≠ .flush → ∀ i, i ∈ gone ↔ i ∈ c.removals op ∧ c.blockAt i ≠ none) ∧
      ((∀ i, (c.perform op).1.fills i = false) ∧
          (∀ i, (c.perform op).2.blockAt i = room.blockAt i) ∧
          (∀ i, (c.perform op).2.generation i = room.generation i) ∨
        ∃ b k, op = .insert b ∧ room.blockAt k = none ∧
          (∀ i, (c.perform op).1.fills i = (k == i)) ∧
          (∀ i, (c.perform op).2.blockAt i = if k = i then some b else room.blockAt i) ∧
          ∀ i, (c.perform op).2.generation i = room.generation i) := by
  cases op with
  | lookup physPc flags identity =>
    have hnone (i : Nat) : i ∈ [] ↔ i ∈ c.removals (.lookup physPc flags identity) ∧
        c.blockAt i ≠ none :=
      iff_of_false List.not_mem_nil fun hi => List.not_mem_nil hi.1
    refine ⟨[], c, .refl c, fun _ => hnone, .inl ⟨fun _ => rfl, fun i => ?_, fun i => ?_⟩⟩
    · exact (sameBlocks_lookupBlock c physPc flags identity).blockAt_eq i
    · show (c.lookup physPc flags identity).2.generation i = c.generation i
      unfold BlockCache.lookup
      split
      · rename_i k _
        exact ((Relinked.recencyRemove c k).trans (.recencyPush _ k)).generation i
      · rfl
  | insert b =>
    obtain ⟨stats, hmakeRoom⟩ := makeRoom_eq c b
    obtain ⟨gone, hremoved, hmem⟩ := Empties.removeSlots c (c.displaced b)
    have hgone := hremoved.withStats stats
    rw [← hmakeRoom] at hgone
    obtain ⟨c₀, order₀, hroom, h₀, -⟩ := h.replace b
    have htakes := (hroom ▸ h₀.evict.1).takeSlot
    refine ⟨gone, c.makeRoom b, hgone, fun _ => hmem,
      .inr ⟨b, (c.makeRoom b).takeSlot.1, rfl, htakes.vacant, ?_⟩⟩
    have hperform : c.perform (.insert b) = (.inserted (c.insert b).1, (c.insert b).2) := rfl
    rw [hperform, insert_eq]
    dsimp only
    exact ⟨fun _ => rfl, htakes.blockAt_fillSlot b _,
      fun i => congrArg Handle.generation ((htakes.filled b _).handle i)⟩
  | remove handle =>
    obtain ⟨gone, hgone, hmem⟩ := Empties.removeSlots c (c.removals (.remove handle))
    rw [← remove_eq_removeSlots] at hgone
    exact ⟨gone, _, hgone, fun _ => hmem, .inl ⟨fun _ => rfl, fun _ => rfl, fun _ => rfl⟩⟩
  | invalidate start n =>
    obtain ⟨stats, hdropped⟩ := invalidate_eq_removeSlots c start n
    obtain ⟨gone, hremoved, hmem⟩ := Empties.removeSlots c (c.removals (.invalidate start n))
    have hgone := hremoved.withStats stats
    rw [← hdropped] at hgone
    exact ⟨gone, _, hgone, fun _ => hmem, .inl ⟨fun _ => rfl, fun _ => rfl, fun _ => rfl⟩⟩
  | flush =>
    obtain ⟨gone, hgone⟩ := Empties.flush c
    exact ⟨gone, _, hgone, fun hop => absurd rfl hop,
      .inl ⟨fun _ => rfl, fun _ => rfl, fun _ => rfl⟩⟩

theorem mem_emptied {op : CacheOp} : i ∈ c.emptied op ↔ c.blockAt i ≠ none ∧
    ((c.perform op).2.blockAt i = none ∨ (c.perform op).1.fills i) := by
  unfold emptied
  rw [List.mem_filter, Bool.and_eq_true, Bool.or_eq_true, Option.isNone_iff_eq_none,
    Option.isSome_iff_ne_none, List.mem_range]
  refine and_iff_right_of_imp fun hi => ?_
  obtain ⟨b, hb⟩ := Option.ne_none_iff_exists'.1 hi.1
  exact lt_size_of_blockAt hb

/-- The slots that an operation is seen to empty are those emptied before it fills one, and the
    blocks that it leaves where they are stay. -/
theorem Linked.perform_empties (h : c.Linked order) (op : CacheOp) :
    ∃ gone room, Empties c gone room ∧
      (op ≠ .flush → ∀ i, i ∈ gone ↔ i ∈ c.removals op ∧ c.blockAt i ≠ none) ∧
      (∀ i, i ∈ c.emptied op ↔ i ∈ gone) ∧
      (∀ i, (c.perform op).2.generation i = room.generation i) ∧
      ∀ i b, room.blockAt i = some b → (c.perform op).2.blockAt i = some b := by
  obtain ⟨gone, room, hgone, hlisted, ⟨hfills, hblock, hgeneration⟩ | ⟨b, k, -, hvacant, hfills,
    hblock, hgeneration⟩⟩ := h.perform_cases op
  · refine ⟨gone, room, hgone, hlisted, fun i => ?_, hgeneration,
      fun i b hb => (hblock i).trans hb⟩
    rw [mem_emptied, hfills, hblock, hgone.blockAt]
    constructor
    · rintro ⟨htaken, hnone | hfilled⟩
      · by_contra hi
        exact htaken (by rwa [if_neg hi] at hnone)
      · cases hfilled
    · exact fun hi => ⟨hgone.taken i hi, .inl (if_pos hi)⟩
  · refine ⟨gone, room, hgone, hlisted, fun i => ?_, hgeneration, fun i b' hb' => ?_⟩
    · rw [mem_emptied, hfills, hblock, beq_iff_eq]
      constructor
      · rintro ⟨htaken, hnone | rfl⟩
        · by_contra hi
          split_ifs at hnone
          exact htaken (by rwa [hgone.blockAt, if_neg hi] at hnone)
        · by_contra hi
          exact htaken (by rwa [hgone.blockAt, if_neg hi] at hvacant)
      · intro hi
        refine ⟨hgone.taken i hi, ?_⟩
        by_cases hki : k = i
        · exact .inr hki
        · rw [if_neg hki, hgone.blockAt, if_pos hi]
          exact .inl rfl
    · have hki : k ≠ i := fun hki => by
        rw [← hki, hvacant] at hb'
        cases hb'
      rw [hblock, if_neg hki, hb']

/-- **The slots that an operation is seen to empty are the taken ones that are listed**, unless it
    flushes the cache. -/
theorem Linked.mem_emptied_iff (h : c.Linked order) {op : CacheOp} (hop : op ≠ .flush) :
    i ∈ c.emptied op ↔ i ∈ c.removals op ∧ c.blockAt i ≠ none := by
  obtain ⟨gone, room, -, hlisted, hmem, -⟩ := h.perform_empties op
  rw [hmem, hlisted hop]

/-- **An operation raises the generation of the slots it empties, by one, and leaves the blocks in
    all other slots where they are.** -/
theorem Linked.perform_slot (h : c.Linked order) (op : CacheOp) (i : Nat) :
    (c.perform op).2.generation i =
        (if i ∈ c.emptied op then c.generation i + 1 else c.generation i) ∧
      (i ∉ c.emptied op → ∀ b, c.blockAt i = some b → (c.perform op).2.blockAt i = some b) := by
  obtain ⟨gone, room, hgone, -, hmem, hgeneration, hstays⟩ := h.perform_empties op
  refine ⟨?_, fun hi b hb => hstays i b ?_⟩
  · simp only [hgeneration, hgone.generation, hmem]
  · rw [hgone.blockAt, if_neg fun hmem' => hi ((hmem i).2 hmem'), hb]

theorem nodup_emptied (c : BlockCache) (op : CacheOp) : (c.emptied op).Nodup :=
  List.nodup_range.filter _

/-- **Generations count how often slots are emptied.** -/
theorem Linked.generation_performAll (h : c.Linked order) (ops : List CacheOp) (i : Nat) :
    (c.performAll ops).2.generation i =
      c.generation i + UInt32.ofNat ((c.emptiedAll ops).count i) := by
  induction ops generalizing c order with
  | nil => exact (UInt32.add_zero _).symm
  | cons op ops ih =>
    obtain ⟨order', h', -⟩ := h.perform op
    show ((c.perform op).2.performAll ops).2.generation i = _
    rw [ih h', (h.perform_slot op i).1, emptiedAll, List.count_append, UInt32.ofNat_add,
      (c.nodup_emptied op).count]
    split_ifs
    · rw [UInt32.add_assoc]
      rfl
    · rw [← UInt32.add_assoc]
      exact congrArg (· + _) (UInt32.add_zero _).symm

/-- A block stays in its slot until that is emptied. -/
theorem Linked.blockAt_performAll (h : c.Linked order) {ops : List CacheOp}
    (hops : i ∉ c.emptiedAll ops) (hb : c.blockAt i = some b) :
    (c.performAll ops).2.blockAt i = some b := by
  induction ops generalizing c order with
  | nil => exact hb
  | cons op ops ih =>
    obtain ⟨order', h', -⟩ := h.perform op
    rw [emptiedAll, List.mem_append, not_or] at hops
    exact ih h' hops.2 ((h.perform_slot op i).2 hops.1 b hb)

/-! ## Handles -/

theorem get?_of_generation {h : Handle} (hgeneration : c.generation h.slot = h.generation) :
    c.get? h = c.blockAt h.slot := by
  rw [get?, if_pos hgeneration, map_block_entry]

/-- Removing by handle gives what the handle leads to, and does nothing if that is nothing. -/
theorem remove_eq (c : BlockCache) (h : Handle) :
    (c.remove h).1 = c.get? h ∧ (c.get? h = none → (c.remove h).2 = c) := by
  unfold BlockCache.remove get? removeSlot
  split_ifs
  · cases c.entry? h.slot with
    | none => exact ⟨rfl, fun _ => rfl⟩
    | some e => exact ⟨rfl, fun hnone => nomatch hnone⟩
  · exact ⟨rfl, fun _ => rfl⟩

/-- **A handle that is given out leads to the block that the operation is about.** -/
theorem Linked.perform_handle (h : c.Linked order) (op : CacheOp) {handle : Handle}
    (hanswer : (c.perform op).1 = .inserted handle ∨ (c.perform op).1 = .found (some handle)) :
    ∃ b, op.IsAbout b ∧ (c.perform op).2.blockAt handle.slot = some b ∧
      (c.perform op).2.generation handle.slot = handle.generation := by
  -- Only a lookup and an insertion give out handles, each with the generation its slot has then.
  cases op with
  | lookup physPc flags identity =>
    obtain hanswer | hanswer := hanswer
    · cases hanswer
    · replace hanswer : (c.lookup physPc flags identity).1 = some handle := by
        injection hanswer
      obtain ⟨hsame, hfound⟩ := lookup_cases c physPc flags identity
      obtain ⟨b, hb, hfor⟩ := hfound handle hanswer
      refine ⟨b, hfor, (hsame.blockAt_eq _).trans hb, ?_⟩
      show (c.lookup physPc flags identity).2.generation handle.slot = handle.generation
      unfold BlockCache.lookup at hanswer ⊢
      split at hanswer
      · rename_i k hk
        cases hanswer
        rfl
      · cases hanswer
  | insert b =>
    obtain hanswer | hanswer := hanswer
    · replace hanswer : (c.insert b).1 = handle := by injection hanswer
      obtain ⟨c₀, order₀, hroom, h₀, -⟩ := h.replace b
      have htakes := (hroom ▸ h₀.evict.1).takeSlot
      show ∃ b', b = b' ∧ (c.insert b).2.blockAt handle.slot = some b' ∧
        (c.insert b).2.generation handle.slot = handle.generation
      rw [insert_eq] at hanswer ⊢
      dsimp only at hanswer ⊢
      refine ⟨b, rfl, ?_, ?_⟩
      · rw [← hanswer, htakes.blockAt_fillSlot]
        exact if_pos rfl
      · rw [← hanswer]
        rfl
    · cases hanswer
  | remove _ | invalidate _ _ | flush => obtain hanswer | hanswer := hanswer <;> cases hanswer

/-- **A block that has been inserted is what its handle leads to.** -/
theorem Linked.get?_insert (h : c.Linked order) (b : Block) :
    (c.insert b).2.get? (c.insert b).1 = some b := by
  obtain ⟨b', rfl, hb, hgeneration⟩ := h.perform_handle (.insert b) (.inl rfl)
  exact (get?_of_generation hgeneration).trans hb

/-- Words are equal after an addition if and only if it is one of a multiple of their range. -/
theorem add_ofNat_eq_self_iff (x : UInt32) (n : Nat) : x + UInt32.ofNat n = x ↔ 2 ^ 32 ∣ n := by
  rw [← UInt32.toNat_inj, UInt32.toNat_add, UInt32.toNat_ofNat']
  have hx := x.toNat_lt
  omega

/-- **A handle does not lead to another block.** Whatever has been done to a new cache before a
    handle is given out, and whatever is done to it afterwards: the handle leads to the block it has
    been given out for until the slot of that block is emptied, and from then on to nothing, but for
    slots that have been emptied a multiple of `2 ^ 32` times. As long as fewer than `2 ^ 32` blocks
    have been removed, it does not lead to any other block. Removing by the handle gives what it
    leads to, and does nothing if that is nothing. -/
theorem handles_do_not_resolve_to_others (capacity hashBits : Nat) (before : List CacheOp)
    (op : CacheOp) {answer : CacheAnswer} {issued : BlockCache} {h : Handle}
    (hissued : ((empty capacity hashBits).performAll before).2.perform op = (answer, issued))
    (hanswer : answer = .inserted h ∨ answer = .found (some h)) :
    h.slot < max capacity 1 ∧ ∃ b, op.IsAbout b ∧ ∀ later : List CacheOp,
      (h.slot ∉ issued.emptiedAll later → (issued.performAll later).2.get? h = some b) ∧
      (h.slot ∈ issued.emptiedAll later → (issued.performAll later).2.get? h = none ∨
        2 ^ 32 ∣ (issued.emptiedAll later).count h.slot) ∧
      ((issued.emptiedAll later).length < 2 ^ 32 →
        ∀ b', (issued.performAll later).2.get? h = some b' → b' = b) ∧
      ((issued.performAll later).2.remove h).1 = (issued.performAll later).2.get? h ∧
      ((issued.performAll later).2.get? h = none →
        ((issued.performAll later).2.remove h).2 = (issued.performAll later).2) := by
  obtain ⟨order₀, h₀, hcapacity₀⟩ := (Linked.empty capacity hashBits).performAll before
  obtain ⟨order, hlinked, hcapacity⟩ := h₀.perform op
  have hhandle := h₀.perform_handle op (by rw [hissued]; exact hanswer)
  rw [hissued] at hlinked hcapacity hhandle
  dsimp only at hlinked hcapacity hhandle
  obtain ⟨b, habout, hb, hgeneration⟩ := hhandle
  have hslot := Nat.lt_of_lt_of_le (lt_size_of_blockAt hb) hlinked.slots_le
  rw [hcapacity, hcapacity₀] at hslot
  refine ⟨hslot, b, habout, fun later => ?_⟩
  have hcount := hlinked.generation_performAll later h.slot
  rw [hgeneration] at hcount
  have hkept (hmem : h.slot ∉ issued.emptiedAll later) :
      (issued.performAll later).2.get? h = some b := by
    rw [List.count_eq_zero_of_not_mem hmem] at hcount
    rw [get?_of_generation (hcount.trans (UInt32.add_zero _)), hlinked.blockAt_performAll hmem hb]
  have hgone (hdvd : ¬ 2 ^ 32 ∣ (issued.emptiedAll later).count h.slot) :
      (issued.performAll later).2.get? h = none := by
    rw [get?, if_neg]
    rw [hcount, add_ofNat_eq_self_iff]
    exact hdvd
  refine ⟨hkept, fun _ => ?_, fun hfew b' hb' => ?_, remove_eq _ h⟩
  · by_cases hdvd : 2 ^ 32 ∣ (issued.emptiedAll later).count h.slot
    · exact .inr hdvd
    · exact .inl (hgone hdvd)
  · by_cases hmem : h.slot ∈ issued.emptiedAll later
    · have hpos := List.count_pos_iff.2 hmem
      have hle : (issued.emptiedAll later).count h.slot ≤ _ := List.count_le_length
      rw [hgone fun hdvd => by have := Nat.le_of_dvd hpos hdvd; omega] at hb'
      cases hb'
    · rw [hkept hmem] at hb'
      exact (Option.some.inj hb').symm

/-- The same for a cache for one block, in which a second block takes the slot of the first. -/
theorem handles_do_not_resolve_to_others_evict :
    ∃ (block : UInt64 → Block) (issued : BlockCache),
      ((empty 1 1).performAll []).2.perform (.insert (block 0)) = (.inserted ⟨0, 0⟩, issued) ∧
      issued.get? ⟨0, 0⟩ = some (block 0) ∧
      (issued.performAll [.insert (block 32)]).1 = [.inserted ⟨0, 1⟩] ∧
      issued.emptiedAll [.insert (block 32)] = [0] ∧
      (issued.performAll [.insert (block 32)]).2.get? ⟨0, 0⟩ = none := by
  obtain ⟨block, hblock⟩ : ∃ block : UInt64 → Block, block = fun a =>
      ⟨a, a, ⟨0⟩, false, ⟨0, 0, 0, 0⟩, 16, [⟨a, 16⟩], [], 1⟩ := ⟨_, rfl⟩
  obtain ⟨issued, hissued⟩ : ∃ issued,
      ((empty 1 1).performAll []).2.perform (.insert (block 0)) = (.inserted ⟨0, 0⟩, issued) := by
    rw [hblock]
    exact ⟨_, Prod.ext (by decide +kernel) rfl⟩
  obtain ⟨-, b, rfl, hlater⟩ :=
    handles_do_not_resolve_to_others 1 1 [] (.insert (block 0)) hissued (.inl rfl)
  have hruns : (((empty 1 1).insert (block 0)).2.performAll [.insert (block 32)]).1 =
        [.inserted ⟨0, 1⟩] ∧
      ((empty 1 1).insert (block 0)).2.emptiedAll [.insert (block 32)] = [0] := by
    rw [hblock]
    decide +kernel
  rw [show ((empty 1 1).insert (block 0)).2 = issued from congrArg Prod.snd hissued] at hruns
  refine ⟨block, issued, hissued, (hlater []).1 List.not_mem_nil, hruns.1, hruns.2, ?_⟩
  have hgone := (hlater [.insert (block 32)]).2.1
  rw [hruns.2] at hgone
  exact (hgone List.mem_cons_self).resolve_right (by decide)

end BlockCache

end X86Replay

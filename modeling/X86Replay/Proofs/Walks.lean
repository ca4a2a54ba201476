import X86Replay.Proofs.Removals

/-!
# Walks along the links of a cache

A chain is followed from slot to slot, and a full cache drops the last block of its list until there
is room. A chain that leads back into itself would be followed for ever, and a last slot that is
free would be dropped for ever. The operations bound these walks; here they are asked to end before
that, and to come to taken slots only.

* `BlockCache.follow?`: a walk along a chain, which gives up at its bound. `findInChain_eq_follow?`,
  `chainBefore_eq_follow?`: the walks of the operations are of this kind.
* `ChainWalk`, `BlockCache.walks`: the walks along chains that an operation makes, each with the
  cache at that time. `find?_eq_found`, `chainRemove_eq_found`: what operations find is what the
  listed walks find.
* `ChainWalk.ends`, `ChainWalk.staysLive`: a walk ends; it ends and comes to taken slots only.
* `BlockCache.ends`: every walk of an operation ends. `follow?_of_le`, `evict_of_hasRoom`: the bound of
  a walk that ends makes no difference.
* `Linked.staysLive`, `Linked.ends`: so it is with every operation, if the links of a cache agree.
-/

namespace X86Replay

variable {c : BlockCache} {order : List Nat} {stop : CacheEntry → Bool} {start : Option Nat}
  {fuel fuel' i : Nat}

/-! ## Walks -/

/-- A walk along a chain of a cache, which ends at the first entry that it is looking for. -/
structure ChainWalk where
  cache : BlockCache
  bucket : Nat
  stop : CacheEntry → Bool
  /-- Whether the chain may turn out to have no such entry. -/
  mayMiss : Bool

namespace BlockCache

/-- The first slot of a chain at whose entry a walk may stop. The walk gives up after `fuel` slots. -/
def follow? (c : BlockCache) (stop : CacheEntry → Bool) : Nat → Option Nat → Option (Option Nat)
  | _, none => some none
  | 0, some _ => none
  | fuel + 1, some i =>
    match c.entry? i with
    | none => some none
    | some e => if stop e then some (some i) else c.follow? stop fuel e.chainNext

/-- Within `fuel` slots a walk ends, and all slots that it comes to are taken. -/
def liveFrom (c : BlockCache) (stop : CacheEntry → Bool) (mayMiss : Bool) :
    Nat → Option Nat → Bool
  | _, none => mayMiss
  | 0, some _ => false
  | fuel + 1, some i =>
    match c.entry? i with
    | none => false
    | some e => stop e || c.liveFrom stop mayMiss fuel e.chainNext

end BlockCache

namespace ChainWalk

/-- The walk from the head of the chain, which gives up after as many slots as there are. -/
def follow? (w : ChainWalk) : Option (Option Nat) :=
  w.cache.follow? w.stop w.cache.slots.size (w.cache.chainHead w.bucket)

/-- The slot that a walk finds. -/
def found (w : ChainWalk) : Option Nat :=
  w.follow?.join

/-- A walk ends. -/
def ends (w : ChainWalk) : Bool :=
  w.follow?.isSome

/-- A walk ends, after no more slots than there are, and all that it comes to are taken. -/
def staysLive (w : ChainWalk) : Bool :=
  w.cache.liveFrom w.stop w.mayMiss w.cache.slots.size (w.cache.chainHead w.bucket)

end ChainWalk

namespace BlockCache

/-- The walk for the block for some code. -/
def findWalk (c : BlockCache) (physPc : UInt64) (flags : ModeFlags) (identity : CodeIdentity) :
    ChainWalk :=
  ⟨c, c.bucketOf physPc flags.key, (·.block.isFor physPc flags identity), true⟩

/-- The walk for the slot in front of one that is emptied, unless this one is the first. There has
    to be such a slot. -/
def removeWalks (c : BlockCache) (i : Nat) : List ChainWalk :=
  match c.entry? i with
  | none => []
  | some e =>
    let c := c.recencyRemove i
    if c.chainHead e.bucket = some i then [] else [⟨c, e.bucket, (·.chainNext = some i), false⟩]

/-- The walk for the block that an operation is about. -/
def findWalks (c : BlockCache) : CacheOp → List ChainWalk
  | .lookup physPc flags identity => [c.findWalk physPc flags identity]
  | .insert b => [c.findWalk b.physPc b.flags b.identity]
  | _ => []

/-- All walks along chains that an operation makes. -/
def walks (c : BlockCache) (op : CacheOp) : List ChainWalk :=
  c.findWalks op ++ c.perRemoval removeWalks (c.removals op)

/-- No more blocks are to be dropped: there is room for one more, or there are none. -/
def hasRoom (c : BlockCache) : Bool :=
  decide (c.size < c.capacity) || c.oldest.isNone

/-- All walks of an operation end: those along chains, and the one from the back of the recency
    list. -/
def ends (c : BlockCache) (op : CacheOp) : Bool :=
  (c.walks op).all ChainWalk.ends &&
    match op with
    | .insert b => (c.makeRoom b).hasRoom
    | _ => true

/-! ## What walks find -/

theorem findInChain_eq_follow? (c : BlockCache) (p : Block → Bool) (fuel : Nat)
    (start : Option Nat) :
    c.findInChain p fuel start = (c.follow? (fun e => p e.block) fuel start).join := by
  induction fuel generalizing start with
  | zero => cases start <;> rfl
  | succ fuel ih =>
    cases start with
    | none => rfl
    | some i =>
      rw [findInChain, follow?]
      cases c.entry? i with
      | none => rfl
      | some e =>
        dsimp only
        rw [ih]
        split_ifs <;> rfl

theorem chainBefore_eq_follow? (c : BlockCache) (i fuel : Nat) (start : Option Nat) :
    c.chainBefore i fuel start = (c.follow? (·.chainNext = some i) fuel start).join := by
  induction fuel generalizing start with
  | zero => cases start <;> rfl
  | succ fuel ih =>
    cases start with
    | none => rfl
    | some j =>
      rw [chainBefore, follow?]
      cases c.entry? j with
      | none => rfl
      | some e =>
        dsimp only
        rw [ih]
        simp only [decide_eq_true_eq]
        split_ifs <;> rfl

/-- **A block is found by the listed walk.** -/
theorem find?_eq_found (c : BlockCache) (physPc : UInt64) (flags : ModeFlags)
    (identity : CodeIdentity) :
    c.find? physPc flags identity = (c.findWalk physPc flags identity).found :=
  findInChain_eq_follow? c _ _ _

/-- **The slot in front of one that is emptied is found by the listed walk**, and is led past it. If
    none is listed, the head of the chain is. -/
theorem chainRemove_eq_found {e : CacheEntry} (he : c.entry? i = some e) (next : Option Nat) :
    (c.recencyRemove i).chainRemove i e.bucket next =
      match c.removeWalks i with
      | [] =>
        { c.recencyRemove i with
          buckets := (c.recencyRemove i).buckets.setIfInBounds e.bucket next }
      | w :: _ =>
        match w.found with
        | some j => (c.recencyRemove i).modifyEntry j fun x => { x with chainNext := next }
        | none => c.recencyRemove i := by
  unfold chainRemove removeWalks
  rw [he, chainBefore_eq_follow?]
  dsimp only
  split_ifs <;> rfl

/-! ## Bounds -/

/-- A walk that ends does not go further with a greater bound. -/
theorem follow?_of_le {found : Option Nat} (h : c.follow? stop fuel start = some found)
    (hle : fuel ≤ fuel') : c.follow? stop fuel' start = some found := by
  induction fuel generalizing fuel' start with
  | zero =>
    cases start with
    | none => cases fuel' <;> exact h
    | some i => cases h
  | succ fuel ih =>
    obtain ⟨fuel', rfl⟩ : ∃ n, fuel' = n + 1 := ⟨fuel' - 1, by omega⟩
    cases start with
    | none => exact h
    | some i =>
      rw [follow?] at h ⊢
      cases he : c.entry? i with
      | none =>
        rw [he] at h
        exact h
      | some e =>
        rw [he] at h
        dsimp only at h ⊢
        split_ifs at h ⊢
        · exact h
        · exact ih h (by omega)

/-- As much room is made within any greater bound. -/
theorem evict_of_hasRoom (h : (c.evict fuel).hasRoom) (hle : fuel ≤ fuel') :
    c.evict fuel' = c.evict fuel := by
  induction fuel generalizing fuel' c with
  | zero =>
    rw [evict, hasRoom, Bool.or_eq_true, decide_eq_true_eq, Option.isNone_iff_eq_none] at h
    obtain hroom | hnone := h
    · rw [evict_of_room hroom, evict_of_room hroom]
    · cases fuel' with
      | zero => rfl
      | succ fuel' =>
        rw [evict, evict, hnone]
        split_ifs <;> rfl
  | succ fuel ih =>
    obtain ⟨fuel', rfl⟩ : ∃ n, fuel' = n + 1 := ⟨fuel' - 1, by omega⟩
    rw [evict] at h
    rw [evict, evict]
    split_ifs at h ⊢
    · rfl
    · cases holdest : c.oldest with
      | none => rfl
      | some i =>
        rw [holdest] at h
        exact ih h (by omega)

/-! ## Walks along chains that agree -/

theorem liveFrom_of_leads {mayMiss : Bool} {l : List Nat} (h : Leads c.chainNextOf start l)
    (htaken : ∀ i ∈ l, ∃ e, c.entry? i = some e) (hfuel : l.length ≤ fuel)
    (hstop : mayMiss ∨ ∃ i ∈ l, ∃ e, c.entry? i = some e ∧ stop e) :
    c.liveFrom stop mayMiss fuel start := by
  induction l generalizing start fuel with
  | nil =>
    cases h
    have hmiss : mayMiss := hstop.resolve_right fun ⟨_, hi, _⟩ => nomatch hi
    cases fuel <;> exact hmiss
  | cons i l ih =>
    obtain ⟨rfl, hrest⟩ := h
    obtain ⟨fuel, rfl⟩ : ∃ n, fuel = n + 1 := ⟨fuel - 1, by simp at hfuel; omega⟩
    obtain ⟨e, he⟩ := htaken i List.mem_cons_self
    rw [chainNextOf_of_taken he] at hrest
    rw [liveFrom, he]
    dsimp only
    rw [Bool.or_eq_true]
    refine or_iff_not_imp_left.2 fun hpass => ?_
    refine ih hrest (fun j hj => htaken j (List.mem_cons_of_mem i hj)) (by simp at hfuel; omega)
      (hstop.imp_right ?_)
    rintro ⟨j, hj, x, hx, hstopx⟩
    obtain rfl | hj := List.mem_cons.1 hj
    · rw [he] at hx
      cases hx
      exact absurd hstopx hpass
    · exact ⟨j, hj, x, hx, hstopx⟩

/-- A walk among taken slots that ends is one that ends. -/
theorem isSome_follow?_of_liveFrom {mayMiss : Bool} (h : c.liveFrom stop mayMiss fuel start) :
    (c.follow? stop fuel start).isSome := by
  induction fuel generalizing start with
  | zero =>
    cases start with
    | none => rfl
    | some i => cases h
  | succ fuel ih =>
    cases start with
    | none => rfl
    | some i =>
      rw [liveFrom] at h
      rw [follow?]
      cases he : c.entry? i with
      | none => rfl
      | some e =>
        rw [he] at h
        dsimp only at h ⊢
        split_ifs with hstop
        · rfl
        · exact ih ((Bool.or_eq_true _ _ ▸ h).resolve_left hstop)

end BlockCache

theorem ChainWalk.ends_of_staysLive {w : ChainWalk} (h : w.staysLive) : w.ends :=
  BlockCache.isSome_follow?_of_liveFrom h

namespace BlockCache

/-- **Walks along chains stay among taken slots.** -/
theorem Chained.staysLive (h : Chained c) (q : Nat) (stop : CacheEntry → Bool) :
    (ChainWalk.mk c q stop true).staysLive := by
  obtain ⟨l, hleads, hnodup, hmem⟩ := h.chain q
  have htaken (i : Nat) (hi : i ∈ l) : ∃ e, c.entry? i = some e :=
    ((hmem i).1 hi).imp fun _ he => he.1
  exact liveFrom_of_leads hleads htaken (length_le_of_taken hnodup htaken) (.inl rfl)

/-- **The slot in front of another one in its chain is found.** -/
theorem Chained.staysLive_before (h : Chained c) {e : CacheEntry} (he : c.entry? i = some e)
    (hhead : c.chainHead e.bucket ≠ some i) :
    (ChainWalk.mk c e.bucket (·.chainNext = some i) false).staysLive := by
  obtain ⟨l, hleads, hnodup, hmem⟩ := h.chain e.bucket
  have htaken (j : Nat) (hj : j ∈ l) : ∃ x, c.entry? j = some x :=
    ((hmem j).1 hj).imp fun _ hx => hx.1
  refine liveFrom_of_leads hleads htaken (length_le_of_taken hnodup htaken) (.inr ?_)
  obtain ⟨pre, post, rfl⟩ := List.append_of_mem ((hmem i).2 ⟨e, he, rfl⟩)
  obtain rfl | ⟨pre, j, rfl⟩ := pre.eq_nil_or_concat
  · exact absurd hleads.start_eq hhead
  · rw [List.concat_eq_append, List.append_assoc, List.singleton_append] at hleads
    obtain ⟨x, hx⟩ := htaken j (by simp)
    have hnext := hleads.next_eq
    rw [chainNextOf, hx] at hnext
    exact ⟨j, by simp, x, hx, decide_eq_true hnext⟩

theorem Chained.removeWalks (h : Chained c) (i : Nat) :
    ∀ w ∈ c.removeWalks i, w.staysLive := by
  unfold BlockCache.removeWalks
  cases he : c.entry? i with
  | none => exact fun _ hw => nomatch hw
  | some e =>
    have he' := entry?_recencyRemove he i
    rw [he, Option.map_some] at he'
    dsimp only
    split_ifs with hhead
    · exact fun _ hw => nomatch hw
    · intro w hw
      have hbefore := (h.recencyRemove i).staysLive_before he' hhead
      rw [List.mem_singleton.1 hw]
      exact hbefore

theorem Chained.findWalks (h : Chained c) (op : CacheOp) :
    ∀ w ∈ c.findWalks op, w.staysLive := by
  cases op with
  | lookup physPc flags identity =>
    rw [BlockCache.findWalks, List.forall_mem_singleton]
    exact h.staysLive _ _
  | insert b =>
    rw [BlockCache.findWalks, List.forall_mem_singleton]
    exact h.staysLive _ _
  | remove _ | invalidate _ _ | flush => exact fun _ hw => nomatch hw

/-! ## Caches whose links agree -/

namespace Linked

/-- **All walks of an operation stay among taken slots**, if the links of the cache agree. -/
theorem staysLive (h : c.Linked order) (op : CacheOp) : ∀ w ∈ c.walks op, w.staysLive := by
  rw [walks, List.forall_mem_append]
  exact ⟨h.chained.findWalks op,
    h.forall_perRemoval (fun h i => h.chained.removeWalks i) (c.removals op)⟩

/-- One block is dropped from a full cache, and then there is room. -/
theorem hasRoom_makeRoom (h : c.Linked order) (b : Block) : (c.makeRoom b).hasRoom := by
  obtain ⟨c₀, order₀, hroom, h₀, -⟩ := h.replace b
  obtain ⟨hlinked, -, hcapacity, -⟩ := h₀.evict
  have hpos := h₀.capacity_pos
  have htake := List.length_take_le (c₀.capacity - 1) order₀
  rw [hroom, hasRoom, Bool.or_eq_true, decide_eq_true_eq]
  left
  rw [hlinked.size, hcapacity]
  omega

/-- **All walks of an operation end**, if the links of the cache agree. -/
theorem ends (h : c.Linked order) (op : CacheOp) : c.ends op := by
  have hwalks : (c.walks op).all ChainWalk.ends :=
    List.all_eq_true.2 fun w hw => ChainWalk.ends_of_staysLive (h.staysLive op w hw)
  unfold BlockCache.ends
  rw [hwalks, Bool.true_and]
  cases op with
  | insert b => exact h.hasRoom_makeRoom b
  | lookup _ _ _ | remove _ | invalidate _ _ | flush => rfl

end Linked

end BlockCache

end X86Replay

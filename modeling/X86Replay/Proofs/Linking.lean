import X86Replay.Proofs.Caching
import Mathlib.Data.List.Nodup
import Mathlib.Data.List.Perm.Subperm

/-!
# Links between the slots of a block cache

* `Leads`: from a slot the links lead through exactly the given slots. Slots are removed from and
  added to such a list by changing one link.
* `BlockCache.Recent`: the recency list, linked in both directions.
* `BlockCache.Chained`: every bucket has a chain of exactly the slots whose blocks belong there.
* `Recent.recencyRemove`, `Recent.recencyPush`: a slot leaves the recency list and comes to its
  front.
* `Chained.freed`, `Chained.taken`: a slot leaves the chain of its bucket and comes to its front.
* `Chained.find?_eq_none`: what is in a chain is found.
-/

namespace X86Replay

/-! ## Linked lists -/

/-- The links lead from `start` through exactly the given slots. -/
def Leads (next : Nat → Option Nat) : Option Nat → List Nat → Prop
  | start, [] => start = none
  | start, i :: l => start = some i ∧ Leads next (next i) l

namespace Leads

variable {next next' : Nat → Option Nat} {start : Option Nat} {l pre post : List Nat} {i : Nat}

theorem start_eq (h : Leads next start l) : start = l.head? := by
  cases l with
  | nil => exact h
  | cons i l => exact h.1

theorem next_eq (h : Leads next start (pre ++ i :: post)) : next i = post.head? := by
  induction pre generalizing start with
  | nil => exact h.2.start_eq
  | cons j pre ih => exact ih h.2

theorem congr (h : Leads next start l) (hnext : ∀ i ∈ l, next' i = next i) :
    Leads next' start l := by
  induction l generalizing start with
  | nil => exact h
  | cons i l ih =>
    refine ⟨h.1, ?_⟩
    rw [hnext i List.mem_cons_self]
    exact ih h.2 fun j hj => hnext j (List.mem_cons_of_mem i hj)

theorem tail (h : Leads next start (pre ++ i :: post)) : Leads next (next i) post := by
  induction pre generalizing start with
  | nil => exact h.2
  | cons j pre ih => exact ih h.2

/-- After a list has been cut and its last slot led elsewhere, it goes on there. -/
theorem splice {rest rest' : List Nat} {start' : Option Nat} (h : Leads next start (pre ++ rest))
    (hrest : Leads next' start' rest') (hnodup : pre.Nodup)
    (hnext : ∀ j ∈ pre, next' j = if pre.getLast? = some j then start' else next j) :
    Leads next' (if pre = [] then start' else start) (pre ++ rest') := by
  induction pre generalizing start with
  | nil => exact hrest
  | cons j pre ih =>
    rw [if_neg (List.cons_ne_nil j pre)]
    refine ⟨h.1, ?_⟩
    obtain ⟨hj, hnodup⟩ := List.nodup_cons.1 hnodup
    have htail := ih h.2 hnodup
    have hnextj := hnext j List.mem_cons_self
    cases pre with
    | nil =>
      rw [List.getLast?_singleton, if_pos rfl] at hnextj
      rw [hnextj]
      exact htail fun _ hk => nomatch hk
    | cons k pre =>
      rw [List.getLast?_cons_cons] at hnext hnextj
      rw [if_neg fun hlast => hj (List.mem_of_getLast? hlast)] at hnextj
      rw [hnextj]
      exact htail fun m hm => hnext m (List.mem_cons_of_mem j hm)

/-- A slot is removed by leading what came before it to what comes after it. -/
theorem remove (h : Leads next start (pre ++ i :: post)) (hnodup : (pre ++ i :: post).Nodup)
    (hnext : ∀ j ∈ pre ++ post, next' j = if pre.getLast? = some j then next i else next j) :
    Leads next' (if pre = [] then next i else start) (pre ++ post) := by
  obtain ⟨hpre, hpost, hdisjoint⟩ := List.nodup_append.1 hnodup
  refine h.splice (h.tail.congr fun j hj => ?_) hpre fun j hj =>
    hnext j (List.mem_append_left _ hj)
  rw [hnext j (List.mem_append_right _ hj), if_neg]
  exact fun hlast => hdisjoint j (List.mem_of_getLast? hlast) j (List.mem_cons_of_mem i hj) rfl

/-- A slot is added at the end by leading what was last to it. -/
theorem snoc (h : Leads next start l) (hnodup : l.Nodup) (hi : next' i = none)
    (hnext : ∀ j ∈ l, next' j = if l.getLast? = some j then some i else next j) :
    Leads next' (if l = [] then some i else start) (l ++ [i]) :=
  have hleads : Leads next start (l ++ []) := by rwa [List.append_nil]
  hleads.splice ⟨rfl, hi⟩ hnodup hnext

end Leads

/-! ## One member of a list -/

theorem not_mem_of_nodup_middle {pre post : List Nat} {i : Nat} (h : (pre ++ i :: post).Nodup) :
    i ∉ pre := fun hi =>
  (List.nodup_append.1 h).2.2 i hi i List.mem_cons_self rfl

theorem erase_middle {pre post : List Nat} {i : Nat} (h : (pre ++ i :: post).Nodup) :
    (pre ++ i :: post).erase i = pre ++ post := by
  rw [List.erase_append_right _ (not_mem_of_nodup_middle h), List.erase_cons_head]

/-! ## Entries -/

namespace BlockCache

variable {c c' : BlockCache} {i j : Nat} {e : CacheEntry} {order : List Nat}

/-- The next slot of the hash chain. -/
def chainNextOf (c : BlockCache) (i : Nat) : Option Nat :=
  (c.entry? i).bind CacheEntry.chainNext

theorem chainNextOf_of_taken (he : c.entry? i = some e) : c.chainNextOf i = e.chainNext := by
  rw [chainNextOf, he, Option.bind_some]

/-- The next more recently used slot. -/
def newerOf (c : BlockCache) (i : Nat) : Option Nat :=
  (c.entry? i).bind CacheEntry.newer

/-- The next less recently used slot. -/
def olderOf (c : BlockCache) (i : Nat) : Option Nat :=
  (c.entry? i).bind CacheEntry.older

theorem entry?_modifyEntry (c : BlockCache) (i : Nat) (f : CacheEntry → CacheEntry) (j : Nat) :
    entry? (c.modifyEntry i f) j = if i = j then (c.entry? j).map f else c.entry? j := by
  unfold entry? modifyEntry
  rw [Array.getElem?_modify]
  split_ifs with h
  · cases c.slots[j]? <;> rfl
  · rfl

theorem entry?_linkOlder (c : BlockCache) (newer older : Option Nat) (j : Nat) :
    entry? (c.linkOlder newer older) j =
      (c.entry? j).map fun x => { x with older := if newer = some j then older else x.older } := by
  cases newer with
  | none =>
    show c.entry? j = _
    simp
  | some k =>
    show entry? (c.modifyEntry k _) j = _
    rw [entry?_modifyEntry]
    by_cases h : k = j
    · simp [h]
    · simp [h]

theorem entry?_linkNewer (c : BlockCache) (older newer : Option Nat) (j : Nat) :
    entry? (c.linkNewer older newer) j =
      (c.entry? j).map fun x => { x with newer := if older = some j then newer else x.newer } := by
  cases older with
  | none =>
    show c.entry? j = _
    simp
  | some k =>
    show entry? (c.modifyEntry k _) j = _
    rw [entry?_modifyEntry]
    by_cases h : k = j
    · simp [h]
    · simp [h]

/-- The entries after a slot has been taken out of the recency list. -/
theorem entry?_recencyRemove (he : c.entry? i = some e) (j : Nat) :
    entry? (c.recencyRemove i) j = (c.entry? j).map fun x =>
      { x with
        newer := if e.older = some j then e.newer else if i = j then none else x.newer
        older := if e.newer = some j then e.older else if i = j then none else x.older } := by
  unfold recencyRemove
  rw [he]
  dsimp only
  rw [entry?_linkNewer, entry?_linkOlder, entry?_modifyEntry]
  by_cases h : i = j
  · simp only [if_pos h, Option.map_map]
    rfl
  · simp only [if_neg h, Option.map_map]
    rfl

theorem ends_recencyRemove (he : c.entry? i = some e) :
    (c.recencyRemove i).newest = (if e.newer = none then e.older else c.newest) ∧
      (c.recencyRemove i).oldest = (if e.older = none then e.newer else c.oldest) := by
  unfold recencyRemove
  rw [he]
  dsimp only
  cases e.newer with
  | none => cases e.older <;> exact ⟨rfl, rfl⟩
  | some j => cases e.older <;> exact ⟨rfl, rfl⟩

/-- The entries after a slot has been put in front of the recency list. -/
theorem entry?_recencyPush (c : BlockCache) (i j : Nat) :
    entry? (c.recencyPush i) j = (c.entry? j).map fun x =>
      { x with
        newer := if c.newest = some j then some i else if i = j then none else x.newer
        older := if i = j then c.newest else x.older } := by
  show entry? ((c.modifyEntry i _).linkNewer c.newest (some i)) j = _
  rw [entry?_linkNewer, entry?_modifyEntry]
  by_cases h : i = j
  · simp only [if_pos h, Option.map_map]
    rfl
  · simp only [if_neg h]

/-! ## The rest of the cache -/

theorem buckets_linkOlder (c : BlockCache) (newer older : Option Nat) :
    (c.linkOlder newer older).buckets = c.buckets := by
  cases newer <;> rfl

theorem buckets_linkNewer (c : BlockCache) (older newer : Option Nat) :
    (c.linkNewer older newer).buckets = c.buckets := by
  cases older <;> rfl

theorem buckets_recencyRemove (c : BlockCache) (i : Nat) :
    (c.recencyRemove i).buckets = c.buckets := by
  unfold recencyRemove
  split
  · rfl
  · rw [buckets_linkNewer, buckets_linkOlder]
    rfl

theorem buckets_recencyPush (c : BlockCache) (i : Nat) :
    (c.recencyPush i).buckets = c.buckets :=
  buckets_linkNewer _ c.newest (some i)

/-- Two caches that differ in links between the same slots only. -/
structure Relinked (c c' : BlockCache) : Prop where
  rest : c' = { c with
    slots := c'.slots
    buckets := c'.buckets
    newest := c'.newest
    oldest := c'.oldest }
  slots : c'.slots.size = c.slots.size
  buckets : c'.buckets.size = c.buckets.size
  generation : ∀ i, c'.generation i = c.generation i

namespace Relinked

theorem trans {c'' : BlockCache} (h : Relinked c c') (h' : Relinked c' c'') : Relinked c c'' where
  rest := by rw [h'.rest, h.rest]
  slots := h'.slots.trans h.slots
  buckets := h'.buckets.trans h.buckets
  generation i := (h'.generation i).trans (h.generation i)

theorem modifyEntry (c : BlockCache) (i : Nat) (f : CacheEntry → CacheEntry) :
    Relinked c (c.modifyEntry i f) where
  rest := rfl
  slots := Array.size_modify
  buckets := rfl
  generation j := by
    unfold BlockCache.generation BlockCache.modifyEntry
    rw [Array.getElem?_modify]
    split_ifs with h
    · cases c.slots[j]? <;> rfl
    · rfl

theorem linkOlder (c : BlockCache) (newer older : Option Nat) :
    Relinked c (c.linkOlder newer older) := by
  cases newer with
  | none => exact ⟨rfl, rfl, rfl, fun _ => rfl⟩
  | some j => exact modifyEntry c j _

theorem linkNewer (c : BlockCache) (older newer : Option Nat) :
    Relinked c (c.linkNewer older newer) := by
  cases older with
  | none => exact ⟨rfl, rfl, rfl, fun _ => rfl⟩
  | some j => exact modifyEntry c j _

theorem recencyRemove (c : BlockCache) (i : Nat) : Relinked c (c.recencyRemove i) := by
  unfold BlockCache.recencyRemove
  split
  · exact ⟨rfl, rfl, rfl, fun _ => rfl⟩
  · exact ((modifyEntry c i _).trans (linkOlder _ _ _)).trans (linkNewer _ _ _)

theorem recencyPush (c : BlockCache) (i : Nat) : Relinked c (c.recencyPush i) := by
  have h := (modifyEntry c i fun e => { e with newer := none, older := c.newest }).trans
    (linkNewer _ c.newest (some i))
  refine h.trans ⟨rfl, rfl, rfl, fun _ => rfl⟩

theorem chainRemove (c : BlockCache) (i bucket : Nat) (next : Option Nat) :
    Relinked c (c.chainRemove i bucket next) := by
  unfold BlockCache.chainRemove
  split_ifs
  · exact ⟨rfl, rfl, Array.size_setIfInBounds, fun _ => rfl⟩
  · split
    · exact modifyEntry c _ _
    · exact ⟨rfl, rfl, rfl, fun _ => rfl⟩

end Relinked

/-! ## The recency list -/

/-- The recency list leads through exactly the given slots, most recently used first, in both
    directions. -/
structure Recent (c : BlockCache) (order : List Nat) : Prop where
  older : Leads c.olderOf c.newest order
  newer : Leads c.newerOf c.oldest order.reverse
  nodup : order.Nodup
  taken : ∀ i ∈ order, ∃ e, c.entry? i = some e

namespace Recent

/-- Links of other slots and other links make no difference. -/
theorem congr (h : Recent c order) (hnewest : c'.newest = c.newest) (holdest : c'.oldest = c.oldest)
    (hlinks : ∀ i ∈ order, ∀ e, c.entry? i = some e →
      ∃ e', c'.entry? i = some e' ∧ e'.older = e.older ∧ e'.newer = e.newer) :
    Recent c' order where
  older := by
    rw [hnewest]
    refine h.older.congr fun i hi => ?_
    obtain ⟨e, he⟩ := h.taken i hi
    obtain ⟨e', he', holder, -⟩ := hlinks i hi e he
    rw [olderOf, olderOf, he, he']
    exact holder
  newer := by
    rw [holdest]
    refine h.newer.congr fun i hi => ?_
    obtain ⟨e, he⟩ := h.taken i (List.mem_reverse.1 hi)
    obtain ⟨e', he', -, hnewer⟩ := hlinks i (List.mem_reverse.1 hi) e he
    rw [newerOf, newerOf, he, he']
    exact hnewer
  nodup := h.nodup
  taken i hi := by
    obtain ⟨e, he⟩ := h.taken i hi
    obtain ⟨e', he', -⟩ := hlinks i hi e he
    exact ⟨e', he'⟩

/-- The neighbours of a slot in the list are those that its entry names. -/
theorem neighbours {pre post : List Nat} (h : Recent c (pre ++ i :: post))
    (he : c.entry? i = some e) : e.newer = pre.getLast? ∧ e.older = post.head? := by
  have hnewer := h.newer
  rw [show (pre ++ i :: post).reverse = post.reverse ++ i :: pre.reverse by simp] at hnewer
  have hnewer' := hnewer.next_eq
  have holder' := h.older.next_eq
  rw [newerOf, he, List.head?_reverse] at hnewer'
  rw [olderOf, he] at holder'
  exact ⟨hnewer', holder'⟩

theorem recencyRemove (h : Recent c order) (hi : i ∈ order) :
    Recent (c.recencyRemove i) (order.erase i) := by
  obtain ⟨pre, post, rfl⟩ := List.append_of_mem hi
  obtain ⟨e, he⟩ := h.taken i hi
  obtain ⟨hnewer, holder⟩ := h.neighbours he
  obtain ⟨hnewest, holdest⟩ := ends_recencyRemove he
  have herase := erase_middle h.nodup
  have hnodup := h.nodup.erase i
  have hothers (j : Nat) (hj : j ∈ pre ++ post) : i ≠ j ∧ ∃ x, c.entry? j = some x := by
    rw [← herase] at hj
    exact ⟨fun hij => (h.nodup.mem_erase_iff.1 hj).1 hij.symm, h.taken j (List.mem_of_mem_erase hj)⟩
  rw [herase] at hnodup ⊢
  -- The list from the newest slot on and the one from the oldest on are the same argument, with
  -- `pre` and `post` reversed for the second.
  refine ⟨?_, ?_, hnodup, fun j hj => ?_⟩
  · have hstart : (c.recencyRemove i).newest = if pre = [] then c.olderOf i else c.newest := by
      rw [hnewest, hnewer, olderOf, he]
      simp only [List.getLast?_eq_none_iff, Option.bind_some]
    rw [hstart]
    refine h.older.remove h.nodup fun j hj => ?_
    obtain ⟨hij, x, hx⟩ := hothers j hj
    rw [olderOf, entry?_recencyRemove he, hx, olderOf, he, olderOf, hx, ← hnewer]
    simp [hij]
  · have hstart : (c.recencyRemove i).oldest =
        if post.reverse = [] then c.newerOf i else c.oldest := by
      rw [holdest, holder, newerOf, he]
      simp only [List.head?_eq_none_iff, List.reverse_eq_nil_iff, Option.bind_some]
    have hleads := h.newer
    have hreverse := List.nodup_reverse.2 h.nodup
    rw [show (pre ++ i :: post).reverse = post.reverse ++ i :: pre.reverse by simp]
      at hleads hreverse
    rw [hstart, List.reverse_append]
    refine hleads.remove hreverse fun j hj => ?_
    rw [← List.reverse_append, List.mem_reverse] at hj
    obtain ⟨hij, x, hx⟩ := hothers j hj
    rw [newerOf, entry?_recencyRemove he, hx, newerOf, he, newerOf, hx, List.getLast?_reverse,
      ← holder]
    simp [hij]
  · obtain ⟨-, x, hx⟩ := hothers j hj
    rw [entry?_recencyRemove he, hx]
    exact ⟨_, rfl⟩

theorem recencyPush (h : Recent c order) (hi : i ∉ order) (he : c.entry? i = some e) :
    Recent (c.recencyPush i) (i :: order) := by
  have hnewest := h.older.start_eq
  have hne (j : Nat) (hj : j ∈ order) : i ≠ j := fun hij => hi (hij ▸ hj)
  have hfirst : c.newest ≠ some i := fun hfirst => by
    rw [hnewest] at hfirst
    exact hi (List.mem_of_head? hfirst)
  refine ⟨⟨rfl, ?_⟩, ?_, List.nodup_cons.2 ⟨hi, h.nodup⟩, fun j hj => ?_⟩
  · have hnext : (c.recencyPush i).olderOf i = c.newest := by
      rw [olderOf, entry?_recencyPush, he]
      simp
    rw [hnext]
    refine h.older.congr fun j hj => ?_
    rw [olderOf, entry?_recencyPush, olderOf]
    cases c.entry? j <;> simp [hne j hj]
  · have holdest : (c.recencyPush i).oldest =
        if order.reverse = [] then some i else c.oldest := by
      have hempty : (order.reverse = []) = (c.newest = none) := by
        rw [hnewest]
        cases order <;> simp
      simp only [hempty]
      unfold BlockCache.recencyPush BlockCache.linkNewer
      cases c.newest <;> rfl
    rw [List.reverse_cons, holdest]
    refine h.newer.snoc (List.nodup_reverse.2 h.nodup) ?_ fun j hj => ?_
    · rw [newerOf, entry?_recencyPush, he]
      simp [hfirst]
    · obtain ⟨x, hx⟩ := h.taken j (List.mem_reverse.1 hj)
      rw [newerOf, entry?_recencyPush, newerOf, hx, List.getLast?_reverse, ← hnewest]
      simp [hne j (List.mem_reverse.1 hj)]
  · obtain rfl | hj := List.mem_cons.1 hj
    · rw [entry?_recencyPush, he]
      exact ⟨_, rfl⟩
    · obtain ⟨x, hx⟩ := h.taken j hj
      rw [entry?_recencyPush, hx]
      exact ⟨_, rfl⟩

end Recent

/-! ## Hash chains -/

/-- The slot in front of another one is found. -/
theorem chainBefore_eq {pre post : List Nat} {start : Option Nat} {fuel : Nat}
    (h : Leads c.chainNextOf start (pre ++ i :: post)) (hpre : pre ≠ []) (hi : i ∉ pre)
    (hfuel : pre.length ≤ fuel) : c.chainBefore i fuel start = pre.getLast? := by
  induction pre generalizing start fuel with
  | nil => exact absurd rfl hpre
  | cons j pre ih =>
    obtain ⟨rfl, hrest⟩ := h
    obtain ⟨fuel, rfl⟩ : ∃ n, fuel = n + 1 := ⟨fuel - 1, by simp at hfuel; omega⟩
    have hnext := hrest.start_eq
    rw [chainBefore]
    unfold chainNextOf at hnext
    cases he : c.entry? j with
    | none =>
      rw [he] at hnext
      cases pre <;> cases hnext
    | some e =>
      rw [he, Option.bind_some] at hnext
      dsimp only
      rw [hnext]
      cases pre with
      | nil => exact if_pos rfl
      | cons k pre =>
        have hik : k ≠ i := fun hik => hi (by simp [hik])
        rw [List.getLast?_cons_cons]
        show (if some k = some i then some j else _) = _
        rw [if_neg fun h => hik (Option.some.inj h)]
        have hrest' : Leads c.chainNextOf (some k) (k :: pre ++ i :: post) := by
          rw [chainNextOf_of_taken he, hnext] at hrest
          exact hrest
        exact ih hrest' (List.cons_ne_nil k pre) (fun hmem => hi (List.mem_cons_of_mem j hmem))
          (by simp at hfuel ⊢; omega)

/-- A chain that is followed to its end without success holds nothing that was looked for. -/
theorem findInChain_eq_none {p : Block → Bool} {l : List Nat} {start : Option Nat} {fuel : Nat}
    (h : Leads c.chainNextOf start l) (htaken : ∀ i ∈ l, ∃ e, c.entry? i = some e)
    (hfuel : l.length ≤ fuel) (hnone : c.findInChain p fuel start = none) :
    ∀ i ∈ l, ∀ b, c.blockAt i = some b → p b = false := by
  induction l generalizing start fuel with
  | nil => exact fun i hi => nomatch hi
  | cons j l ih =>
    obtain ⟨rfl, hrest⟩ := h
    obtain ⟨fuel, rfl⟩ : ∃ n, fuel = n + 1 := ⟨fuel - 1, by simp at hfuel; omega⟩
    obtain ⟨e, he⟩ := htaken j List.mem_cons_self
    rw [findInChain, he] at hnone
    dsimp only at hnone
    split_ifs at hnone with hp
    rw [chainNextOf, he] at hrest
    intro i hi b hb
    obtain rfl | hi := List.mem_cons.1 hi
    · rw [blockAt_of_taken he] at hb
      cases hb
      exact Bool.eq_false_iff.2 hp
    · exact ih hrest (fun k hk => htaken k (List.mem_cons_of_mem j hk))
        (by simp at hfuel; omega) hnone i hi b hb

theorem chainHead_setIfInBounds (c : BlockCache) {q : Nat} (hq : q < c.buckets.size)
    (x : Option Nat) (q' : Nat) :
    ({ c with buckets := c.buckets.setIfInBounds q x } : BlockCache).chainHead q' =
      if q = q' then x else c.chainHead q' := by
  unfold chainHead
  dsimp only
  rw [Array.getElem?_setIfInBounds]
  split_ifs <;> rfl

/-- What comes before a slot in its chain, or the bucket, leads to what comes after it. -/
theorem chainRemove_spec {pre post : List Nat} {q : Nat} (hq : q < c.buckets.size)
    (next : Option Nat) (h : Leads c.chainNextOf (c.chainHead q) (pre ++ i :: post)) (hi : i ∉ pre)
    (hfuel : pre.length ≤ c.slots.size) :
    (∀ j, entry? (c.chainRemove i q next) j = (c.entry? j).map fun x =>
        { x with chainNext := if pre.getLast? = some j then next else x.chainNext }) ∧
      ∀ q', (c.chainRemove i q next).chainHead q' =
        if q = q' ∧ pre = [] then next else c.chainHead q' := by
  have hhead := h.start_eq
  unfold chainRemove
  cases pre with
  | nil =>
    rw [if_pos (show c.chainHead q = some i from hhead)]
    refine ⟨fun j => ?_, fun q' => ?_⟩
    · show c.entry? j = _
      simp
    · rw [chainHead_setIfInBounds c hq]
      simp
  | cons k pre =>
    have hki : c.chainHead q ≠ some i := fun hhead' => by
      rw [hhead] at hhead'
      exact hi (by simp [Option.some.inj hhead'])
    rw [if_neg hki, chainBefore_eq h (List.cons_ne_nil k pre) hi hfuel]
    obtain ⟨j, hj⟩ : ∃ j, (k :: pre).getLast? = some j :=
      ⟨_, List.getLast?_eq_some_getLast (by simp)⟩
    rw [hj]
    refine ⟨fun j' => ?_, fun q' => ?_⟩
    · dsimp only
      rw [entry?_modifyEntry]
      by_cases hjj : j = j'
      · simp [hjj]
      · simp [hjj]
    · rw [if_neg fun h => List.cons_ne_nil k pre h.2]
      rfl

/-- Every bucket has a chain of exactly the slots whose blocks belong there. -/
structure Chained (c : BlockCache) : Prop where
  buckets : 0 < c.buckets.size
  bucket : ∀ i e, c.entry? i = some e → e.bucket = c.bucketOf e.block.physPc e.block.key
  chain : ∀ q, ∃ l : List Nat, Leads c.chainNextOf (c.chainHead q) l ∧ l.Nodup ∧
    ∀ i, i ∈ l ↔ ∃ e, c.entry? i = some e ∧ e.bucket = q

theorem lt_size_of_taken (he : c.entry? i = some e) : i < c.slots.size := by
  unfold entry? at he
  by_contra hlt
  rw [Array.getElem?_eq_none (by omega)] at he
  cases he

/-- Distinct taken slots are no more than there are slots. -/
theorem length_le_of_taken {l : List Nat} (hnodup : l.Nodup)
    (h : ∀ i ∈ l, ∃ e, c.entry? i = some e) : l.length ≤ c.slots.size := by
  have hsubset : l ⊆ List.range c.slots.size := fun i hi => by
    obtain ⟨e, he⟩ := h i hi
    exact List.mem_range.2 (lt_size_of_taken he)
  have hle := (hnodup.subperm hsubset).length_le
  rwa [List.length_range] at hle

namespace Chained

/-- The recency list makes no difference. -/
theorem congr (h : Chained c) (hbuckets : c'.buckets = c.buckets)
    {g : Nat → CacheEntry → CacheEntry} (hentries : ∀ i, c'.entry? i = (c.entry? i).map (g i))
    (hg : ∀ i e, (g i e).block = e.block ∧ (g i e).bucket = e.bucket ∧
      (g i e).chainNext = e.chainNext) : Chained c' := by
  refine ⟨by rw [hbuckets]; exact h.buckets, fun i e he => ?_, fun q => ?_⟩
  · rw [hentries] at he
    obtain ⟨x, hx, rfl⟩ := Option.map_eq_some_iff.1 he
    rw [bucketOf, hbuckets, (hg i x).1, (hg i x).2.1]
    exact h.bucket i x hx
  · obtain ⟨l, hleads, hnodup, hmem⟩ := h.chain q
    refine ⟨l, ?_, hnodup, fun i => (hmem i).trans ?_⟩
    · rw [chainHead, hbuckets]
      refine hleads.congr fun i _ => ?_
      rw [chainNextOf, hentries, chainNextOf]
      cases c.entry? i with
      | none => rfl
      | some e => exact (hg i e).2.2
    · rw [hentries]
      constructor
      · rintro ⟨e, he, hbucket⟩
        exact ⟨g i e, congrArg (Option.map (g i)) he, (hg i e).2.1.trans hbucket⟩
      · rintro ⟨e, he, hbucket⟩
        obtain ⟨x, hx, rfl⟩ := Option.map_eq_some_iff.1 he
        exact ⟨x, hx, (hg i x).2.1.symm.trans hbucket⟩

theorem recencyRemove (h : Chained c) (i : Nat) : Chained (c.recencyRemove i) := by
  cases he : c.entry? i with
  | none =>
    unfold BlockCache.recencyRemove
    rwa [he]
  | some e =>
    exact h.congr (buckets_recencyRemove c i) (entry?_recencyRemove he) fun _ _ => ⟨rfl, rfl, rfl⟩

theorem recencyPush (h : Chained c) (i : Nat) : Chained (c.recencyPush i) := by
  exact h.congr (buckets_recencyPush c i) (entry?_recencyPush c i) fun _ _ => ⟨rfl, rfl, rfl⟩

/-- The chain of a bucket is the same if neither its head nor its slots and their links have
    changed. -/
theorem chain_congr (h : Chained c) {q : Nat} (hhead : c'.chainHead q = c.chainHead q)
    (hslots : ∀ j, (∃ x, c'.entry? j = some x ∧ x.bucket = q) ↔
      ∃ x, c.entry? j = some x ∧ x.bucket = q)
    (hnext : ∀ j x, c.entry? j = some x → x.bucket = q → c'.chainNextOf j = c.chainNextOf j) :
    ∃ l : List Nat, Leads c'.chainNextOf (c'.chainHead q) l ∧ l.Nodup ∧
      ∀ j, j ∈ l ↔ ∃ x, c'.entry? j = some x ∧ x.bucket = q := by
  obtain ⟨l, hleads, hnodup, hmem⟩ := h.chain q
  refine ⟨l, ?_, hnodup, fun j => (hmem j).trans (hslots j).symm⟩
  rw [hhead]
  refine hleads.congr fun j hj => ?_
  obtain ⟨x, hx, hxq⟩ := (hmem j).1 hj
  exact hnext j x hx hxq

end Chained

/-- A cache `c` and one where the chain of slot `i` leads past it and the slot has been emptied.
    The slots before and after it in the chain are `pre` and `post`. -/
structure Unlinked (c c' : BlockCache) (i : Nat) (e : CacheEntry) (pre post : List Nat) : Prop where
  leads : Leads c.chainNextOf (c.chainHead e.bucket) (pre ++ i :: post)
  nodup : (pre ++ i :: post).Nodup
  mem : ∀ j, j ∈ pre ++ i :: post ↔ ∃ x, c.entry? j = some x ∧ x.bucket = e.bucket
  free : c'.entry? i = none
  entry : ∀ j, i ≠ j → c'.entry? j = (c.entry? j).map fun x =>
    { x with chainNext := if pre.getLast? = some j then c.chainNextOf i else x.chainNext }
  head : ∀ q, c'.chainHead q =
    if e.bucket = q ∧ pre = [] then c.chainNextOf i else c.chainHead q

namespace Unlinked

variable {pre post : List Nat}

theorem taken_iff (h : Unlinked c c' i e pre post) (j q : Nat) :
    (∃ x, c'.entry? j = some x ∧ x.bucket = q) ↔
      i ≠ j ∧ ∃ x, c.entry? j = some x ∧ x.bucket = q := by
  by_cases hij : i = j
  · rw [← hij, h.free]
    exact ⟨fun ⟨_, hx, _⟩ => (nomatch hx), fun h => absurd rfl h.1⟩
  · rw [h.entry j hij]
    cases c.entry? j with
    | none => simp
    | some x => simp [hij]

theorem chainNextOf_eq (h : Unlinked c c' i e pre post) {j : Nat} (hij : i ≠ j) {x : CacheEntry}
    (hx : c.entry? j = some x) :
    c'.chainNextOf j = if pre.getLast? = some j then c.chainNextOf i else c.chainNextOf j := by
  rw [chainNextOf, h.entry j hij, hx, chainNextOf_of_taken hx]
  rfl

/-- The chain of the slot leads through the others as before. -/
theorem chain (h : Unlinked c c' i e pre post) :
    ∃ l : List Nat, Leads c'.chainNextOf (c'.chainHead e.bucket) l ∧ l.Nodup ∧
      ∀ j, j ∈ l ↔ ∃ x, c'.entry? j = some x ∧ x.bucket = e.bucket := by
  have herase := erase_middle h.nodup
  have hmem (j : Nat) : j ∈ pre ++ post ↔ ∃ x, c'.entry? j = some x ∧ x.bucket = e.bucket := by
    rw [h.taken_iff, ← h.mem, ← herase, h.nodup.mem_erase_iff, ne_comm]
  refine ⟨pre ++ post, ?_, herase ▸ h.nodup.erase i, hmem⟩
  rw [h.head]
  simp only [true_and]
  refine h.leads.remove h.nodup fun j hj => ?_
  obtain ⟨hij, x, hx, -⟩ := (h.taken_iff j e.bucket).1 ((hmem j).1 hj)
  exact h.chainNextOf_eq hij hx

/-- The chains of other buckets are the same. -/
theorem chain_other (h : Unlinked c c' i e pre post) (hchained : Chained c)
    (he : c.entry? i = some e) {q : Nat} (hq : e.bucket ≠ q) :
    ∃ l : List Nat, Leads c'.chainNextOf (c'.chainHead q) l ∧ l.Nodup ∧
      ∀ j, j ∈ l ↔ ∃ x, c'.entry? j = some x ∧ x.bucket = q := by
  refine hchained.chain_congr (by rw [h.head, if_neg fun h => hq h.1]) (fun j => ?_)
    fun j x hx hxq => ?_
  · rw [h.taken_iff]
    refine and_iff_right_of_imp ?_
    rintro ⟨x, hx, hxq⟩ rfl
    rw [he] at hx
    cases hx
    exact hq hxq
  · -- No slot of another bucket is in the chain that has changed.
    have hother : j ∉ pre ++ i :: post := fun hj => by
      obtain ⟨y, hy, hye⟩ := (h.mem j).1 hj
      rw [hx] at hy
      cases hy
      exact hq (hye.symm.trans hxq)
    rw [h.chainNextOf_eq (fun hij => hother (by simp [hij])) hx, if_neg]
    exact fun hlast => hother (List.mem_append_left _ (List.mem_of_getLast? hlast))

end Unlinked

namespace Chained

/-- Where a slot's chain is led past it and the slot is emptied, both have a place in the chain. -/
theorem unlinked (h : Chained c) (he : c.entry? i = some e)
    (hbuckets : c'.buckets = (c.chainRemove i e.bucket e.chainNext).buckets)
    (hentries : ∀ j, c'.entry? j =
      if i = j then none else entry? (c.chainRemove i e.bucket e.chainNext) j) :
    ∃ pre post, Unlinked c c' i e pre post := by
  have hq : e.bucket < c.buckets.size := by
    rw [h.bucket i e he]
    exact Nat.mod_lt _ h.buckets
  have hchainNext := chainNextOf_of_taken he
  obtain ⟨l, hleads, hnodup, hmem⟩ := h.chain e.bucket
  obtain ⟨pre, post, rfl⟩ := List.append_of_mem ((hmem i).2 ⟨e, he, rfl⟩)
  have hlength := length_le_of_taken hnodup fun k hk => ((hmem k).1 hk).imp fun _ he => he.1
  rw [List.length_append] at hlength
  obtain ⟨hremove, hhead⟩ :=
    chainRemove_spec hq e.chainNext hleads (not_mem_of_nodup_middle hnodup) (by omega)
  refine ⟨pre, post, hleads, hnodup, hmem, ?_, fun j hij => ?_, fun q => ?_⟩
  · rw [hentries, if_pos rfl]
  · rw [hentries, if_neg hij, hremove, hchainNext]
  · rw [chainHead, hbuckets, ← chainHead, hhead q, hchainNext]

/-- A slot is emptied once its chain leads past it. -/
theorem freed (h : Chained c) (he : c.entry? i = some e)
    (hbuckets : c'.buckets = (c.chainRemove i e.bucket e.chainNext).buckets)
    (hentries : ∀ j, c'.entry? j =
      if i = j then none else entry? (c.chainRemove i e.bucket e.chainNext) j) : Chained c' := by
  have hsize : c'.buckets.size = c.buckets.size := by
    rw [hbuckets]
    exact (Relinked.chainRemove c i e.bucket e.chainNext).buckets
  obtain ⟨pre, post, hunlinked⟩ := h.unlinked he hbuckets hentries
  refine ⟨by rw [hsize]; exact h.buckets, fun j x hx => ?_, fun q => ?_⟩
  · obtain ⟨hij, -⟩ := (hunlinked.taken_iff j x.bucket).1 ⟨x, hx, rfl⟩
    rw [hunlinked.entry j hij] at hx
    obtain ⟨y, hy, rfl⟩ := Option.map_eq_some_iff.1 hx
    rw [bucketOf, hsize]
    exact h.bucket j y hy
  · by_cases hq : e.bucket = q
    · rw [← hq]
      exact hunlinked.chain
    · exact hunlinked.chain_other h he hq

/-- A free slot is taken once it is in front of its chain. -/
theorem taken (h : Chained c) (hfree : c.entry? i = none) {b : Block} {q : Nat}
    (hq : q = c.bucketOf b.physPc b.key) (hbuckets : c'.buckets = (c.chainPush i q).buckets)
    (hentries : ∀ j, c'.entry? j =
      if i = j then some { block := b, bucket := q, chainNext := c.chainHead q }
      else c.entry? j) : Chained c' := by
  have hsize : c'.buckets.size = c.buckets.size := by
    rw [hbuckets]
    exact Array.size_setIfInBounds
  have hlt : q < c.buckets.size := by
    rw [hq]
    exact Nat.mod_lt _ h.buckets
  have hhead (q' : Nat) : c'.chainHead q' = if q = q' then some i else c.chainHead q' := by
    rw [chainHead, hbuckets, ← chainHead]
    exact chainHead_setIfInBounds c hlt (some i) q'
  have hnext (j : Nat) (hij : i ≠ j) : c'.chainNextOf j = c.chainNextOf j := by
    rw [chainNextOf, hentries, if_neg hij, chainNextOf]
  refine ⟨by rw [hsize]; exact h.buckets, fun j e he => ?_, fun q' => ?_⟩
  · rw [hentries] at he
    split_ifs at he with hij
    · cases he
      rw [hq, bucketOf, bucketOf, hsize]
    · rw [h.bucket j e he, bucketOf, bucketOf, hsize]
  · -- Only the chain of the bucket changes, by its new head; all others lead on as before.
    by_cases hqq : q = q'
    · subst hqq
      obtain ⟨l, hleads, hnodup, hmem⟩ := h.chain q
      have hi : i ∉ l := fun hi => by
        obtain ⟨e, he, -⟩ := (hmem i).1 hi
        rw [hfree] at he
        cases he
      rw [hhead, if_pos rfl]
      refine ⟨i :: l, ⟨rfl, ?_⟩, List.nodup_cons.2 ⟨hi, hnodup⟩, fun j => ?_⟩
      · rw [chainNextOf, hentries, if_pos rfl]
        exact hleads.congr fun j hj => hnext j fun hij => hi (hij ▸ hj)
      · rw [hentries, List.mem_cons, hmem]
        split_ifs with hij'
        · simp [hij']
        · simp [Ne.symm hij']
    · refine h.chain_congr (by rw [hhead, if_neg hqq]) (fun j => ?_)
        fun j x hx _ => hnext j fun hij => ?_
      · rw [hentries]
        split_ifs with hij'
        · subst hij'
          rw [hfree]
          simp [hqq]
        · exact Iff.rfl
      · rw [← hij, hfree] at hx
        cases hx

/-- **What is in a chain is found.** -/
theorem find?_eq_none (h : Chained c) {physPc : UInt64} {flags : ModeFlags}
    {identity : CodeIdentity} (hnone : c.find? physPc flags identity = none) {b : Block}
    (hb : c.blockAt i = some b) : b.isFor physPc flags identity = false := by
  by_contra hfor
  rw [Bool.not_eq_false] at hfor
  rw [← map_block_entry] at hb
  obtain ⟨e, he, rfl⟩ := Option.map_eq_some_iff.1 hb
  obtain ⟨l, hleads, hnodup, hmem⟩ := h.chain (c.bucketOf physPc flags.key)
  have htaken (k : Nat) (hk : k ∈ l) : ∃ e, c.entry? k = some e :=
    ((hmem k).1 hk).imp fun _ he => he.1
  have hbucket : e.bucket = c.bucketOf physPc flags.key := by
    simp only [Block.isFor, Bool.and_eq_true, beq_iff_eq] at hfor
    rw [h.bucket i e he, hfor.1.1, hfor.1.2]
  have hfalse := findInChain_eq_none hleads htaken (length_le_of_taken hnodup htaken) hnone i
    ((hmem i).2 ⟨e, he, hbucket⟩) e.block (blockAt_of_taken he)
  rw [hfor] at hfalse
  cases hfalse

end Chained

end BlockCache

end X86Replay

import X86Replay.Proofs.Remapping

/-!
# Runs side by side

Two runners with the same settings may have come to their cached blocks in different ways. As long
as the lists of these blocks match, and neither fetch window is on a page that is gone, nobody can
tell the runners apart: slots, handles, statistics and what has been read of a page do not show.

* `Block.Matches`: blocks that are found for the same code and do the same.
* `RunState.Mirrors`: states on the same machine whose runners hold matching blocks.
* `RunState.TurnsAlike`: in the next turn both runs end alike, or replay matching blocks.
* `Mirrors.turnsAlike`, `replayBlock_mirrors`: so it is for states that mirror each other, and they
  do so after the turn.
* `Mirrors.loop`: their runs end alike.
-/

namespace X86Replay

/-! ## Matching blocks -/

namespace Block

variable {b b' : Block} {physPc : UInt64} {flags : ModeFlags} {identity : CodeIdentity}

/-- The blocks are for the same code, and have the same calls from the same memory. -/
structure Matches (b b' : Block) : Prop where
  code : b.ForSameCode b'
  pc : b'.pc = b.pc
  ranges : b'.ranges = b.ranges
  calls : b'.calls = b.calls

namespace Matches

theorem refl (b : Block) : b.Matches b :=
  ⟨.refl b, rfl, rfl, rfl⟩

theorem isFor_eq (h : b.Matches b') :
    b'.isFor physPc flags identity = b.isFor physPc flags identity := by
  rw [Bool.eq_iff_iff]
  exact ⟨fun hfor => (forSameCode_of_isFor hfor).2 h.code.symm,
    fun hfor => (forSameCode_of_isFor hfor).2 h.code⟩

theorem secondPage?_eq (h : b.Matches b') : b'.secondPage? = b.secondPage? := by
  rw [secondPage?, h.ranges, secondPage?]

theorem intersects_eq (h : b.Matches b') (start n : Nat) :
    b'.intersects start n = b.intersects start n := by
  rw [intersects, h.ranges, intersects]

/-- Matching blocks are replayed alike. -/
theorem replay_eq {M : Type} [GuestMemory M] (h : b.Matches b') (m : Machine M) :
    b'.replay m = b.replay m := by
  have hhit : b'.hitBy = b.hitBy := by
    unfold hitBy meets
    rw [h.ranges]
  have hcalls (calls : List Call) (n : Nat) (m : Machine M) :
      b'.replayCalls calls n m = b.replayCalls calls n m := by
    induction calls generalizing n m with
    | nil => rfl
    | cons c rest ih =>
      unfold replayCalls
      rw [h.pc, hhit]
      simp only [ih]
  rw [replay, replay, h.calls, hcalls]

end Matches

end Block

/-- Lists of cached blocks that match one by one. The handles may differ. -/
def ListsMatch (l l' : List (Handle × Block)) : Prop :=
  List.Forall₂ (fun e e' => e.2.Matches e'.2) l l'

namespace ListsMatch

variable {l l' : List (Handle × Block)} {p q : Block → Bool}

theorem refl (l : List (Handle × Block)) : ListsMatch l l :=
  List.forall₂_same.2 fun e _ => .refl e.2

theorem filter (h : ListsMatch l l') (hpq : ∀ b b', b.Matches b' → q b' = p b) :
    ListsMatch (l.filter (p ·.2)) (l'.filter (q ·.2)) :=
  List.rel_filter (fun e e' he => by
    show p e.2 = true ↔ q e'.2 = true
    rw [hpq _ _ he]) h

theorem find? (h : ListsMatch l l') (hpq : ∀ b b', b.Matches b' → q b' = p b) :
    Option.Rel (fun e e' => e.2.Matches e'.2) (l.find? (p ·.2)) (l'.find? (q ·.2)) := by
  induction h with
  | nil => exact .none
  | @cons e e' l l' he _ ih =>
    rw [List.find?_cons, List.find?_cons, hpq _ _ he]
    split
    · exact .some he
    · exact ih

end ListsMatch

/-! ## Code pages -/

/-- The page at an address is mapped for code. -/
def MapsCode (mem : FlatMemory) (page : UInt64) : Prop :=
  mapForFetch mem page 0 = .ok page

theorem mapsCode_iff {mem : FlatMemory} {pc page : UInt64} {cpl : UInt8} :
    mapForFetch mem pc cpl = .ok page ↔ page = pageOf pc ∧ MapsCode mem page := by
  unfold MapsCode
  rw [mapForFetch_flat_iff, mapForFetch_flat_iff]
  refine and_congr_right fun hpage => ?_
  rw [hpage, pageOf_pageOf]
  exact (and_iff_right rfl).symm

namespace FetchStream

variable {s s' t t' : FetchStream} {mem : FlatMemory} {cpu : Cpu} {pc page : UInt64}
  {pages pages' : UInt64 → Prop}

/-- On a mapped page a code address is resolved, and the window is on that page afterwards. -/
theorem Shows.resolve_mapped (h : s.Shows pages mem)
    (hpage : mapForFetch mem pc cpu.cpl = .ok page) :
    ∃ t, s.resolve cpu mem pc = (.ok pc, t) ∧ t.IsOn cpu pc ∧ t.Shows (MapsCode mem) mem := by
  have hmapped := (mapsCode_iff.1 hpage).2
  rw [(mapsCode_iff.1 hpage).1] at hmapped
  have hany : s.Shows (fun _ => True) mem := fun w hw =>
    ⟨(h w hw).aligned, (h w hw).physical, trivial, (h w hw).inside, (h w hw).filled⟩
  have hshows : (s.resolve cpu mem pc).2.Shows (fun _ => True) mem :=
    (kept_shows cpu fun _ _ _ _ => trivial).resolve s pc hany
  rcases hresolve : s.resolve cpu mem pc with ⟨x | a, t⟩
  · obtain ⟨hx, -⟩ := resolve_error hresolve
    rw [hpage] at hx
    cases hx
  · obtain ⟨rfl, -, w, hw, hon⟩ := h.resolve_ok hresolve
    rw [hresolve] at hshows
    have hw' := hshows w hw
    refine ⟨t, rfl, ⟨w, hw, hon⟩, forall_window_of_some hw ⟨hw'.aligned, hw'.physical, ?_,
      hw'.inside, hw'.filled⟩⟩
    rw [hon.linear]
    exact hmapped

/-- On a page that is not mapped no window can be. -/
theorem Shows.resolve_unmapped {x : Exception} (h : s.Shows (MapsCode mem) mem)
    (hx : mapForFetch mem pc cpu.cpl = .error x) :
    ∃ t, s.resolve cpu mem pc = (.error x, t) ∧ t.window = none := by
  have hmiss : s.window.filter (·.covers cpu pc) = none := by
    by_contra hne
    obtain ⟨w, hfilter⟩ := Option.ne_none_iff_exists'.1 hne
    obtain ⟨hw, hcovers⟩ := Option.filter_eq_some_iff.1 hfilter
    have hshows := h w hw
    have hpage : mapForFetch mem pc cpu.cpl = .ok w.linear := mapsCode_iff.2
      ⟨(FetchWindow.IsOn.of_covers hcovers hshows.aligned).linear, hshows.page⟩
    rw [hx] at hpage
    cases hpage
  rw [resolve_of_missing hmiss, hx]
  exact ⟨_, rfl, rfl⟩

/-- Windows on one page that show memory are twins. -/
theorem Shows.twin (h : t.Shows pages mem) (h' : t'.Shows pages' mem) (hon : t.IsOn cpu pc)
    (hon' : t'.IsOn cpu pc) : Twin mem t cpu pc t' cpu pc := by
  obtain ⟨w, hw, hon⟩ := hon
  obtain ⟨w', hw', hon'⟩ := hon'
  refine ⟨w, w', hw, hw', hon, hon', ?_, .inr ⟨readsInPortions mem, (h w hw).filled,
    (h' w' hw').filled⟩⟩
  rw [(h w hw).physical, (h' w' hw').physical, hon.linear, hon'.linear]

/-- **What has been read of the page of CS:RIP does not show in blocks.** -/
theorem Shows.compileBlock_eq (h : s.Shows pages mem) (h' : s'.Shows pages' mem)
    (hpage : mapForFetch mem cpu.linearPc cpu.cpl = .ok page) {flags : ModeFlags}
    (hwidth : flags.codeWidth = cpu.codeWidth) (config : Config) :
    (compileBlock cpu mem s' flags config).1 = (compileBlock cpu mem s flags config).1 := by
  obtain ⟨t, hresolve, hon, ht⟩ := h.resolve_mapped hpage
  obtain ⟨t', hresolve', hon', ht'⟩ := h'.resolve_mapped hpage
  exact compileBlock_twin_flat config hwidth hresolve hresolve' (ht.twin ht' hon hon')

end FetchStream

/-! ## States side by side -/

namespace RunState

variable {S : Type} {s s' : RunState FlatMemory S} {b b' : Block} {blocks fuel : Nat}

/-- The states have the same processor, memory and receiver. -/
structure Agrees (s s' : RunState FlatMemory S) : Prop where
  cpu : s'.cpu = s.cpu
  mem : s'.mem = s.mem
  sink : s'.sink = s.sink

/-- The states have the same machine, their runners have the same settings and hold matching blocks,
    and neither fetch window is on a page that is gone. -/
structure Mirrors (s s' : RunState FlatMemory S) : Prop extends Agrees s s' where
  config : s'.runner.config = s.runner.config
  left : s.runner.Knows (MapsCode s.mem) s.mem
  right : s'.runner.Knows (MapsCode s.mem) s.mem
  blocks : ListsMatch s.runner.cache.toList s'.runner.cache.toList

theorem Agrees.flags_eq (h : Agrees s s') (hconfig : s'.runner.config = s.runner.config) :
    s'.flags = s.flags := by
  rw [flags, h.cpu, hconfig, flags]

theorem Mirrors.withStats (h : Mirrors s s') (f : RunStats → RunStats) :
    Mirrors (s.modifyStats f) (s'.modifyStats f) :=
  ⟨⟨h.cpu, h.mem, h.sink⟩, h.config, h.left.withStats _, h.right.withStats _, h.blocks⟩

/-- **Executing alike** drops the same blocks. -/
theorem execute_mirrors {α : Type} {f : Machine FlatMemory → α × Machine FlatMemory}
    (hf : Logs f) (h : Mirrors s s') :
    (s'.execute f).1 = (s.execute f).1 ∧ Mirrors (s.execute f).2 (s'.execute f).2 := by
  rcases hrun : f ⟨s.cpu, s.mem, #[]⟩ with ⟨a, m⟩
  have hright : s'.runner.Knows (MapsCode s.mem) s'.mem := h.mem.symm ▸ h.right
  obtain ⟨runner, hexecute, hknows, hconfig, hmaps, hlist⟩ := execute_knows hf h.left hrun
  obtain ⟨runner', hexecute', hknows', hconfig', -, hlist'⟩ :=
    execute_knows hf hright (by rw [h.cpu, h.mem, hrun])
  have hpages : MapsCode m.mem = MapsCode s.mem := by
    unfold MapsCode
    rw [hmaps]
  rw [hexecute, hexecute']
  refine ⟨rfl, ⟨rfl, rfl, h.sink⟩, hconfig'.trans (h.config.trans hconfig.symm), ?_, ?_, ?_⟩
  · rw [hpages]
    exact hknows
  · rw [hpages]
    exact hknows'
  · dsimp only
    rw [hlist, hlist']
    exact h.blocks.filter
      (p := fun b => m.log.toList.all fun s =>
        !b.intersects s.start.toNat s.length.toUInt64.toNat)
      (q := fun b => m.log.toList.all fun s =>
        !b.intersects s.start.toNat s.length.toUInt64.toNat)
      fun b b' hb => by simp only [hb.intersects_eq]

/-! ## Entries -/

theorem Agrees.secondPageIsCurrent (h : Agrees s s') (hb : b.Matches b') :
    s'.secondPageIsCurrent b' = s.secondPageIsCurrent b := by
  unfold RunState.secondPageIsCurrent
  rw [h.cpu, h.mem, hb.secondPage?_eq]

/-- The same code is found in matching lists. -/
theorem Agrees.entryFor? (h : Agrees s s') (hconfig : s'.runner.config = s.runner.config)
    (hlist : ListsMatch s.runner.cache.toList s'.runner.cache.toList) (physPc : UInt64) :
    Option.Rel (fun e e' => e.2.Matches e'.2) (s.entryFor? physPc) (s'.entryFor? physPc) := by
  have hfind := hlist.find? (p := (·.isFor physPc s.flags (.ofCpu s.cpu)))
    (q := (·.isFor physPc s.flags (.ofCpu s.cpu))) fun _ _ hb => hb.isFor_eq
  unfold RunState.entryFor?
  rw [h.flags_eq hconfig, h.cpu]
  generalize s.runner.cache.toList.find? _ = r at hfind ⊢
  generalize s'.runner.cache.toList.find? _ = r' at hfind ⊢
  cases hfind with
  | none => exact .none
  | some he =>
    rw [Option.filter_some, Option.filter_some, h.secondPageIsCurrent he]
    split_ifs
    · exact .some he
    · exact .none

theorem Agrees.otherEntries (h : Agrees s s') (hconfig : s'.runner.config = s.runner.config)
    (hlist : ListsMatch s.runner.cache.toList s'.runner.cache.toList) (physPc : UInt64) :
    ListsMatch (s.otherEntries physPc) (s'.otherEntries physPc) := by
  unfold RunState.otherEntries
  rw [h.flags_eq hconfig, h.cpu]
  exact hlist.filter (p := fun b => !b.isFor physPc s.flags (.ofCpu s.cpu))
    (q := fun b => !b.isFor physPc s.flags (.ofCpu s.cpu)) fun _ _ hb => by rw [hb.isFor_eq]

/-! ## Ends of a run -/

/-- Two runs have ended alike: with the same exit, processor, memory and receiver. -/
structure EndsLike (r r' : RunExit × RunState FlatMemory S) : Prop where
  exit : r'.1 = r.1
  agrees : Agrees r.2 r'.2

variable [EventSink S]

theorem Agrees.deliver (h : Agrees s s') (e : Event) : Agrees (s.deliver e) (s'.deliver e) := by
  unfold RunState.deliver
  rw [h.cpu, h.sink]
  exact ⟨rfl, h.mem, rfl⟩

theorem Agrees.stop (h : Agrees s s') (reason : Stop) :
    EndsLike (s.stop reason) (s'.stop reason) := by
  cases reason with
  | halt | io | assist => exact ⟨rfl, h⟩
  | softwareInterrupt vector => exact ⟨rfl, h.deliver _⟩

/-- A single step does not look at what a runner holds. -/
theorem Agrees.singleStep (h : Agrees s s') (hlog : s'.runner.log = s.runner.log) :
    EndsLike s.singleStep s'.singleStep := by
  rcases hstep : Exec.step ⟨s.cpu, s.mem, s.runner.log⟩ with ⟨r, m⟩
  obtain ⟨runner, hexecute⟩ := s.execute_apply _ hstep
  obtain ⟨runner', hexecute'⟩ := s'.execute_apply (Exec.step (M := FlatMemory)) (a := r) (m := m)
    (by rw [h.cpu, h.mem, hlog, hstep])
  unfold RunState.singleStep
  rw [hexecute, hexecute', h.sink]
  have hagrees (n : Nat) : Agrees
      (retire (⟨runner, m.cpu, m.mem, s.sink⟩ : RunState FlatMemory S) n)
      (retire (⟨runner', m.cpu, m.mem, s.sink⟩ : RunState FlatMemory S) n) := ⟨rfl, rfl, rfl⟩
  obtain x | _ | _ | reason := r
  · exact ⟨rfl, (hagrees 0).deliver _⟩
  · exact ⟨rfl, hagrees 1⟩
  · exact ⟨rfl, hagrees 1⟩
  · exact (hagrees _).stop reason

/-- What is due before another block is the same. -/
theorem Agrees.exitBefore (h : Agrees s s') (hconfig : s'.runner.config = s.runner.config)
    (hlog : s'.runner.log = s.runner.log) (blocks : Nat) :
    Option.Rel EndsLike (s.exitBefore blocks) (s'.exitBefore blocks) := by
  unfold RunState.exitBefore
  rw [h.cpu, hconfig]
  split_ifs
  · exact .some ⟨rfl, h⟩
  · exact .some ⟨rfl, h⟩
  · exact .some ⟨rfl, h⟩
  · exact .some (h.singleStep hlog)
  · exact .none

/-- **Matching blocks are replayed alike**: the runs end alike, or both go on. -/
theorem replayBlock_mirrors (h : Mirrors s s') (hb : b.Matches b')
    (hlogs : Logs (b.replay (M := FlatMemory))) :
    (∃ e t t', s.replayBlock b = (some e, t) ∧ s'.replayBlock b' = (some e, t') ∧ Agrees t t') ∨
      ∃ t t', s.replayBlock b = (none, t) ∧ s'.replayBlock b' = (none, t') ∧ Mirrors t t' := by
  have hreplay : b'.replay (M := FlatMemory) = b.replay := funext hb.replay_eq
  obtain ⟨hanswer, hmirrors⟩ := execute_mirrors hlogs (h.withStats fun t =>
    { t with blocksExecuted := t.blocksExecuted + 1 })
  unfold replayBlock
  dsimp only
  rw [hreplay]
  generalize (s.modifyStats fun t => { t with blocksExecuted := t.blocksExecuted + 1 }).execute
    b.replay = r at hanswer hmirrors ⊢
  generalize (s'.modifyStats fun t => { t with blocksExecuted := t.blocksExecuted + 1 }).execute
    b.replay = r' at hanswer hmirrors ⊢
  obtain ⟨a, t⟩ := r
  obtain ⟨a', t'⟩ := r'
  obtain rfl : a' = a := hanswer
  have hretire (n : Nat) : Mirrors (t.retire n) (t'.retire n) := hmirrors.withStats _
  obtain f | ⟨_ | _ | _ | reason, n⟩ := a'
  · exact .inl ⟨_, _, _, rfl, rfl, (hretire _).toAgrees.deliver _⟩
  · exact .inr ⟨_, _, rfl, rfl, hretire n⟩
  · exact .inr ⟨_, _, rfl, rfl, hretire n⟩
  · exact .inr ⟨_, _, rfl, rfl, hretire n⟩
  · obtain ⟨hexit, hagrees⟩ := (hretire n).toAgrees.stop reason
    dsimp only
    generalize (t.retire n).stop reason = x at hexit hagrees
    generalize (t'.retire n).stop reason = x' at hexit hagrees
    obtain ⟨e, u⟩ := x
    obtain ⟨e', u'⟩ := x'
    obtain rfl : e' = e := hexit
    exact .inl ⟨e', u, u', rfl, rfl, hagrees⟩

/-! ## Turns -/

/-- In the next turn both runs end alike, or matching blocks are replayed. -/
def TurnsAlike (s s' : RunState FlatMemory S) : Prop :=
  (∃ e t t', s.nextBlock = (.exit e, t) ∧ s'.nextBlock = (.exit e, t') ∧ Agrees t t') ∨
    ∃ b b' t t', s.nextBlock = (.block b, t) ∧ s'.nextBlock = (.block b', t') ∧ b.Matches b' ∧
      Logs (b.replay (M := FlatMemory)) ∧ Mirrors t t'

/-- Runs that fail to compile in states of the same machine. -/
theorem Agrees.failCompile (h : Agrees s s') (f : CompileFault) :
    EndsLike (s.failCompile f) (s'.failCompile f) := by
  have hcounted : Agrees (s.modifyStats fun t => { t with compileFaults := t.compileFaults + 1 })
      (s'.modifyStats fun t => { t with compileFaults := t.compileFaults + 1 }) :=
    ⟨h.cpu, h.mem, h.sink⟩
  exact ⟨rfl, hcounted.deliver _⟩

section

omit [EventSink S]

variable {r' : Runner} {u u' : RunState FlatMemory S} {pages : UInt64 → Prop}

/-- Looking for a block with different runners leads to the same machine. -/
theorem Seeks.agrees (h : Seeks pages s u) (h' : Seeks pages { s with runner := r' } u') :
    Agrees u u' :=
  ⟨h'.cpu.trans h.cpu.symm, h'.mem.trans h.mem.symm, h'.sink.trans h.sink.symm⟩

/-- The states mirror each other if the blocks match afterwards. -/
theorem Seeks.mirrors (h : Seeks (MapsCode s.mem) s u)
    (hconfig : r'.config = s.runner.config)
    (h' : Seeks (MapsCode s.mem) { s with runner := r' } u')
    (hlist : ListsMatch u.runner.cache.toList u'.runner.cache.toList) : Mirrors u u' := by
  refine ⟨h.agrees h', h'.config.trans (hconfig.trans h.config.symm), ?_, ?_, hlist⟩
  · rw [h.mem]
    exact h.knows
  · rw [h.mem]
    exact h'.knows

end

/-- Turns are alike if they find blocks that match, and the blocks behind these match too. -/
theorem TurnsAlike.of_blocks {r' : Runner} {u u' : RunState FlatMemory S} {e e' : Handle × Block}
    {l l' : List (Handle × Block)} (hconfig : r'.config = s.runner.config)
    (hnext : s.nextBlock = (.block e.2, u))
    (hnext' : nextBlock { s with runner := r' } = (.block e'.2, u'))
    (h : Seeks (MapsCode s.mem) s u) (h' : Seeks (MapsCode s.mem) { s with runner := r' } u')
    (hlist : u.runner.cache.toList = e :: l) (hlist' : u'.runner.cache.toList = e' :: l')
    (hblocks : e.2.Matches e'.2) (hothers : ListsMatch l l') :
    TurnsAlike s { s with runner := r' } := by
  refine .inr ⟨_, _, u, u', hnext, hnext', hblocks, h.logs_head hlist, h.mirrors hconfig h' ?_⟩
  rw [hlist, hlist']
  exact .cons hblocks hothers

/-- **Turns are alike** once CS:RIP has been resolved, if matching blocks are used in both, or none,
    and the blocks for other code match. -/
theorem turnsAlike {r' : Runner} {t t' : FetchStream} {page : UInt64}
    (hconfig : r'.config = s.runner.config)
    (hpage : mapForFetch s.mem s.cpu.linearPc s.cpu.cpl = .ok page)
    (hresolve : s.runner.fetch.resolve s.cpu s.mem s.cpu.linearPc = (.ok s.cpu.linearPc, t))
    (hresolve' : r'.fetch.resolve s.cpu s.mem s.cpu.linearPc = (.ok s.cpu.linearPc, t'))
    (hleft : ({ s.runner with fetch := t } : Runner).Knows (MapsCode s.mem) s.mem)
    (hright : ({ r' with fetch := t' } : Runner).Knows (MapsCode s.mem) s.mem)
    (hon : t.IsOn s.cpu s.cpu.linearPc) (hon' : t'.IsOn s.cpu s.cpu.linearPc)
    (hentry : Option.Rel (fun e e' => e.2.Matches e'.2) (s.entryFor? s.cpu.linearPc)
      (entryFor? { s with runner := r' } s.cpu.linearPc))
    (hothers : ListsMatch (s.otherEntries s.cpu.linearPc)
      (otherEntries { s with runner := r' } s.cpu.linearPc)) :
    TurnsAlike s { s with runner := r' } := by
  have hnext := nextBlock_resolved hresolve hleft hon
  have hnext' := nextBlock_resolved (s := { s with runner := r' }) hresolve' hright hon'
  have hcompile := hleft.window.compileBlock_eq hright.window hpage
    (ModeFlags.codeWidth_ofCpu s.cpu s.runner.config.target s.runner.config.disregardLock)
    s.runner.config
  change (compileBlock s.cpu s.mem t' s.flags s.runner.config).1 =
    (compileBlock s.cpu s.mem t s.flags s.runner.config).1 at hcompile
  have hflags : flags { s with runner := r' } = s.flags :=
    Agrees.flags_eq (s := s) ⟨rfl, rfl, rfl⟩ hconfig
  have hcapacity : r'.cache.capacity = s.runner.cache.capacity := by
    rw [show r'.cache.capacity = _ from hright.capacity, hconfig]
    exact hleft.capacity.symm
  dsimp only at hnext'
  rw [hflags, hconfig, hcompile, hcapacity] at hnext'
  generalize s.entryFor? s.cpu.linearPc = entry at hentry hnext
  generalize entryFor? { s with runner := r' } s.cpu.linearPc = entry' at hentry hnext'
  -- Matching blocks are cached, or none in both. Without one both compile, with the same result, so
  -- one of them cannot fault alone.
  cases hentry with
  | @some e e' he =>
    obtain ⟨e₁, u, h₁, hnext, hu, hlist⟩ | ⟨⟨⟩, -⟩ := hnext
    obtain ⟨e₁', u', h₁', hnext', hu', hlist'⟩ | ⟨⟨⟩, -⟩ := hnext'
    cases h₁
    cases h₁'
    exact .of_blocks hconfig hnext hnext' hu hu' hlist hlist' he hothers
  | none =>
    obtain ⟨_, _, ⟨⟩, -⟩ | ⟨-, hnext⟩ := hnext
    obtain ⟨_, _, ⟨⟩, -⟩ | ⟨-, hnext'⟩ := hnext'
    obtain ⟨f, u, hf, hnext, hu, -⟩ | ⟨b, handle, u, hb, hnext, hu, hlist⟩ := hnext
    · obtain ⟨f', u', hf', hnext', hu', -⟩ | ⟨_, _, _, hb', -⟩ := hnext'
      · rw [hf] at hf'
        cases hf'
        exact .inl ⟨_, _, _, hnext, hnext', ((hu.agrees hu').failCompile f).agrees⟩
      · rw [hf] at hb'
        cases hb'
    · obtain ⟨_, _, hf', -⟩ | ⟨b', handle', u', hb', hnext', hu', hlist'⟩ := hnext'
      · rw [hb] at hf'
        cases hf'
      · rw [hb] at hb'
        cases hb'
        refine .of_blocks hconfig hnext hnext' hu hu' hlist hlist' (.refl b)
          (List.forall₂_take _ (hothers.filter
            (p := fun b' => !b'.isFor b.physPc b.flags b.identity)
            (q := fun b' => !b'.isFor b.physPc b.flags b.identity) fun _ _ h => ?_))
        rw [h.isFor_eq]

/-- **States that mirror each other have the same next turn.** -/
theorem Mirrors.turnsAlike (h : Mirrors s s') : TurnsAlike s s' := by
  obtain ⟨r', cpu', mem', sink'⟩ := s'
  obtain rfl : cpu' = s.cpu := h.cpu
  obtain rfl : mem' = s.mem := h.mem
  obtain rfl : sink' = s.sink := h.sink
  cases hpage : mapForFetch s.mem s.cpu.linearPc s.cpu.cpl with
  | error x =>
    obtain ⟨t, hresolve, -⟩ := h.left.window.resolve_unmapped hpage
    obtain ⟨t', hresolve', -⟩ := h.right.window.resolve_unmapped hpage
    have hagrees : Agrees { s with runner.fetch := t }
        ⟨{ r' with fetch := t' }, s.cpu, s.mem, s.sink⟩ := ⟨rfl, rfl, rfl⟩
    exact .inl ⟨_, _, _, nextBlock_unresolved hresolve,
      nextBlock_unresolved (s := { s with runner := r' }) hresolve',
      (hagrees.failCompile _).agrees⟩
  | ok page =>
    obtain ⟨t, hresolve, hon, ht⟩ := h.left.window.resolve_mapped hpage
    obtain ⟨t', hresolve', hon', ht'⟩ := h.right.window.resolve_mapped hpage
    exact RunState.turnsAlike h.config hpage hresolve hresolve' (h.left.withFetch ht)
      (h.right.withFetch ht') hon hon' (h.toAgrees.entryFor? h.config h.blocks _)
      (h.toAgrees.otherEntries h.config h.blocks _)

/-- Loops end alike if the first turns are alike and all loops of states that mirror each other end
    alike. -/
theorem TurnsAlike.loop (hturn : TurnsAlike s s') (h : Agrees s s')
    (hconfig : s'.runner.config = s.runner.config) (hlog : s'.runner.log = s.runner.log)
    (ih : ∀ (blocks : Nat) (t t' : RunState FlatMemory S), Mirrors t t' →
      EndsLike (t.loop fuel blocks) (t'.loop fuel blocks)) :
    EndsLike (s.loop (fuel + 1) blocks) (s'.loop (fuel + 1) blocks) := by
  have hexit := h.exitBefore hconfig hlog blocks
  rw [RunState.loop, RunState.loop]
  generalize s.exitBefore blocks = r at hexit
  generalize s'.exitBefore blocks = r' at hexit
  cases hexit with
  | some hends => exact hends
  | none =>
    dsimp only
    obtain ⟨e, t, t', hnext, hnext', hagrees⟩ | ⟨b, b', t, t', hnext, hnext', hb, hlogs, hmirrors⟩ :=
      hturn
    · rw [hnext, hnext']
      exact ⟨rfl, hagrees⟩
    · rw [hnext, hnext']
      dsimp only
      obtain ⟨e, u, u', hreplay, hreplay', hagrees⟩ | ⟨u, u', hreplay, hreplay', hmirrors'⟩ :=
        replayBlock_mirrors hmirrors hb hlogs
      · rw [hreplay, hreplay']
        exact ⟨rfl, hagrees⟩
      · rw [hreplay, hreplay']
        exact ih (blocks + 1) u u' hmirrors'

/-- **Loops of states that mirror each other end alike.** -/
theorem Mirrors.loop (h : Mirrors s s') (fuel blocks : Nat) :
    EndsLike (s.loop fuel blocks) (s'.loop fuel blocks) := by
  induction fuel generalizing blocks s s' with
  | zero => exact ⟨rfl, h.toAgrees⟩
  | succ fuel ih =>
    exact h.turnsAlike.loop h.toAgrees h.config (h.right.log.trans h.left.log.symm)
      fun blocks _ _ h => ih h blocks

end RunState

end X86Replay

import X86Replay.Memory.Remapped
import X86Replay.Proofs.Mode
import X86Replay.Proofs.TwinWindows

/-!
# One block for all addresses of its code

A block is looked up by the physical address of its code, not by the linear one. Compiling the same
physical code at another linear address, for a processor state that finds the block, does the same
work step by step, with one exception: straight-line code ends where the instruction pointer passes
the last one of its width, and the instruction pointer is not part of what is looked up.

* `CompileContext.Aliases`: two contexts for the same physical code.
* `nextStep_twin`, `firstStep_twin`: one step does the same in both.
* `extend_twin`: so do all steps up to the end of the block, or up to the last instruction pointer.
* `compile_sameWork_or_ends`: two blocks for the same code have the same calls, size, ranges and
  instructions, or one of them ends at the last instruction pointer and begins the other one.
* `compile_sameWork_of_flat`: in flat segments only the former happens.
* `compile_not_sameWork`: in real mode the latter does happen.
-/

namespace X86Replay

variable {M : Type} [GuestMemory M]

/-- An encoding that needed the next page, but is not known to reach it, takes one byte. -/
theorem Encoding.undecided_of_tail {e : Encoding} (hcrossing : e.crossing ≠ none)
    (h : e.tail? = none) : e.length = 1 ∧ ∀ o, e.toCall o = deferredCall (e.bytes.take 1) o := by
  obtain ⟨⟨next, n⟩, hcrossing⟩ := Option.ne_none_iff_exists'.1 hcrossing
  have hunknown : e.knownLength = none := by
    rw [tail_of_crossing hcrossing] at h
    exact Option.map_eq_none_iff.1 h
  have hlength := Encoding.length_of_unknown hunknown
  refine ⟨hlength, fun o => ?_⟩
  unfold Encoding.toCall
  rw [hlength]
  unfold Encoding.knownLength at hunknown
  cases hdecoded : e.decoded with
  | ok i =>
    rw [hdecoded] at hunknown
    cases hunknown
  | error x => rfl

/-! ## Drafts -/

/-- The second draft goes on where the first one ends, and is the first one if it has no more
    calls. -/
structure Draft.Grows (d d' : Draft) : Prop where
  start : d'.first.start = d.first.start
  calls : d.calls.toList <+: d'.calls.toList
  eq_of_calls : d'.calls.toList = d.calls.toList → d' = d

theorem Draft.Grows.refl (d : Draft) : d.Grows d :=
  ⟨rfl, List.prefix_rfl, fun _ => rfl⟩

theorem Draft.Grows.trans {d d' d'' : Draft} (h : d.Grows d') (h' : d'.Grows d'') :
    d.Grows d'' := by
  refine ⟨h'.start.trans h.start, h.calls.trans h'.calls, fun hcalls => ?_⟩
  have hle : d''.calls.toList.length ≤ d'.calls.toList.length := by
    rw [hcalls]
    exact h.calls.length_le
  have hlast := (h'.calls.eq_of_length_le hle).symm
  rw [h'.eq_of_calls hlast]
  exact h.eq_of_calls (hlast.symm.trans hcalls)

namespace CompileContext

variable {c c' : CompileContext} {mem : M} {s s' t t' : FetchStream} {d : Draft}
  {p p' q q' : Progress}

theorem grows_append (c : CompileContext) (d : Draft) (e : Encoding) : d.Grows (c.append d e) := by
  have hcalls := c.toList_calls_append d e
  refine ⟨rfl, ?_, fun h => ?_⟩
  · rw [hcalls]
    exact List.prefix_append _ _
  · rw [hcalls, List.append_right_eq_self] at h
    exact absurd h (List.ne_nil_of_mem (c.mem_callsOf d.size e))

/-- Accepting an encoding leads to the draft with it. -/
theorem has_accept (c : CompileContext) (d : Draft) (pc : UInt64) (e : Encoding) :
    (c.accept d pc e).Has (c.append d e) := by
  obtain h | ⟨h, -⟩ := c.accept_cases d pc e
  · exact .inr h
  · exact .inl h

theorem readNear_decoded {width : CodeWidth} {pc : UInt64} {e : Encoding}
    (h : readNear s mem width pc = (.ok e, t)) : e.decoded = decode width e.bytes := by
  unfold readNear at h
  rcases hcopy : s.copyBytes mem pc maxInstructionLength with ⟨x | bytes, s₁⟩
  · rw [hcopy] at h
    cases h
  · rw [hcopy] at h
    cases h
    rfl

theorem readNear_ne_nil {cpu : Cpu} {width : CodeWidth} {pc : UInt64} {e : Encoding}
    {w : FetchWindow} (hw : s.window = some w) (hon : w.IsOn cpu pc)
    (h : readNear s mem width pc = (.ok e, t)) : e.bytes ≠ [] := by
  unfold readNear at h
  rcases hcopy : s.copyBytes mem pc maxInstructionLength with ⟨x | bytes, s₁⟩
  · rw [hcopy] at h
    cases h
  · rw [hcopy] at h
    cases h
    exact FetchStream.copyBytes_ne_nil hw hon (by decide) hcopy

/-- Another instruction follows only if there is room for it on the page. -/
theorem place_of_accept {e : Encoding} {d' : Draft} (hd : c.place d.size < 4096)
    (he : e.length ≤ maxInstructionLength) (h : c.accept d (c.pc d) e = .more d') :
    c.place d'.size < 4096 := by
  obtain hfinished | ⟨hmore, -, hpage⟩ := c.accept_cases d (c.pc d) e
  · rw [hfinished] at h
    cases h
  · rw [hmore] at h
    cases h
    exact place_append hd he hpage

/-- A later instruction makes the draft grow, inside of its page if another one follows. -/
theorem nextStep_grows (c : CompileContext) (mem : M) (s : FetchStream) (d : Draft) :
    ∃ d', (c.nextStep mem s d).1.Has d' ∧ d.Grows d' ∧
      (c.place d.size < 4096 → (c.nextStep mem s d).1 = .more d' → c.place d'.size < 4096) := by
  unfold nextStep
  dsimp only
  split_ifs
  · exact ⟨d, .inr rfl, .refl d, fun _ h => nomatch h⟩
  · split
    · exact ⟨d, .inr rfl, .refl d, fun _ h => nomatch h⟩
    · split
      · exact ⟨d, .inr rfl, .refl d, fun _ h => nomatch h⟩
      · rename_i e _ hnear
        split_ifs
        · exact ⟨d, .inr rfl, .refl d, fun _ h => nomatch h⟩
        · exact ⟨_, c.has_accept d _ _, c.grows_append d _, fun hd =>
            place_of_accept hd (Encoding.length_le (readNear_decoded hnear))⟩

theorem grows_extend (fuel : Nat) (hp : p.Has d) (h : c.extend mem fuel p s = (q, t)) :
    ∃ d', q.Has d' ∧ d.Grows d' := by
  induction fuel generalizing p d s with
  | zero =>
    cases h
    exact ⟨d, hp, .refl d⟩
  | succ fuel ih =>
    obtain rfl | rfl := hp
    · rw [extend_succ] at h
      obtain ⟨d', hd', hgrows, -⟩ := c.nextStep_grows mem s d
      obtain ⟨d'', hd'', hgrows'⟩ := ih hd' h
      exact ⟨d'', hd'', hgrows.trans hgrows'⟩
    · rw [extend_finished] at h
      cases h
      exact ⟨d, .inr rfl, .refl d⟩

theorem firstStep_grows (c : CompileContext) (mem : M) (s : FetchStream) (d : Draft) :
    (∃ x, (c.firstStep mem s d).1 = .fault x) ∨
      ∃ d', (c.firstStep mem s d).1.Has d' ∧ d.Grows d' := by
  unfold firstStep
  dsimp only
  split
  · exact .inl ⟨_, rfl⟩
  · split_ifs
    · split
      · exact .inl ⟨_, rfl⟩
      · exact .inr ⟨_, c.has_accept d _ _, c.grows_append d _⟩
    · exact .inr ⟨_, c.has_accept d _ _, c.grows_append d _⟩

/-! ## Aliases -/

/-- Two contexts that differ in where the code is mapped, and in nothing else that matters but the
    instruction pointer. -/
structure Aliases (c c' : CompileContext) : Prop where
  width : c'.width = c.width
  checks : c'.flags.needsLimitChecks = c.flags.needsLimitChecks
  config : c'.config = c.config
  place : c'.start.toNat % 4096 = c.start.toNat % 4096

/-- Straight-line code would wrap before the end of the draft. -/
def PastLimit (c : CompileContext) (d : Draft) : Prop :=
  c.width.ipLimit < c.ip d

namespace Aliases

theorem place_eq (h : Aliases c c') (o : Nat) : c'.place o = c.place o := by
  rw [CompileContext.place, h.place, CompileContext.place]

theorem pc_mod (h : Aliases c c') (hd : c.place d.size < 4096) :
    (c.pc d).toNat % 4096 = (c'.pc d).toNat % 4096 := by
  rw [c.pc_eq, c'.pc_eq, c.pcAt_mod hd, c'.pcAt_mod (by rwa [h.place_eq]), h.place_eq]

theorem append_eq (h : Aliases c c') (d : Draft) (e : Encoding) :
    c'.append d e = c.append d e := by
  unfold append
  rw [h.checks]

theorem accept_eq (h : Aliases c c') (hd : c.place d.size < 4096) {e : Encoding}
    (he : e.length ≤ maxInstructionLength) :
    c'.accept d (c'.pc d) e = c.accept d (c.pc d) e := by
  have hpage : (pageOf (c'.pc d + e.length.toUInt64) != pageOf (c'.pc d)) =
      (pageOf (c.pc d + e.length.toUInt64) != pageOf (c.pc d)) := by
    rw [Bool.eq_iff_iff, bne_iff_ne, bne_iff_ne, Ne, Ne, pageOf_add_eq_iff he,
      pageOf_add_eq_iff he, h.pc_mod hd]
  unfold accept
  dsimp only
  rw [h.append_eq, hpage]

end Aliases

/-! ## One step -/

theorem toOption_map_congr {ε α β : Type} {x y : Except ε α} (h : x.toOption = y.toOption)
    (f : α → β) : (x.map f).toOption = (y.map f).toOption := by
  have hmap (x : Except ε α) : (x.map f).toOption = x.toOption.map f := by
    cases x <;> rfl
  rw [hmap, hmap, h]

theorem readNear_twin {cpu cpu' : Cpu} {pc pc' : UInt64} (width : CodeWidth)
    (h : FetchStream.Twin mem s cpu pc s' cpu' pc')
    (hpc : pc.toNat % 4096 = pc'.toNat % 4096) :
    (readNear s mem width pc).1.toOption = (readNear s' mem width pc').1.toOption ∧
      FetchStream.Twin mem (readNear s mem width pc).2 cpu pc (readNear s' mem width pc').2 cpu'
        pc' := by
  have hcopy := h.copyBytes maxInstructionLength hpc
  unfold readNear
  exact ⟨toOption_map_congr hcopy.1 _, hcopy.2⟩

theorem nextStep_of_pastLimit (mem : M) (s : FetchStream) (h : c.PastLimit d) :
    c.nextStep mem s d = (.finished d, s) := by
  have hlimit : decide (c.width.ipLimit < c.ip d) = true := decide_eq_true h
  unfold nextStep
  dsimp only
  rw [hlimit, Bool.true_or, if_pos rfl]

/-- **A later instruction is compiled alike** as long as neither instruction pointer has passed the
    last one. -/
theorem nextStep_twin (h : Aliases c c') (hd : c.place d.size < 4096)
    (htwin : FetchStream.Twin mem s c.cpu c.start s' c'.cpu c'.start)
    (hlimit : ¬ c.PastLimit d) (hlimit' : ¬ c'.PastLimit d) :
    (c'.nextStep mem s' d).1 = (c.nextStep mem s d).1 ∧
      FetchStream.Twin mem (c.nextStep mem s d).2 c.cpu c.start (c'.nextStep mem s' d).2 c'.cpu
        c'.start := by
  have hd' : c'.place d.size < 4096 := by rwa [h.place_eq]
  have hpage : pageOf (c.pc d) = pageOf c.start := c.pageOf_pcAt hd
  have hpage' : pageOf (c'.pc d) = pageOf c'.start := c'.pageOf_pcAt hd'
  have hcalls : c'.callsPerInstruction = c.callsPerInstruction := by
    unfold callsPerInstruction
    rw [h.checks]
  have hfalse : decide (c.width.ipLimit < c.ip d) = false := decide_eq_false hlimit
  have hfalse' : decide (c'.width.ipLimit < c'.ip d) = false := decide_eq_false hlimit'
  unfold nextStep
  dsimp only
  rw [hfalse, hfalse', Bool.false_or, Bool.false_or, h.config, hcalls, h.width]
  split_ifs
  · exact ⟨rfl, htwin⟩
  obtain ⟨a, a', t, t', ht, ht', htwin₁⟩ := (htwin.congr hpage hpage').resolve
  rw [ht, ht']
  dsimp only
  obtain ⟨hread, htwin₂⟩ := readNear_twin c.width htwin₁ (h.pc_mod hd)
  have htwin₂ := htwin₂.congr hpage.symm hpage'.symm
  rcases hnear : readNear t mem c.width (c.pc d) with ⟨x | e, t₁⟩
  · rcases hnear' : readNear t' mem c.width (c'.pc d) with ⟨x' | e', t₁'⟩
    · rw [hnear, hnear'] at htwin₂
      exact ⟨rfl, htwin₂⟩
    · rw [hnear, hnear'] at hread
      cases hread
  · rcases hnear' : readNear t' mem c.width (c'.pc d) with ⟨x' | e', t₁'⟩
    · rw [hnear, hnear'] at hread
      cases hread
    · rw [hnear, hnear'] at hread htwin₂
      cases hread
      dsimp only
      split_ifs
      · exact ⟨rfl, htwin₂⟩
      · exact ⟨h.accept_eq hd (Encoding.length_le (readNear_decoded hnear)), htwin₂⟩

/-- The draft of the first context ends where its instruction pointer passes the last one, and that
    of the second context, where it does not, goes on there. -/
structure StopsBefore (c : CompileContext) (d : Draft) (c' : CompileContext) (d' : Draft) :
    Prop where
  place : c.place d.size < 4096
  past : c.PastLimit d
  within : ¬ c'.PastLimit d
  grows : d.Grows d'

/-- **All later instructions are compiled alike**, unless one of the instruction pointers passes the
    last one before the other. -/
theorem extend_twin (h : Aliases c c') (fuel : Nat) (hd : c.place d.size < 4096)
    (htwin : FetchStream.Twin mem s c.cpu c.start s' c'.cpu c'.start)
    (hq : c.extend mem fuel (.more d) s = (q, t))
    (hq' : c'.extend mem fuel (.more d) s' = (q', t')) :
    ∃ d₁ d₁', q.Has d₁ ∧ q'.Has d₁' ∧
      (d₁' = d₁ ∨ StopsBefore c d₁ c' d₁' ∨ StopsBefore c' d₁' c d₁) := by
  induction fuel generalizing d s s' with
  | zero =>
    cases hq
    cases hq'
    exact ⟨d, d, .inl rfl, .inl rfl, .inl rfl⟩
  | succ fuel ih =>
    have hd' : c'.place d.size < 4096 := by rwa [h.place_eq]
    have hgrows := grows_extend (fuel + 1) (.inl rfl) hq
    have hgrows' := grows_extend (fuel + 1) (.inl rfl) hq'
    rw [extend_succ] at hq hq'
    -- A context that is past its last instruction pointer stops at the draft from which the other
    -- one goes on. If neither is, both take the same step.
    by_cases hlimit : c.PastLimit d
    · rw [nextStep_of_pastLimit mem s hlimit, extend_finished] at hq
      cases hq
      by_cases hlimit' : c'.PastLimit d
      · rw [nextStep_of_pastLimit mem s' hlimit', extend_finished] at hq'
        cases hq'
        exact ⟨d, d, .inr rfl, .inr rfl, .inl rfl⟩
      · obtain ⟨d₁', hd₁', hgrows'⟩ := hgrows'
        exact ⟨d, d₁', .inr rfl, hd₁', .inr (.inl ⟨hd, hlimit, hlimit', hgrows'⟩)⟩
    · by_cases hlimit' : c'.PastLimit d
      · rw [nextStep_of_pastLimit mem s' hlimit', extend_finished] at hq'
        cases hq'
        obtain ⟨d₁, hd₁, hgrows⟩ := hgrows
        exact ⟨d₁, d, hd₁, .inr rfl, .inr (.inr ⟨hd', hlimit', hlimit, hgrows⟩)⟩
      · obtain ⟨hsame, htwin'⟩ := nextStep_twin h hd htwin hlimit hlimit'
        obtain ⟨d₁, hd₁, -, hplace⟩ := c.nextStep_grows mem s d
        rw [hsame] at hq'
        generalize (c.nextStep mem s d).1 = p at hq hq' hd₁ hplace
        obtain rfl | rfl := hd₁
        · exact ih (hplace hd rfl) htwin' hq hq'
        · rw [extend_finished] at hq hq'
          cases hq
          cases hq'
          exact ⟨d₁, d₁, .inr rfl, .inr rfl, .inl rfl⟩

/-! ## The first step -/

theorem readFar_shape {cpu : Cpu} {width : CodeWidth} {pc : UInt64} {near : List UInt8}
    {e : Encoding} (h : readFar s cpu mem width pc near = (.ok e, t)) :
    ∃ far next, e = ⟨near ++ far, decode width (near ++ far), some (next, near.length)⟩ := by
  unfold readFar at h
  split at h
  · cases h
  · rename_i page s₁ _
    rcases hcopy : s₁.copyBytes mem (nextPage pc) (maxInstructionLength - near.length)
      with ⟨x | far, s₂⟩
    · rw [hcopy] at h
      cases h
    · rw [hcopy] at h
      cases h
      exact ⟨far, page, rfl⟩

theorem crossing_readFar {cpu : Cpu} {width : CodeWidth} {pc : UInt64} {near : List UInt8}
    {e : Encoding} (h : readFar s cpu mem width pc near = (.ok e, t)) : e.crossing ≠ none := by
  obtain ⟨far, next, rfl⟩ := readFar_shape h
  exact Option.some_ne_none _

/-- What is read across the end of the page is the same if the next pages are. -/
theorem readFar_twin {cpu cpu' : Cpu} {pc pc' : UInt64} (width : CodeWidth) (near : List UInt8)
    (h : FetchStream.Twin mem s cpu pc s' cpu' pc')
    (hnext : mapForFetch mem (nextPage pc') cpu'.cpl = mapForFetch mem (nextPage pc) cpu.cpl) :
    (readFar s cpu mem width pc near).1.toOption =
      (readFar s' cpu' mem width pc' near).1.toOption := by
  obtain ⟨w, w', hw, hw', hon, hon', -⟩ := h
  have hmiss : s.window.filter (·.covers cpu (nextPage pc)) = none := by
    rw [hw, Option.filter_some, hon.covers_nextPage]
    rfl
  have hmiss' : s'.window.filter (·.covers cpu' (nextPage pc')) = none := by
    rw [hw', Option.filter_some, hon'.covers_nextPage]
    rfl
  have haddress (pc page : UInt64) (loaded : Array UInt8) (epoch : UInt64) (cpl : UInt8) :
      FetchWindow.physicalOf ⟨pageOf (nextPage pc), page, loaded, epoch, cpl⟩ (nextPage pc) =
        page := by
    have hzero : nextPage pc - pageOf (nextPage pc) = 0 := by
      rw [← UInt64.toNat_inj, FetchWindow.toNat_sub_pageOf, nextPage_mod]
      rfl
    rw [FetchWindow.physicalOf, hzero, UInt64.add_zero]
  unfold readFar
  rw [FetchStream.resolve_of_missing hmiss, FetchStream.resolve_of_missing hmiss', hnext]
  cases mapForFetch mem (nextPage pc) cpu.cpl with
  | error x => rfl
  | ok page =>
    dsimp only
    rw [haddress, haddress]
    have htwin (s s' : FetchStream) : FetchStream.Twin mem
        { s with window := some ⟨pageOf (nextPage pc), page, #[], cpu.epoch, cpu.cpl⟩
                 misses := s.misses + 1 } cpu (nextPage pc)
        { s' with window := some ⟨pageOf (nextPage pc'), page, #[], cpu'.epoch, cpu'.cpl⟩
                  misses := s'.misses + 1 } cpu' (nextPage pc') :=
      ⟨_, _, rfl, rfl, ⟨rfl, rfl, rfl⟩, ⟨rfl, rfl, rfl⟩, rfl, .inl rfl⟩
    have hcopy := (htwin s s').copyBytes (maxInstructionLength - near.length)
      (by rw [nextPage_mod, nextPage_mod])
    exact toOption_map_congr hcopy.1 _

theorem append_congr (c : CompileContext) (d : Draft) {e e' : Encoding}
    (hlength : e'.length = e.length) (hcall : e'.toCall d.size = e.toCall d.size)
    (htail : e'.tail? = e.tail?) : c.append d e' = c.append d e := by
  unfold append
  dsimp only
  rw [hlength, hcall, htail]

/-- Nothing follows an encoding that needed the next page. -/
theorem accept_far (c : CompileContext) (d : Draft) (pc : UInt64) {e : Encoding}
    (h : e.crossing ≠ none) : c.accept d pc e = .finished (c.append d e) := by
  obtain hfinished | ⟨-, hgoes, -⟩ := c.accept_cases d pc e
  · exact hfinished
  · exact absurd hgoes.crossing h

/-- A first instruction that is cut off at the page end makes the same draft, if the next pages are
    the same where it is known to reach them. -/
theorem append_readFar_twin {d : Draft} {e f f' : Encoding} {t t' u u' : FetchStream}
    (htwin : FetchStream.Twin mem s c.cpu c.start s' c'.cpu c'.start)
    (hnear : readNear s mem c.width c.start = (.ok e, t))
    (htwin₁ : FetchStream.Twin mem t c.cpu c.start t' c'.cpu c'.start)
    (hfar : readFar t c.cpu mem c.width c.start e.bytes = (.ok f, u))
    (hfar' : readFar t' c'.cpu mem c.width c'.start e.bytes = (.ok f', u'))
    (hmaps : f.tail?.isSome ∨ f'.tail?.isSome →
      mapForFetch mem (nextPage c'.start) c'.cpu.cpl =
        mapForFetch mem (nextPage c.start) c.cpu.cpl) : c.append d f' = c.append d f := by
  by_cases hnext : mapForFetch mem (nextPage c'.start) c'.cpu.cpl =
      mapForFetch mem (nextPage c.start) c.cpu.cpl
  · have hsame := readFar_twin c.width e.bytes htwin₁ hnext
    rw [hfar, hfar'] at hsame
    cases hsame
    rfl
  · -- The bytes behind the page end are not part of either draft.
    have htail : f.tail? = none := by
      by_contra htail
      exact hnext (hmaps (.inl (Option.isSome_iff_ne_none.2 htail)))
    have htail' : f'.tail? = none := by
      by_contra htail'
      exact hnext (hmaps (.inr (Option.isSome_iff_ne_none.2 htail')))
    obtain ⟨far, next, hf⟩ := readFar_shape hfar
    obtain ⟨far', next', hf'⟩ := readFar_shape hfar'
    obtain ⟨hlength, hcall⟩ := Encoding.undecided_of_tail (crossing_readFar hfar) htail
    obtain ⟨hlength', hcall'⟩ := Encoding.undecided_of_tail (crossing_readFar hfar') htail'
    obtain ⟨w, -, hw, -, hon, -, -⟩ := htwin
    obtain ⟨first, rest, hbytes⟩ := List.exists_cons_of_ne_nil (readNear_ne_nil hw hon hnear)
    refine append_congr c d (hlength'.trans hlength.symm) ?_ (htail'.trans htail.symm)
    rw [hcall, hcall', hf, hf', hbytes]
    rfl

/-- **The first instruction is compiled alike**, if the next pages are the same where it is known to
    reach them. -/
theorem firstStep_twin (h : Aliases c c') (hd : d.size = 0)
    (htwin : FetchStream.Twin mem s c.cpu c.start s' c'.cpu c'.start)
    (hok : ∀ x, (c.firstStep mem s d).1 ≠ .fault x)
    (hok' : ∀ x, (c'.firstStep mem s' d).1 ≠ .fault x) :
    (∃ e, (c.firstStep mem s d).1 = c.accept d (c.pc d) e ∧ e.length ≤ maxInstructionLength ∧
      (c'.firstStep mem s' d).1 = (c.firstStep mem s d).1 ∧
      FetchStream.Twin mem (c.firstStep mem s d).2 c.cpu c.start (c'.firstStep mem s' d).2 c'.cpu
        c'.start) ∨
    ∃ e e', (c.firstStep mem s d).1 = .finished (c.append d e) ∧
      (c'.firstStep mem s' d).1 = .finished (c.append d e') ∧
      ((e.tail?.isSome ∨ e'.tail?.isSome →
          mapForFetch mem (nextPage c'.start) c'.cpu.cpl =
            mapForFetch mem (nextPage c.start) c.cpu.cpl) →
        c.append d e' = c.append d e) := by
  have hplace : c.place d.size < 4096 := hd ▸ c.place_zero_lt
  have hpc : c.pc d = c.start := by rw [c.pc_eq, hd, c.pcAt_zero]
  have hpc' : c'.pc d = c'.start := by rw [c'.pc_eq, hd, c'.pcAt_zero]
  have haccept (e : Encoding) (he : e.length ≤ maxInstructionLength) := h.accept_eq hplace he
  rw [hpc, hpc'] at haccept
  obtain ⟨hread, htwin₁⟩ := readNear_twin c.width htwin h.place.symm
  unfold firstStep at hok hok' ⊢
  dsimp only at hok hok' ⊢
  rw [h.width] at hok' ⊢
  rw [hpc] at hok ⊢
  rw [hpc'] at hok' ⊢
  rcases hnear : readNear s mem c.width c.start with ⟨x | e, t⟩
  · rw [hnear] at hok
    exact absurd rfl (hok x)
  rcases hnear' : readNear s' mem c.width c'.start with ⟨x | e', t'⟩
  · rw [hnear'] at hok'
    exact absurd rfl (hok' x)
  rw [hnear, hnear'] at hread htwin₁
  rw [hnear] at hok
  rw [hnear'] at hok'
  cases hread
  dsimp only at hok hok' htwin₁ ⊢
  have hlength := Encoding.length_le (readNear_decoded hnear)
  -- Only what is cut at the page end looks at the next page, and then it ends the block.
  by_cases hcut : e.isCut
  · rw [if_pos hcut] at hok hok' ⊢
    rw [if_pos hcut]
    rcases hfar : readFar t c.cpu mem c.width c.start e.bytes with ⟨x | f, u⟩
    · rw [hfar] at hok
      exact absurd rfl (hok x)
    rcases hfar' : readFar t' c'.cpu mem c.width c'.start e.bytes with ⟨x | f', u'⟩
    · rw [hfar'] at hok'
      exact absurd rfl (hok' x)
    dsimp only
    refine .inr ⟨f, f', c.accept_far d _ (crossing_readFar hfar), ?_,
      append_readFar_twin htwin hnear htwin₁ hfar hfar'⟩
    rw [c'.accept_far d _ (crossing_readFar hfar'), h.append_eq]
  · rw [if_neg hcut, if_neg hcut]
    exact .inl ⟨e, rfl, hlength, haccept e hlength, htwin₁⟩

end CompileContext

/-! ## Blocks -/

open CompileContext

theorem Progress.Has.unique {p : Progress} {d d' : Draft} (h : p.Has d) (h' : p.Has d') :
    d' = d := by
  obtain rfl | rfl := h
  · obtain h' | h' := h'
    · cases h'
      rfl
    · cases h'
  · obtain h' | h' := h'
    · cases h'
    · cases h'
      rfl

variable {mem : M} {s s' t t' : FetchStream} {cpu cpu' : Cpu} {flags flags' : ModeFlags}
  {config : Config} {b b' : Block}

/-- The steps that lead to a block. -/
theorem compileBlock_steps (h : compileBlock cpu mem s flags config = (.ok b, t)) :
    ∃ s₁ p s₂ q d, s.resolve cpu mem cpu.linearPc = (.ok b.physPc, s₁) ∧
      firstStep ⟨cpu, flags, config⟩ mem s₁ (emptyDraft b.physPc) = (p, s₂) ∧
      (∀ x, p ≠ .fault x) ∧
      extend ⟨cpu, flags, config⟩ mem pageSize.toNat p s₂ = (q, t) ∧ q.Has d ∧
      b = finish ⟨cpu, flags, config⟩ d := by
  unfold compileBlock at h
  dsimp only at h
  rcases hresolve : s.resolve cpu mem cpu.linearPc with ⟨x | physPc, s₁⟩
  · rw [hresolve] at h
    cases h
  rw [hresolve] at h
  dsimp only at h
  rcases hfirst : firstStep ⟨cpu, flags, config⟩ mem s₁ (emptyDraft physPc) with ⟨p, s₂⟩
  unfold emptyDraft at hfirst
  rw [hfirst] at h
  dsimp only at h
  rcases hextend : extend ⟨cpu, flags, config⟩ mem pageSize.toNat p s₂ with ⟨q, s₃⟩
  rw [hextend] at h
  have hgrows := firstStep_grows ⟨cpu, flags, config⟩ mem s₁ (emptyDraft physPc)
  have hfirst' : firstStep ⟨cpu, flags, config⟩ mem s₁ (emptyDraft physPc) = (p, s₂) := hfirst
  rw [hfirst'] at hgrows
  obtain ⟨x, hx⟩ | ⟨d₁, hd₁, hgrows⟩ := hgrows
  · have hfault : p = .fault x := hx
    rw [hfault, extend_fault] at hextend
    cases hextend
    cases h
  obtain ⟨d, hd, hgrows'⟩ := grows_extend _ hd₁ hextend
  have hb : b = finish ⟨cpu, flags, config⟩ d ∧ t = s₃ := by
    obtain rfl | rfl := hd <;> cases h <;> exact ⟨rfl, rfl⟩
  obtain ⟨rfl, rfl⟩ := hb
  have hstart : d.first.start = physPc := (hgrows.trans hgrows').start
  have hne (x : Exception) : p ≠ .fault x := by
    rintro rfl
    obtain h | h := hd₁ <;> cases h
  refine ⟨s₁, p, s₂, q, d, ?_, ?_, hne, hextend, hd, rfl⟩
  · show _ = (Except.ok d.first.start, s₁)
    rw [hstart]
  · show firstStep _ mem s₁ (emptyDraft d.first.start) = _
    rw [hstart, hfirst']

/-- A block has a second page if its draft has a second range. -/
theorem isSome_secondPage? (c : CompileContext) (d : Draft) :
    (c.finish d).secondPage?.isSome = d.second.isSome := by
  unfold Block.secondPage? finish
  cases d.second <;> rfl

/-- **Two blocks for the same code are made from the same draft**, or one of them stops where its
    instruction pointer passes the last one. -/
theorem compileBlock_twin (hwidth : flags.codeWidth = cpu.codeWidth)
    (hwidth' : flags'.codeWidth = cpu'.codeWidth) (hsame : flags'.codeWidth = flags.codeWidth)
    (hchecks : flags'.needsLimitChecks = flags.needsLimitChecks)
    (hs : FetchStream.Comparable mem s cpu s' cpu')
    (h : compileBlock cpu mem s flags config = (.ok b, t))
    (h' : compileBlock cpu' mem s' flags' config = (.ok b', t')) (hphysPc : b'.physPc = b.physPc)
    (hsecond : b.secondPage?.isSome ∨ b'.secondPage?.isSome →
      mapForFetch mem (nextPage cpu'.linearPc) cpu'.cpl =
        mapForFetch mem (nextPage cpu.linearPc) cpu.cpl) :
    ∃ d d', b = finish ⟨cpu, flags, config⟩ d ∧ b' = finish ⟨cpu', flags', config⟩ d' ∧
      (d' = d ∨ StopsBefore ⟨cpu, flags, config⟩ d ⟨cpu', flags', config⟩ d' ∨
        StopsBefore ⟨cpu', flags', config⟩ d' ⟨cpu, flags, config⟩ d) := by
  obtain ⟨s₁, p, s₂, q, d, hresolve, hfirst, hok, hextend, hd, rfl⟩ := compileBlock_steps h
  obtain ⟨s₁', p', s₂', q', d', hresolve', hfirst', hok', hextend', hd', rfl⟩ :=
    compileBlock_steps h'
  refine ⟨d, d', rfl, rfl, ?_⟩
  have hstart : start ⟨cpu, flags, config⟩ = cpu.linearPc := start_eq hwidth
  have hstart' : start ⟨cpu', flags', config⟩ = cpu'.linearPc := start_eq hwidth'
  rw [hphysPc] at hresolve' hfirst'
  rw [← hstart, ← hstart', isSome_secondPage?, isSome_secondPage?] at hsecond
  obtain ⟨hmod, htwin⟩ := hs.twin hresolve hresolve'
  rw [← hstart, ← hstart'] at hmod htwin
  have halias : Aliases ⟨cpu, flags, config⟩ ⟨cpu', flags', config⟩ :=
    ⟨hsame, hchecks, rfl, hmod.symm⟩
  have hstep := firstStep_twin halias (d := emptyDraft (finish ⟨cpu, flags, config⟩ d).physPc) rfl
    htwin (by rw [hfirst]; exact hok) (by rw [hfirst']; exact hok')
  rw [hfirst, hfirst'] at hstep
  dsimp only at hstep
  -- Either both go on behind the same first instruction, or it crosses the page and ends both.
  obtain ⟨e, he, hlength, hp, htwin₂⟩ | ⟨e, e', he, he', hsame⟩ := hstep
  · rw [hp] at hextend'
    obtain hfinished | ⟨hmore, -⟩ := accept_cases ⟨cpu, flags, config⟩ _ _ e
    · rw [he, hfinished, extend_finished] at hextend hextend'
      cases hextend
      cases hextend'
      exact .inl (hd.unique hd')
    · rw [he, hmore] at hextend hextend'
      have hplace := place_of_accept (d := emptyDraft _) (CompileContext.place_zero_lt _) hlength
        hmore
      obtain ⟨d₁, d₁', hd₁, hd₁', htwins⟩ :=
        extend_twin halias _ hplace htwin₂ hextend hextend'
      cases hd₁.unique hd
      cases hd₁'.unique hd'
      exact htwins
  · rw [he, extend_finished] at hextend
    rw [he', extend_finished] at hextend'
    cases hextend
    cases hextend'
    have hdraft := Progress.Has.unique (.inr rfl) hd
    have hdraft' := Progress.Has.unique (.inr rfl) hd'
    rw [congrArg Draft.second hdraft, congrArg Draft.second hdraft'] at hsecond
    exact .inl (hdraft'.trans ((hsame hsecond).trans hdraft.symm))

/-- A block that is found for another processor state was compiled for the same code address and for
    a mode of the same width and flatness. -/
theorem compileBlock_of_isFor {target : CpuTarget} {lock : Bool}
    (h : compileBlock cpu mem s (.ofCpu cpu target lock) config = (.ok b, t)) {physPc : UInt64}
    (hfor : b.isFor physPc (.ofCpu cpu' target lock) (.ofCpu cpu')) :
    physPc = b.physPc ∧
      (ModeFlags.ofCpu cpu' target lock).low = (ModeFlags.ofCpu cpu target lock).low := by
  obtain ⟨-, -, -, -, d, -, -, -, -, -, rfl⟩ := compileBlock_steps h
  unfold Block.isFor at hfor
  simp only [Bool.and_eq_true, beq_iff_eq] at hfor
  obtain ⟨⟨hphysPc, hkey⟩, -⟩ := hfor
  exact ⟨hphysPc.symm, (ModeFlags.low_eq_of_key_eq hkey).symm⟩

/-- Two blocks have the same calls for the same code. They may differ in the linear address and the
    processor state that they were compiled for. -/
structure Block.SameWork (b b' : Block) : Prop where
  calls : b'.calls = b.calls
  size : b'.size = b.size
  ranges : b'.ranges = b.ranges
  instructions : b'.instructions = b.instructions

/-- The block of one processor state ends, inside of its page, where the instruction pointer passes
    the last one of its width, and the block of another state, where it does not, goes on there. -/
structure Block.EndsBefore (b : Block) (cpu : Cpu) (b' : Block) (cpu' : Cpu) : Prop where
  calls : b.calls <+: b'.calls
  longer : b'.calls ≠ b.calls
  page : cpu.linearPc.toNat % 4096 + b.size.toNat < 4096
  past : cpu.codeWidth.ipLimit < cpu.rip + b.size.toUInt64
  within : cpu'.rip + b.size.toUInt64 ≤ cpu'.codeWidth.ipLimit

namespace CompileContext.StopsBefore

variable {d d' : Draft}

theorem page (h : StopsBefore ⟨cpu, flags, config⟩ d ⟨cpu', flags', config⟩ d')
    (hwidth : flags.codeWidth = cpu.codeWidth) : cpu.linearPc.toNat % 4096 + d.size < 4096 := by
  have hplace := h.place
  rwa [CompileContext.place, start, width, hwidth, ← Cpu.linearPc] at hplace

theorem endsBefore (h : StopsBefore ⟨cpu, flags, config⟩ d ⟨cpu', flags', config⟩ d')
    (hwidth : flags.codeWidth = cpu.codeWidth) (hwidth' : flags'.codeWidth = cpu'.codeWidth)
    (hne : d' ≠ d) :
    Block.EndsBefore (finish ⟨cpu, flags, config⟩ d) cpu (finish ⟨cpu', flags', config⟩ d')
      cpu' := by
  have hpage := h.page hwidth
  have hsize : d.size.toUInt16.toNat = d.size := Nat.mod_eq_of_lt (by omega)
  have hword : d.size.toUInt16.toUInt64 = d.size.toUInt64 := by
    rw [← UInt64.toNat_inj, UInt16.toNat_toUInt64, hsize, toNat_toUInt64 (by omega)]
  refine ⟨h.grows.calls, fun hcalls => hne (h.grows.eq_of_calls hcalls), ?_, ?_, ?_⟩
  · show _ + d.size.toUInt16.toNat < _
    rwa [hsize]
  · show _ < _ + d.size.toUInt16.toUInt64
    rw [hword, ← hwidth]
    exact h.past
  · show _ + d.size.toUInt16.toUInt64 ≤ _
    rw [hword, ← hwidth']
    exact UInt64.not_lt.1 h.within

/-- In flat segments the page ends before the instruction pointers do. -/
theorem not_isFlat {target : CpuTarget} {lock : Bool}
    (h : StopsBefore ⟨cpu, .ofCpu cpu target lock, config⟩ d ⟨cpu', flags', config⟩ d')
    (hrip : cpu.InRange) : (ModeFlags.ofCpu cpu target lock).isFlat = false := by
  rw [Bool.eq_false_iff]
  intro hflat
  have hwidth := ModeFlags.codeWidth_ofCpu cpu target lock
  have hpage := h.page hwidth
  have hpast : cpu.codeWidth.ipLimit < cpu.rip + d.size.toUInt64 := hwidth ▸ h.past
  rw [UInt64.lt_iff_toNat_lt, UInt64.toNat_add, toNat_toUInt64 (by omega)] at hpast
  have hlimited : (ModeFlags.ofCpu cpu target lock).needsLimitChecks = false := by
    rw [ModeFlags.needsLimitChecks, hflat]
    rfl
  obtain h64 | ⟨hbase, -⟩ := ModeFlags.unlimited_ofCpu cpu target lock hlimited
  · rw [Cpu.is64Bit, beq_iff_eq] at h64
    have hlimit : cpu.codeWidth.ipLimit.toNat = 2 ^ 64 - 1 := by
      rw [h64]
      rfl
    omega
  · rw [Cpu.linearPc, Cpu.linearIp_of_base_zero hbase hrip] at hpage
    have hlimit : cpu.ripMask.toNat ≤ cpu.codeWidth.ipLimit.toNat := by
      rw [ModeFlags.isFlat_ofCpu, Cpu.is64Bit] at hflat
      unfold Cpu.ripMask
      cases hcodeWidth : cpu.codeWidth with
      | bits16 =>
        rw [hcodeWidth] at hflat
        cases hflat
      | bits32 | bits64 => exact le_rfl
    have hmod : (cpu.codeWidth.ipLimit.toNat + 1) % 4096 = 0 := by
      cases cpu.codeWidth <;> rfl
    have hle := UInt64.le_iff_toNat_le.1 hrip
    omega

end CompileContext.StopsBefore

/-- **Two blocks for the same code do the same work**, if they were compiled for processor states of
    which one finds the block of the other, or one of them ends where its instruction pointer passes
    the last one. -/
theorem compile_sameWork_or_ends {target : CpuTarget} {lock : Bool}
    (hs : FetchStream.Comparable mem s cpu s' cpu')
    (h : compileBlock cpu mem s (.ofCpu cpu target lock) config = (.ok b, t))
    (h' : compileBlock cpu' mem s' (.ofCpu cpu' target lock) config = (.ok b', t'))
    (hfor : b.isFor b'.physPc (.ofCpu cpu' target lock) (.ofCpu cpu'))
    (hsecond : b.secondPage?.isSome ∨ b'.secondPage?.isSome →
      mapForFetch mem (nextPage cpu'.linearPc) cpu'.cpl =
        mapForFetch mem (nextPage cpu.linearPc) cpu.cpl) :
    b.SameWork b' ∨ b.EndsBefore cpu b' cpu' ∨ b'.EndsBefore cpu' b cpu := by
  obtain ⟨hphysPc, hlow⟩ := compileBlock_of_isFor h hfor
  have hwidth := ModeFlags.codeWidth_ofCpu cpu target lock
  have hwidth' := ModeFlags.codeWidth_ofCpu cpu' target lock
  obtain ⟨d, d', rfl, rfl, hdrafts⟩ := compileBlock_twin hwidth hwidth'
    (ModeFlags.codeWidth_congr hlow) (ModeFlags.needsLimitChecks_congr hlow) hs h h' hphysPc hsecond
  by_cases hdraft : d' = d
  · subst hdraft
    exact .inl ⟨rfl, rfl, rfl, rfl⟩
  · obtain hsame | hstops | hstops := hdrafts
    · exact absurd hsame hdraft
    · exact .inr (.inl (hstops.endsBefore hwidth hwidth' hdraft))
    · exact .inr (.inr (hstops.endsBefore hwidth' hwidth (Ne.symm hdraft)))

/-- **In flat segments they always do the same work.** -/
theorem compile_sameWork_of_flat {target : CpuTarget} {lock : Bool}
    (hflat : (ModeFlags.ofCpu cpu target lock).isFlat) (hrip : cpu.InRange) (hrip' : cpu'.InRange)
    (hs : FetchStream.Comparable mem s cpu s' cpu')
    (h : compileBlock cpu mem s (.ofCpu cpu target lock) config = (.ok b, t))
    (h' : compileBlock cpu' mem s' (.ofCpu cpu' target lock) config = (.ok b', t'))
    (hfor : b.isFor b'.physPc (.ofCpu cpu' target lock) (.ofCpu cpu'))
    (hsecond : b.secondPage?.isSome ∨ b'.secondPage?.isSome →
      mapForFetch mem (nextPage cpu'.linearPc) cpu'.cpl =
        mapForFetch mem (nextPage cpu.linearPc) cpu.cpl) : b.SameWork b' := by
  obtain ⟨hphysPc, hlow⟩ := compileBlock_of_isFor h hfor
  obtain ⟨d, d', rfl, rfl, rfl | hstops | hstops⟩ :=
    compileBlock_twin (ModeFlags.codeWidth_ofCpu cpu target lock)
      (ModeFlags.codeWidth_ofCpu cpu' target lock) (ModeFlags.codeWidth_congr hlow)
      (ModeFlags.needsLimitChecks_congr hlow) hs h h' hphysPc hsecond
  · exact ⟨rfl, rfl, rfl, rfl⟩
  · rw [hstops.not_isFlat hrip] at hflat
    cases hflat
  · rw [← ModeFlags.isFlat_congr hlow, hstops.not_isFlat hrip'] at hflat
    cases hflat

/-! ## Where the instruction pointer wraps -/

/-- A no-operation and a halt at physical address `0x1F`, on a page that three linear pages lead
    to. -/
def aliasedCode : RemappedMemory where
  flat := (FlatMemory.zeros 64).load 0x1F [0x90, 0xF4]
  table := [(0x1000, 0), (0x5000, 0), (0x10000, 0)]

/-- Real mode in a code segment that starts at linear address `0x20`. -/
def Cpu.realAt (rip : UInt64) : Cpu :=
  { realMode with rip, segments := realMode.segments.set .cs (.realCode 2) }

/-- A block that has been compiled has been compiled with some stream left over. -/
theorem exists_stream {r : Except CompileFault Block × FetchStream} (h : r.1 = .ok b) :
    ∃ s, r = (.ok b, s) :=
  ⟨r.2, Prod.ext h rfl⟩

/-- The same for the halt at two of its linear addresses. -/
theorem compile_sameWork_or_ends_hlt :
    ∃ b b' s s',
      compileBlock (.realAt 0x1000) aliasedCode {} (.ofCpu (.realAt 0x1000) .current false) {} =
        (.ok b, s) ∧
      compileBlock (.realAt 0x5000) aliasedCode {} (.ofCpu (.realAt 0x5000) .current false) {} =
        (.ok b', s') ∧
      b'.pc ≠ b.pc ∧
      (b.SameWork b' ∨ b.EndsBefore (.realAt 0x1000) b' (.realAt 0x5000) ∨
        b'.EndsBefore (.realAt 0x5000) b (.realAt 0x1000)) := by
  let halt (pc : UInt64) : Block :=
    { physPc := 0x20, pc, flags := ⟨0⟩, checksLimit := true
      identity := ⟨0x20, 0xFFFF, 2, 0x9B⟩, size := 1, ranges := [⟨0x20, 1⟩]
      calls :=
        [{ handler := .checkLimit, length := 1, offset := 0, p0 := 1 },
          { handler := .hlt, length := 1, offset := 0 }]
      instructions := 1 }
  have hcompile : (compileBlock (.realAt 0x1000) aliasedCode {}
      (.ofCpu (.realAt 0x1000) .current false) {}).1 = .ok (halt 0x1020) := by
    decide +kernel
  have hcompile' : (compileBlock (.realAt 0x5000) aliasedCode {}
      (.ofCpu (.realAt 0x5000) .current false) {}).1 = .ok (halt 0x5020) := by
    decide +kernel
  obtain ⟨s, h⟩ := exists_stream hcompile
  obtain ⟨s', h'⟩ := exists_stream hcompile'
  exact ⟨_, _, s, s', h, h', by decide,
    compile_sameWork_or_ends (FetchStream.comparable_empty _ _ _) h h' (by decide) (by decide)⟩

/-- **In other segments they need not.** At `0x101F` the block of the no-operation goes on with the
    halt; at `0x1001F` the instruction pointer wraps between the two. -/
theorem compile_not_sameWork :
    ∃ (mem : RemappedMemory) (cpu cpu' : Cpu) (b b' : Block) (s s' : FetchStream),
      compileBlock cpu mem {} (.ofCpu cpu .current false) {} = (.ok b, s) ∧
      compileBlock cpu' mem {} (.ofCpu cpu' .current false) {} = (.ok b', s') ∧
      b.isFor b'.physPc (.ofCpu cpu' .current false) (.ofCpu cpu') ∧
      b.secondPage? = none ∧ b'.secondPage? = none ∧ cpu.InRange ∧ cpu'.InRange ∧
      ¬ b.SameWork b' := by
  let nop : List Call :=
    [{ handler := .checkLimit, length := 1, offset := 0, p0 := 1 },
      { handler := .nop, length := 1, offset := 0 }]
  let halt : List Call :=
    [{ handler := .checkLimit, length := 1, offset := 1, p0 := 1 },
      { handler := .hlt, length := 1, offset := 1 }]
  let b : Block :=
    { physPc := 0x1F, pc := 0x1001F, flags := ⟨0⟩, checksLimit := true
      identity := ⟨0x20, 0xFFFF, 2, 0x9B⟩, size := 1, ranges := [⟨0x1F, 1⟩], calls := nop
      instructions := 1 }
  let b' : Block :=
    { b with
      pc := 0x101F, size := 2, ranges := [⟨0x1F, 2⟩], calls := nop ++ halt, instructions := 2 }
  have hcompile : (compileBlock (.realAt 0xFFFF) aliasedCode {}
      (.ofCpu (.realAt 0xFFFF) .current false) {}).1 = .ok b := by
    decide +kernel
  have hcompile' : (compileBlock (.realAt 0xFFF) aliasedCode {}
      (.ofCpu (.realAt 0xFFF) .current false) {}).1 = .ok b' := by
    decide +kernel
  obtain ⟨s, h⟩ := exists_stream hcompile
  obtain ⟨s', h'⟩ := exists_stream hcompile'
  refine ⟨aliasedCode, .realAt 0xFFFF, .realAt 0xFFF, b, b', s, s', h, h', by decide, rfl,
    rfl, ?_, ?_, fun hsame => absurd hsame.size (by decide)⟩
  · show (Cpu.realAt 0xFFFF).rip ≤ (Cpu.realAt 0xFFFF).ripMask
    decide
  · show (Cpu.realAt 0xFFF).rip ≤ (Cpu.realAt 0xFFF).ripMask
    decide

end X86Replay

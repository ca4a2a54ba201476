import X86Replay.Proofs.Turns
import X86Replay.Proofs.TwinWindows

/-!
# Epochs

A fetch window is used in the epoch it was made in only, so epochs have to tell where code pages are
mapped.

* `EpochsTell`: where epochs are the same, code pages are mapped alike.
* `Bumped.epochsTell`: they do as long as a new epoch begins whenever code pages are mapped
  elsewhere, and the counter has not come round.
* `FetchWindow.MadeAt.mapped`: then a window of the present epoch is where its page leads to.
* `FetchStream.present_resolve`, `FetchStream.present_compileBlock`: resolving and compiling leave a
  window of the current epoch.
-/

namespace X86Replay

variable {M : Type} [GuestMemory M]

/-! ## What epochs tell -/

/-- The processor and the memory at one point of time. -/
structure Moment (M : Type) where
  cpu : Cpu
  mem : M

/-- Where epochs are the same, code pages are mapped alike. -/
def EpochsTell (moments : List (Moment M)) : Prop :=
  ∀ x ∈ moments, ∀ y ∈ moments, x.cpu.epoch = y.cpu.epoch →
    mapForFetch x.mem = mapForFetch y.mem

theorem EpochsTell.mono {moments moments' : List (Moment M)} (h : EpochsTell moments')
    (hsub : moments ⊆ moments') : EpochsTell moments := fun x hx y hy => h x (hsub hx) y (hsub hy)

theorem EpochsTell.pair {x y : Moment M}
    (h : x.cpu.epoch = y.cpu.epoch → mapForFetch x.mem = mapForFetch y.mem) : EpochsTell [x, y] := by
  intro x' hx y' hy
  simp only [List.mem_cons, List.not_mem_nil, or_false] at hx hy
  obtain rfl | rfl := hx <;> obtain rfl | rfl := hy
  · exact fun _ => rfl
  · exact h
  · exact fun he => (h he.symm).symm
  · exact fun _ => rfl

/-- Moments, the latest first, over which the epoch has been moved on `n` times in all, and at least
    once whenever code pages have been mapped elsewhere. -/
inductive Bumped : Nat → List (Moment M) → Prop
  | first (now : Moment M) : Bumped 0 [now]
  | next {n : Nat} {now : Moment M} {past : List (Moment M)} (next : Moment M) (k : Nat) :
      next.cpu.epoch = now.cpu.epoch + k.toUInt64 →
      (mapForFetch next.mem ≠ mapForFetch now.mem → 0 < k) →
      Bumped n (now :: past) → Bumped (n + k) (next :: now :: past)

/-- How far the epoch is from that of an earlier moment. -/
theorem Bumped.exists_distance {n : Nat} {now : Moment M} {past : List (Moment M)}
    (h : Bumped n (now :: past)) {x : Moment M} (hx : x ∈ now :: past) :
    ∃ j ≤ n, now.cpu.epoch = x.cpu.epoch + j.toUInt64 ∧
      (j = 0 → mapForFetch now.mem = mapForFetch x.mem) := by
  generalize hl : now :: past = l at h hx
  induction h generalizing now past with
  | first now' =>
    cases hl
    rw [List.mem_singleton.1 hx]
    exact ⟨0, le_rfl, by simp, fun _ => rfl⟩
  | @next n now' past' latest k hepoch hmap _ ih =>
    cases hl
    obtain rfl | hx := List.mem_cons.1 hx
    · exact ⟨0, Nat.zero_le _, by simp, fun _ => rfl⟩
    · obtain ⟨j, hj, hdistance, hsame⟩ := ih rfl hx
      refine ⟨j + k, by omega, ?_, fun hzero => ?_⟩
      · rw [hepoch, hdistance, UInt64.add_assoc]
        congr 1
        simp
      · rw [← hsame (by omega)]
        by_contra hne
        have hpos := hmap hne
        omega

/-- **Epochs tell how code pages are mapped** as long as they have not come round. -/
theorem Bumped.epochsTell {n : Nat} {moments : List (Moment M)} (h : Bumped n moments)
    (hn : n < 2 ^ 64) : EpochsTell moments := by
  induction h with
  | first now =>
    intro x hx y hy _
    rw [List.mem_singleton.1 hx, List.mem_singleton.1 hy]
  | @next n now past latest k hepoch hmap hbumped ih =>
    have hsame (x : Moment M) (hx : x ∈ latest :: now :: past)
        (he : x.cpu.epoch = latest.cpu.epoch) : mapForFetch latest.mem = mapForFetch x.mem := by
      obtain ⟨j, hj, hdistance, hzero⟩ :=
        (Bumped.next latest k hepoch hmap hbumped).exists_distance hx
      apply hzero
      rw [he] at hdistance
      have hnat := congrArg UInt64.toNat hdistance
      have hjnat : j.toUInt64.toNat = j := UInt64.toNat_ofNat_of_lt' (by show j < 2 ^ 64; omega)
      rw [UInt64.toNat_add, hjnat] at hnat
      have htop := latest.cpu.epoch.toNat_lt
      omega
    intro x hx y hy he
    obtain rfl | hx' := List.mem_cons.1 hx
    · exact hsame y hy he.symm
    · obtain rfl | hy' := List.mem_cons.1 hy
      · exact (hsame x hx he).symm
      · exact ih (by omega) x hx' y hy' he

/-- The processor and the memory in a state of a run. -/
def RunState.moment {S : Type} (s : RunState M S) : Moment M :=
  ⟨s.cpu, s.mem⟩

/-! ## Fetch windows -/

/-- The window was made at one of the moments, on the page that its linear page led to then. -/
def FetchWindow.MadeAt (w : FetchWindow) (moments : List (Moment M)) : Prop :=
  ∃ x ∈ moments, x.cpu.epoch = w.epoch ∧ mapForFetch x.mem w.linear w.cpl = .ok w.physical

/-- **A window of the present epoch is where its page leads to now**, if epochs tell. -/
theorem FetchWindow.MadeAt.mapped {w : FetchWindow} {moments : List (Moment M)} {now : Moment M}
    (h : w.MadeAt moments) (hepochs : EpochsTell moments) (hnow : now ∈ moments)
    (hepoch : w.epoch = now.cpu.epoch) : mapForFetch now.mem w.linear w.cpl = .ok w.physical := by
  obtain ⟨x, hx, hmade, hmapped⟩ := h
  rwa [hepochs x hx now hnow (hmade.trans hepoch)] at hmapped

variable {cpu : Cpu} {mem : M} {s : FetchStream}

/-- The window of the stream, if there is one, was made in the epoch of the processor. -/
def FetchStream.Present (s : FetchStream) (cpu : Cpu) : Prop :=
  ∀ w, s.window = some w → w.epoch = cpu.epoch

namespace FetchStream

/-- Resolving leaves a window of the current epoch, whatever the window was before. -/
theorem present_resolve (s : FetchStream) (cpu : Cpu) (mem : M) (pc : UInt64) :
    (s.resolve cpu mem pc).2.Present cpu := by
  intro v hv
  unfold resolve at hv
  split at hv
  · rename_i w hw
    obtain ⟨hw, hcovers⟩ := Option.filter_eq_some_iff.1 hw
    rw [show s.window = some v from hv] at hw
    cases hw
    simp only [FetchWindow.covers, Bool.and_eq_true, beq_iff_eq] at hcovers
    exact hcovers.1.1.1
  · dsimp only at hv
    split at hv
    · cases hv
    · cases hv
      rfl

theorem kept_present (cpu : Cpu) (mem : M) :
    Kept cpu mem (fun _ => True) fun s => s.Present cpu where
  weaken _ _ := trivial
  resolve s pc _ := present_resolve s cpu mem pc
  copyBytes s pc limit hs := by
    refine forall_window_copyBytes hs (fun w w' n hw hload => ?_) pc limit
    rw [FetchWindow.samePage_of_loadTo hload]
    exact hw

/-- **Compiling leaves a window of the current epoch**, whatever the window was before. -/
theorem present_compileBlock (s : FetchStream) (cpu : Cpu) (mem : M) (flags : ModeFlags)
    (config : Config) : (compileBlock cpu mem s flags config).2.Present cpu :=
  (kept_present cpu mem).compileBlock trivial flags config

end FetchStream

end X86Replay

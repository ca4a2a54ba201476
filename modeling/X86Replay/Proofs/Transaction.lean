import X86Replay.Exec.Execute
import X86Replay.Proofs.Computation
import X86Replay.Proofs.Pages
import X86Replay.Proofs.SameMode
import Mathlib.Algebra.GroupWithZero.Nat

/-!
# Instructions as transactions

What executing an instruction may do to a machine, as a property of computations that composes.

* `Writes`: memory that has changed by a list of logged writes and by failed ones.
* `Exec.Transaction`: memory changes by logged writes only, the log is never looked at, and an
  exception leaves the processor as it was. What holds after success is a parameter.
* `Exec.Update`: the second half of an instruction, which changes the processor and cannot fail.
-/

namespace X86Replay

variable {M : Type}

/-! ## Updates -/

namespace Exec

variable {α β : Type} {f : Exec M α} {P Q : Cpu → α → Cpu → Prop}

/-- A computation that changes the processor only and cannot fail. -/
def Update (f : Exec M α) (Q : Cpu → α → Cpu → Prop) : Prop :=
  ∀ cpu, ∃ a cpu', Q cpu a cpu' ∧ ∀ mem log, f ⟨cpu, mem, log⟩ = (.ok a, ⟨cpu', mem, log⟩)

theorem Update.pure {a : α} (h : ∀ c, Q c a c) : Update (pure a : Exec M α) Q := fun cpu =>
  ⟨a, cpu, h cpu, fun _ _ => rfl⟩

theorem Update.modifyCpu (u : Cpu → Cpu) :
    Update (modifyCpu u : Exec M Unit) fun c _ c' => c' = u c := fun cpu =>
  ⟨(), u cpu, rfl, fun _ _ => rfl⟩

end Exec

variable [GuestMemory M]

/-! ## Writes -/

/-- Memory after writes, of which those that have landed are listed. A failed write may have changed
    memory as well. The length of a write is a word. -/
inductive Writes : M → List PhysSpan → M → Prop
  | nil (mem : M) : Writes mem [] mem
  | landed {mem mem₁ mem₂ : M} {s : PhysSpan} {spans : List PhysSpan} {data : List UInt8} :
      GuestMemory.write mem s.start data = (.ok (), mem₁) → data.length = s.length →
      s.length < 2 ^ 64 → Writes mem₁ spans mem₂ → Writes mem (s :: spans) mem₂
  | failed {mem mem₁ mem₂ : M} {start : UInt64} {e : Exception} {spans : List PhysSpan}
      {data : List UInt8} :
      GuestMemory.write mem start data = (.error e, mem₁) → Writes mem₁ spans mem₂ →
      Writes mem spans mem₂

theorem Writes.trans {mem₁ mem₂ mem₃ : M} {spans spans' : List PhysSpan}
    (h : Writes mem₁ spans mem₂) (h' : Writes mem₂ spans' mem₃) :
    Writes mem₁ (spans ++ spans') mem₃ := by
  induction h with
  | nil => exact h'
  | landed hwrite hlength hlt _ ih => exact .landed hwrite hlength hlt (ih h')
  | failed hwrite _ ih => exact .failed hwrite (ih h')

theorem Writes.length_lt {mem mem' : M} {spans : List PhysSpan} (h : Writes mem spans mem') :
    ∀ s ∈ spans, s.length < 2 ^ 64 := by
  induction h with
  | nil => exact fun _ hs => absurd hs List.not_mem_nil
  | landed _ _ hlt _ ih => exact List.forall_mem_cons.2 ⟨hlt, ih⟩
  | failed _ _ ih => exact ih

theorem push_append {α : Type} (log : Array α) (s : α) (new : List α) :
    log.push s ++ new = log ++ (s :: new) := by
  rw [← Array.toList_inj]
  simp

theorem append_append {α : Type} (log : Array α) (new new' : List α) :
    log ++ new ++ new' = log ++ (new ++ new') := by
  rw [← Array.toList_inj]
  simp

/-- Writing back touches memory by writes alone, whatever is in the log. -/
theorem commitSpans_spec (mem : M) (spans : List PhysSpan) (data : List UInt8)
    (h : data.length = (spans.map PhysSpan.length).sum) (hlt : ∀ s ∈ spans, s.length < 2 ^ 64) :
    ∃ result mem' new, Writes mem new mem' ∧
      ∀ log : Array PhysSpan, commitSpans mem log spans data = (result, mem', log ++ new) := by
  induction spans generalizing mem data with
  | nil => exact ⟨.ok (), mem, [], .nil mem, fun log => by simp [commitSpans]⟩
  | cons s spans ih =>
    rw [List.map_cons, List.sum_cons] at h
    rcases hwrite : GuestMemory.write mem s.start (data.take s.length) with ⟨e | u, mem₁⟩
    · refine ⟨.error e, mem₁, [], .failed hwrite (.nil mem₁), fun log => ?_⟩
      simp [commitSpans, hwrite]
    · obtain ⟨hfirst, hrest⟩ := List.forall_mem_cons.1 hlt
      obtain ⟨result, mem₂, new, hwrites, hlog⟩ := ih mem₁ (data.drop s.length) (by
        rw [List.length_drop]
        omega) hrest
      refine ⟨result, mem₂, s :: new, .landed hwrite ?_ hfirst hwrites, fun log => ?_⟩
      · rw [List.length_take]
        omega
      · rw [commitSpans, hwrite]
        dsimp only
        rw [hlog, push_append]

/-- An access that has been mapped is for what it was asked for. Its spans are those that its
    address leads to, and it has their bytes, all of which can be read. -/
theorem mapForAccess_ok {mem : M} {linear : UInt64} {n : Nat} {access : Access} {cpl : UInt8}
    {m : Mapping} (h : mapForAccess mem linear n access cpl = .ok m) :
    m.access = access ∧ mapSpans mem linear n access cpl = .ok (m.first, m.second) ∧
      ∃ parts : List (List UInt8), m.data = parts.flatten ∧
        m.spans.map (fun s => readBytes mem s.start s.length) = parts.map .ok := by
  unfold mapForAccess at h
  obtain ⟨⟨first, second⟩, hspans, h⟩ := except_bind_eq_ok.1 h
  obtain ⟨head, hhead, h⟩ := except_bind_eq_ok.1 h
  cases second with
  | none =>
    cases h
    refine ⟨rfl, hspans, [head], by simp, ?_⟩
    simp [Mapping.spans, hhead]
  | some s =>
    obtain ⟨tail, htail, h⟩ := except_bind_eq_ok.1 h
    cases h
    refine ⟨rfl, hspans, [head, tail], by simp, ?_⟩
    simp [Mapping.spans, hhead, htail]

/-- An access has the bytes that its spans have room for. -/
theorem length_mapForAccess {mem : M} {linear : UInt64} {n : Nat} {access : Access} {cpl : UInt8}
    {m : Mapping} (h : mapForAccess mem linear n access cpl = .ok m) :
    m.data.length = (m.spans.map PhysSpan.length).sum := by
  obtain ⟨-, -, parts, hdata, hreads⟩ := mapForAccess_ok h
  rw [hdata, List.length_flatten]
  congr 1
  clear hdata
  generalize m.spans = spans at hreads ⊢
  induction spans generalizing parts with
  | nil =>
    rw [List.map_nil, eq_comm, List.map_eq_nil_iff] at hreads
    rw [hreads]
    rfl
  | cons s spans ih =>
    obtain ⟨bytes, rest, rfl, hbytes, hrest⟩ := List.map_eq_cons_iff.1 hreads.symm
    rw [List.map_cons, List.map_cons, ih rest hrest.symm, length_readBytes hbytes.symm]

/-- No part of an access is longer than the access. -/
theorem length_le_of_mem_spans {mem : M} {linear : UInt64} {n : Nat} {access : Access} {cpl : UInt8}
    {m : Mapping} (h : mapForAccess mem linear n access cpl = .ok m) :
    ∀ s ∈ m.spans, s.length ≤ n := by
  obtain ⟨-, hspans, -⟩ := mapForAccess_ok h
  unfold mapSpans at hspans
  obtain ⟨first, -, hspans⟩ := except_bind_eq_ok.1 hspans
  unfold Mapping.spans
  dsimp only at hspans
  split_ifs at hspans with hroom
  · obtain ⟨second, -, hspans⟩ := except_bind_eq_ok.1 hspans
    obtain ⟨hfirst, hsecond⟩ := Prod.mk.inj (Except.ok.inj hspans)
    rw [← hfirst, ← hsecond]
    rintro s (_ | ⟨_, hs⟩)
    · exact Nat.le_of_lt hroom
    · rw [List.mem_singleton.1 hs]
      exact Nat.sub_le n _
  · obtain ⟨hfirst, hsecond⟩ := Prod.mk.inj (Except.ok.inj hspans)
    rw [← hfirst, ← hsecond]
    rintro s (_ | ⟨_, hs⟩)
    · exact Nat.le_refl n
    · exact absurd hs List.not_mem_nil

/-- The parts of an operand are short. -/
theorem length_lt_of_mem_spans {mem : M} {linear : UInt64} {size : OperandSize} {access : Access}
    {cpl : UInt8} {m : Mapping} (h : mapForAccess mem linear size.bytes access cpl = .ok m) :
    ∀ s ∈ m.spans, s.length < 2 ^ 64 := by
  intro s hs
  have hle := length_le_of_mem_spans h s hs
  have hsize : size.bytes ≤ 8 := by cases size <;> decide
  omega

/-- Writing an access back touches memory by writes alone. -/
theorem commit_spec (mem : M) (m : Mapping)
    (h : m.data.length = (m.spans.map PhysSpan.length).sum) (hlt : ∀ s ∈ m.spans, s.length < 2 ^ 64) :
    ∃ result mem' new, Writes mem new mem' ∧
      ∀ log : Array PhysSpan, m.commit mem log = (result, mem', log ++ new) := by
  unfold Mapping.commit
  by_cases haccess : m.access = .write
  · obtain ⟨result, mem', new, hwrites, hcommit⟩ := commitSpans_spec mem m.spans m.data h hlt
    refine ⟨result, mem', new, hwrites, fun log => ?_⟩
    rw [if_pos haccess, hcommit]
  · refine ⟨.ok (), mem, [], .nil mem, fun log => ?_⟩
    rw [if_neg haccess]
    simp

theorem length_overwrite (m : Mapping) (bytes : List UInt8) :
    (m.overwrite bytes).data.length = m.data.length := by
  simp only [Mapping.overwrite, List.length_append, List.length_take, List.length_drop]
  omega

/-! ## Transactions -/

namespace Exec

variable {α β : Type} {f : Exec M α} {P Q : Cpu → α → Cpu → Prop}

/-- A computation that changes memory by logged writes only, does not look at the log, and leaves
    the processor as it was when it raises an exception. The processor before, the answer and the
    processor after it satisfy `Q` otherwise. -/
structure Transaction (f : Exec M α) (Q : Cpu → α → Cpu → Prop) : Prop where
  writes : ∀ cpu mem, ∃ r cpu' mem' new, Writes mem new mem' ∧
    ∀ log : Array PhysSpan, f ⟨cpu, mem, log⟩ = (r, ⟨cpu', mem', log ++ new⟩)
  fault : ∀ {m m' e}, f m = (.error e, m') → m'.cpu = m.cpu
  post : ∀ {m m' a}, f m = (.ok a, m') → Q m.cpu a m'.cpu

/-- A computation that leaves the processor alone. -/
def Query (f : Exec M α) : Prop :=
  Transaction f fun c _ c' => c' = c

theorem Transaction.weaken (hf : Transaction f P) (h : ∀ c a c', P c a c' → Q c a c') :
    Transaction f Q :=
  ⟨hf.writes, hf.fault, fun hok => h _ _ _ (hf.post hok)⟩

theorem Update.transaction (hf : Update f Q) : Transaction f Q where
  writes cpu mem := by
    obtain ⟨a, cpu', -, hf⟩ := hf cpu
    exact ⟨.ok a, cpu', mem, [], .nil mem, fun log => by rw [hf]; simp⟩
  fault {m _ _} h := by
    obtain ⟨a, cpu', -, hf⟩ := hf m.cpu
    rw [show m = ⟨m.cpu, m.mem, m.log⟩ from rfl, hf] at h
    cases h
  post {m _ _} h := by
    obtain ⟨a, cpu', hQ, hf⟩ := hf m.cpu
    rw [show m = ⟨m.cpu, m.mem, m.log⟩ from rfl, hf] at h
    cases h
    exact hQ

theorem Transaction.throw (e : Exception) : Transaction (throw e : Exec M α) Q where
  writes cpu mem := ⟨.error e, cpu, mem, [], .nil mem, fun log => by rw [throw_apply]; simp⟩
  fault h := by cases h; rfl
  post h := by cases h

theorem Transaction.throw_bind (e : Exception) (g : α → Exec M β) {R : Cpu → β → Cpu → Prop} :
    Transaction ((MonadExcept.throw e : Exec M α) >>= g) R :=
  Transaction.throw e

/-- Two computations of which the second cannot start unless the first has succeeded. -/
theorem Transaction.bind_writes {g : α → Exec M β} {R : α → Cpu → β → Cpu → Prop}
    (hf : Transaction f P) (hg : ∀ a, Transaction (g a) (R a)) (cpu : Cpu) (mem : M) :
    ∃ r cpu' mem' new, Writes mem new mem' ∧
      ∀ log : Array PhysSpan, (f >>= g) ⟨cpu, mem, log⟩ = (r, ⟨cpu', mem', log ++ new⟩) := by
  obtain ⟨r, cpu₁, mem₁, new₁, hwrites₁, hf'⟩ := hf.writes cpu mem
  cases r with
  | error e =>
    refine ⟨.error e, cpu₁, mem₁, new₁, hwrites₁, fun log => ?_⟩
    rw [bind_apply, hf']
  | ok a =>
    obtain ⟨r, cpu₂, mem₂, new₂, hwrites₂, hg'⟩ := (hg a).writes cpu₁ mem₁
    refine ⟨r, cpu₂, mem₂, new₁ ++ new₂, hwrites₁.trans hwrites₂, fun log => ?_⟩
    rw [bind_apply, hf']
    dsimp only
    rw [hg', append_append]

/-- **First the queries.** A query goes before any transaction. -/
theorem Transaction.after {g : α → Exec M β} {A : Cpu → α → Prop} {R : Cpu → β → Cpu → Prop}
    (hf : Transaction f fun c a c' => c' = c ∧ A c a)
    (hg : ∀ a, Transaction (g a) fun c b c' => A c a → R c b c') : Transaction (f >>= g) R where
  writes := hf.bind_writes hg
  fault h := by
    obtain h | ⟨a, m₁, ha, hb⟩ := bind_error.1 h
    · exact hf.fault h
    · rw [(hg a).fault hb, (hf.post ha).1]
  post h := by
    obtain ⟨a, m₁, ha, hb⟩ := bind_ok.1 h
    obtain ⟨hcpu, hA⟩ := hf.post ha
    have hR := (hg a).post hb
    rw [hcpu] at hR
    exact hR hA

/-- **Then the updates.** After a transaction the processor can be changed as long as nothing can
    fail any more. -/
theorem Transaction.then {g : α → Exec M β} {R : α → Cpu → β → Cpu → Prop}
    {S : Cpu → β → Cpu → Prop} (hf : Transaction f P) (hg : ∀ a, Update (g a) (R a))
    (h : ∀ c a c₁ b c₂, P c a c₁ → R a c₁ b c₂ → S c b c₂) : Transaction (f >>= g) S where
  writes := hf.bind_writes fun a => (hg a).transaction
  fault h := by
    obtain h | ⟨a, m₁, ha, hb⟩ := bind_error.1 h
    · exact hf.fault h
    · obtain ⟨_, _, -, hg'⟩ := hg a m₁.cpu
      rw [show m₁ = ⟨m₁.cpu, m₁.mem, m₁.log⟩ from rfl, hg'] at hb
      cases hb
  post h' := by
    obtain ⟨a, m₁, ha, hb⟩ := bind_ok.1 h'
    exact h _ a _ _ _ (hf.post ha) ((hg a).transaction.post hb)

theorem Query.bind {g : α → Exec M β} {R : Cpu → β → Cpu → Prop} (hf : Query f)
    (hg : ∀ a, Transaction (g a) R) : Transaction (f >>= g) R :=
  (hf.weaken fun _ _ _ h => ⟨h, trivial⟩).after (A := fun _ _ => True) fun a =>
    (hg a).weaken fun _ _ _ h _ => h

/-! ## Queries -/

/-- A computation that only writes memory is a query. -/
theorem query_of_writes (h : ∀ cpu mem, ∃ r mem' new, Writes mem new mem' ∧
    ∀ log : Array PhysSpan, f ⟨cpu, mem, log⟩ = (r, ⟨cpu, mem', log ++ new⟩)) : Query f where
  writes cpu mem := by
    obtain ⟨r, mem', new, hwrites, hf⟩ := h cpu mem
    exact ⟨r, cpu, mem', new, hwrites, hf⟩
  fault {m _ _} hm := by
    obtain ⟨r, mem', new, -, hf⟩ := h m.cpu m.mem
    rw [show m = ⟨m.cpu, m.mem, m.log⟩ from rfl, hf] at hm
    cases hm
    rfl
  post {m _ _} hm := by
    obtain ⟨r, mem', new, -, hf⟩ := h m.cpu m.mem
    rw [show m = ⟨m.cpu, m.mem, m.log⟩ from rfl, hf] at hm
    cases hm
    rfl

theorem query_pure (a : α) : Query (pure a : Exec M α) :=
  (Update.pure fun _ => rfl).transaction

theorem transaction_cpu : Transaction (cpu : Exec M Cpu) fun c a c' => c' = c ∧ a = c :=
  Update.transaction fun cpu => ⟨cpu, cpu, ⟨rfl, rfl⟩, fun _ _ => rfl⟩

theorem query_cpu : Query (cpu : Exec M Cpu) :=
  transaction_cpu.weaken fun _ _ _ h => h.1

/-- A check that does not look at the log. -/
theorem query_check {f : Machine M → Except Exception α}
    (hf : ∀ cpu mem log, f ⟨cpu, mem, log⟩ = f ⟨cpu, mem, #[]⟩) : Query (check f) :=
  query_of_writes fun cpu mem => ⟨f ⟨cpu, mem, #[]⟩, mem, [], .nil mem, fun log => by
    rw [check_apply, hf]
    simp⟩

theorem query_require (p : Cpu → Bool) : Query (require p : Exec M Unit) :=
  query_check fun _ _ _ => rfl

theorem transaction_withFlags (g : UInt64 → UInt64 × UInt64) :
    Transaction (withFlags g : Exec M (UInt64 × UInt64))
      fun c a c' => c' = c ∧ a = g c.rflags :=
  Update.transaction fun cpu => ⟨g cpu.rflags, cpu, ⟨rfl, rfl⟩, fun _ _ => rfl⟩

/-! ## Memory -/

theorem query_readMem (s : SegmentName) (offset : UInt64) (size : OperandSize) :
    Query (readMem s offset size : Exec M UInt64) :=
  query_check fun _ _ _ => rfl

/-- A store fails before it writes anything, or commits an access, with the value put into it. -/
theorem writeMem_stages (cpu : Cpu) (mem : M) (s : SegmentName) (offset : UInt64)
    (size : OperandSize) (v : UInt64) :
    (∃ e, ∀ log, writeMem s offset size v ⟨cpu, mem, log⟩ = (.error e, ⟨cpu, mem, log⟩)) ∨
      ∃ linear m, cpu.linearAddress s offset size.step true = .ok linear ∧
        mapForAccess mem linear size.bytes .write cpu.cpl = .ok m ∧
        ∀ log r mem' log', (m.setWord v).commit mem log = (r, mem', log') →
          writeMem s offset size v ⟨cpu, mem, log⟩ = (r, ⟨cpu, mem', log'⟩) := by
  unfold writeMem
  dsimp only
  cases hlinear : cpu.linearAddress s offset size.step true with
  | error e => exact .inl ⟨e, fun log => by simp [bind, Except.bind]⟩
  | ok linear =>
    cases hmap : mapForAccess mem linear size.bytes .write cpu.cpl with
    | error e => exact .inl ⟨e, fun log => by simp [bind, Except.bind, hmap]⟩
    | ok m =>
      refine .inr ⟨linear, m, rfl, hmap, fun log r mem' log' hcommit => ?_⟩
      simp only [bind, Except.bind, hmap, hcommit]

theorem query_writeMem (s : SegmentName) (offset : UInt64) (size : OperandSize) (v : UInt64) :
    Query (writeMem s offset size v : Exec M Unit) := by
  refine query_of_writes fun cpu mem => ?_
  obtain ⟨e, hfault⟩ | ⟨linear, m, -, hmap, hstore⟩ := writeMem_stages cpu mem s offset size v
  · exact ⟨.error e, mem, [], .nil mem, fun log => by simp [hfault]⟩
  · have hlength := length_mapForAccess hmap
    rw [← length_overwrite m (bytesOfWord 8 v)] at hlength
    have hlt := length_lt_of_mem_spans hmap
    obtain ⟨r, mem', new, hwrites, hcommit⟩ := commit_spec mem (m.setWord v) hlength hlt
    exact ⟨r, mem', new, hwrites, fun log => hstore log _ _ _ (hcommit log)⟩

end Exec

end X86Replay

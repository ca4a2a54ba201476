import X86Replay.Proofs.Compiling
import X86Replay.Proofs.Packing
import Mathlib.Algebra.GroupWithZero.Nat

/-!
# What a block records of its code

* `CompileContext.listing`: the calls of a chain of encodings.
* `CompileContext.Makes`: a block with all that is known of where it comes from.
* `Chain.covers_iff`: the ranges of a block are exactly the bytes that its encodings take.
* `Reads.congr`: two memories that agree on those bytes show the same encoding, if the bytes taken
  decide what it is.
-/

namespace X86Replay

variable {M : Type} [GuestMemory M]

theorem toNat_toUInt8 {n : Nat} (h : n ≤ maxInstructionLength) : n.toUInt8.toNat = n :=
  UInt8.toNat_ofNat_of_lt' (by unfold maxInstructionLength at h; show _ < 2 ^ 8; omega)

theorem toNat_toUInt32 {n : Nat} (h : n ≤ maxInstructionLength) : n.toUInt32.toNat = n :=
  UInt32.toNat_ofNat_of_lt' (by unfold maxInstructionLength at h; show _ < 2 ^ 32; omega)

theorem toNat_toUInt16 {n : Nat} (h : n < 2 ^ 16) : n.toUInt16.toNat = n :=
  UInt16.toNat_ofNat_of_lt' h

/-- Two memories do not show different bytes at a physical address. -/
def AgreeAt (mem mem' : M) (a : Nat) : Prop :=
  ∀ b b', ReadsByte mem a b → ReadsByte mem' a b' → b = b'

/-- Bytes of two memories that agree. -/
theorem take_eq_of_agree {mem mem' : M} {a n : Nat} {bytes bytes' : List UInt8}
    (h : HoldsBytes mem a bytes) (h' : HoldsBytes mem' a bytes')
    (hlength : bytes'.length = bytes.length) (hagree : ∀ j < n, AgreeAt mem mem' (a + j)) :
    bytes'.take n = bytes.take n := by
  refine List.ext_getElem? fun j => ?_
  rw [List.getElem?_take, List.getElem?_take]
  split_ifs with hj
  · by_cases hlt : j < bytes.length
    · have hb := List.getElem?_eq_getElem hlt
      have hb' := List.getElem?_eq_getElem (hlength.symm ▸ hlt)
      rw [hb, hb', hagree j hj _ _ (h j _ hb) (h' j _ hb')]
    · rw [List.getElem?_eq_none (by omega), List.getElem?_eq_none (by omega)]
  · rfl

/-- The number of bytes that encodings take. -/
def codeSize (es : List Encoding) : Nat :=
  (es.map Encoding.length).sum

theorem codeSize_cons (e : Encoding) (es : List Encoding) :
    codeSize (e :: es) = e.length + codeSize es :=
  List.sum_cons

theorem Encoding.tail_of_near {e : Encoding} (h : e.crossing = none) : e.tail? = none := by
  unfold tail?
  rw [h]
  rfl

/-- An encoding that needs the next page has a part there if its length is known. -/
theorem Encoding.tail_of_crossing {e : Encoding} {next : UInt64} {n : Nat}
    (h : e.crossing = some (next, n)) :
    e.tail? = e.knownLength.map fun k => ⟨next, (k - n).toUInt32⟩ := by
  unfold tail?
  rw [h]
  cases e.knownLength <;> rfl

theorem Encoding.length_of_known {e : Encoding} {k : Nat} (h : e.knownLength = some k) :
    e.length = k := by
  rw [length, h, Option.getD_some]

theorem Encoding.length_of_unknown {e : Encoding} (h : e.knownLength = none) : e.length = 1 := by
  rw [length, h, Option.getD_none]

/-- The raw bytes of a deferred call. -/
def Call.raw (call : Call) : List UInt8 :=
  (unpackBytes call.p0 call.p1).take call.p2.toNat

theorem raw_deferredCall {bytes : List UInt8} (h : bytes.length ≤ maxInstructionLength) (o : Nat) :
    (deferredCall bytes o).raw = bytes :=
  unpackBytes_deferredCall h o

namespace Encoding

variable {e : Encoding} {width : CodeWidth}

theorem offset_toCall (e : Encoding) (o : Nat) : (e.toCall o).offset = o.toUInt16 := by
  unfold toCall
  split
  · unfold Instruction.toCall
    split <;> rfl
  · rfl

theorem length_toCall (h : e.decoded = decode width e.bytes) (hbytes : e.length ≤ e.bytes.length)
    (o : Nat) : (e.toCall o).length = e.length.toUInt8 := by
  have htake : (e.bytes.take e.length).length = e.length := by
    rw [List.length_take, Nat.min_eq_left hbytes]
  have hdeferred : (deferredCall (e.bytes.take e.length) o).length = e.length.toUInt8 := by
    show (e.bytes.take e.length).length.toUInt8 = _
    rw [htake]
  unfold toCall
  split
  · rename_i i hi
    unfold Instruction.toCall
    split
    · show i.length = _
      rw [length_ok hi, ← UInt8.toNat_inj, toNat_toUInt8 (length_bounds (h.symm.trans hi)).2.1]
    · exact hdeferred
  · exact hdeferred

/-- The call of an encoding that cannot be decoded has kept the bytes taken. -/
theorem toCall_error {x : DecodeError} (h : e.decoded = decode width e.bytes)
    (hx : e.decoded = .error x) (o : Nat) :
    (e.toCall o).handler = .deferred ∧ (e.toCall o).raw = e.bytes.take e.length := by
  have hcall : e.toCall o = deferredCall (e.bytes.take e.length) o := by
    unfold toCall
    rw [hx]
  rw [hcall, raw_deferredCall]
  · exact ⟨rfl, rfl⟩
  · rw [List.length_take]
    exact (Nat.min_le_left _ _).trans (length_le h)

end Encoding

/-- The ranges of a draft. -/
def Draft.ranges (d : Draft) : List CodeRange :=
  d.first :: d.second.toList

namespace CompileContext

variable {c : CompileContext} {mem mem' : M} {page : UInt64} {o : Nat} {e e' : Encoding}
  {es : List Encoding} {d : Draft}

/-! ## Calls -/

/-- The check of the code limit for an encoding. -/
def limitCheck (o : Nat) (e : Encoding) : Call where
  handler := .checkLimit
  length := e.length.toUInt8
  offset := o.toUInt16
  p0 := e.length.toUInt64

/-- The calls of an encoding at an offset of the block. -/
def callsOf (c : CompileContext) (o : Nat) (e : Encoding) : List Call :=
  if c.flags.needsLimitChecks then [limitCheck o e, e.toCall o] else [e.toCall o]

/-- The calls of encodings that follow each other from an offset on. -/
def listing (c : CompileContext) : Nat → List Encoding → List Call
  | _, [] => []
  | o, e :: es => c.callsOf o e ++ listing c (o + e.length) es

theorem mem_callsOf (c : CompileContext) (o : Nat) (e : Encoding) : e.toCall o ∈ c.callsOf o e := by
  unfold callsOf
  split_ifs
  · exact List.mem_cons_of_mem _ (List.mem_singleton_self _)
  · exact List.mem_singleton_self _

theorem toList_calls_append (c : CompileContext) (d : Draft) (e : Encoding) :
    (c.append d e).calls.toList = d.calls.toList ++ c.callsOf d.size e := by
  unfold append callsOf limitCheck
  dsimp only
  split_ifs
  · simp
  · simp

theorem toList_calls_foldl (c : CompileContext) (d : Draft) (es : List Encoding) :
    (es.foldl c.append d).calls.toList = d.calls.toList ++ c.listing d.size es := by
  induction es generalizing d with
  | nil => rw [List.foldl_nil, listing, List.append_nil]
  | cons e es ih =>
    rw [List.foldl_cons, ih, toList_calls_append, listing, List.append_assoc]
    rfl

theorem mem_listing {e : Encoding} {es : List Encoding} (he : e ∈ es) (o : Nat) :
    ∃ o', e.toCall o' ∈ c.listing o es := by
  induction es generalizing o with
  | nil => cases he
  | cons e' es ih =>
    obtain rfl | he := List.mem_cons.1 he
    · exact ⟨o, List.mem_append_left _ (c.mem_callsOf o e)⟩
    · obtain ⟨o', h⟩ := ih he (o + e'.length)
      exact ⟨o', List.mem_append_right _ h⟩

theorem Sequence.decoded (h : c.Sequence o es) :
    ∀ e ∈ es, e.decoded = decode c.width e.bytes := by
  induction es generalizing o with
  | nil => exact fun _ he => absurd he List.not_mem_nil
  | cons e es ih =>
    rintro e' (_ | ⟨_, he'⟩)
    · exact h.2.1.decoded
    · exact ih h.2.2.2 e' he'

/-- An encoding that cannot be decoded is deferred with the bytes that it takes. -/
theorem Chain.exists_deferred {x : DecodeError} (h : c.Chain mem page o es) (he : e ∈ es)
    (hx : e.decoded = .error x) :
    ∃ call ∈ c.listing o es, call.handler = .deferred ∧ call.raw = e.bytes.take e.length := by
  obtain ⟨o', hcall⟩ := mem_listing (c := c) he o
  exact ⟨_, hcall, Encoding.toCall_error (h.sequence.decoded e he) hx o'⟩

/-- The calls of an encoding stand at its offset and have its length. -/
theorem ShapedAt.of_mem_callsOf (h : c.ShapedAt o e) (ho : c.place o < 4096) {call : Call}
    (hcall : call ∈ c.callsOf o e) :
    call.offset.toNat = o ∧ call.length.toNat = e.length := by
  have hoffset : o.toUInt16.toNat = o := toNat_toUInt16 (by unfold place at ho; omega)
  have hlength := toNat_toUInt8 (Encoding.length_le h.decoded)
  have htoCall : (e.toCall o).offset.toNat = o ∧ (e.toCall o).length.toNat = e.length := by
    rw [Encoding.offset_toCall, Encoding.length_toCall h.decoded (h.length_le_bytes ho)]
    exact ⟨hoffset, hlength⟩
  unfold callsOf at hcall
  split_ifs at hcall
  · obtain rfl | hcall := List.mem_cons.1 hcall
    · exact ⟨hoffset, hlength⟩
    · rwa [List.mem_singleton.1 hcall]
  · rwa [List.mem_singleton.1 hcall]

/-! ## Ranges -/

theorem Sequence.crossing_of_pos (h : c.Sequence o es) (ho : 0 < o) :
    ∀ e ∈ es, e.crossing = none := by
  induction es generalizing o with
  | nil => exact fun _ he => absurd he List.not_mem_nil
  | cons e es ih =>
    obtain ⟨-, he, -, hes⟩ := h
    rintro e' (_ | ⟨_, he'⟩)
    · exact he.crossing_of_pos ho
    · exact ih hes (Nat.add_pos_left ho _) e' he'

/-- Either no encoding reaches the next page, or there is no other one. -/
theorem Sequence.crossing_cases (h : c.Sequence 0 (e :: es)) :
    (∀ e' ∈ e :: es, e'.crossing = none) ∨ es = [] := by
  obtain ⟨-, he, hgoes, hes⟩ := h
  by_cases hnil : es = []
  · exact .inr hnil
  · refine .inl ?_
    rintro e' (_ | ⟨_, he'⟩)
    · exact (hgoes hnil).crossing
    · refine hes.crossing_of_pos ?_ e' he'
      rw [Nat.zero_add]
      exact Encoding.length_pos he.decoded

/-- Encodings end less than fifteen bytes behind the page end. -/
theorem Sequence.size_lt (h : c.Sequence o es) (ho : c.place o < 4096) :
    c.place o + codeSize es < 4096 + maxInstructionLength := by
  induction es generalizing o with
  | nil =>
    show c.place o + 0 < _
    unfold maxInstructionLength
    omega
  | cons e es ih =>
    obtain ⟨-, he, -, hes⟩ := h
    have hle := Encoding.length_le he.decoded
    rw [codeSize_cons]
    cases es with
    | nil =>
      show c.place o + (e.length + 0) < _
      omega
    | cons e' es =>
      have hstart := hes.1
      have hsize := ih hes hstart
      unfold place at hsize hstart ⊢
      omega

/-- Encodings on the first page end on it. -/
theorem Sequence.place_le (h : c.Sequence o es) (ho : c.place o ≤ 4096)
    (hes : ∀ e ∈ es, e.crossing = none) : c.place o + codeSize es ≤ 4096 := by
  induction es generalizing o with
  | nil => exact ho
  | cons e es ih =>
    obtain ⟨hstart, he, -, hrest⟩ := h
    have hlength := he.length_le_bytes hstart
    have hcrossing := hes e List.mem_cons_self
    have hplace : c.place (o + e.length) = c.place o + e.length := (Nat.add_assoc _ _ _).symm
    have hroom : e.bytes.length ≤ 4096 - c.place o := by
      cases he with
      | near hbytes => exact hbytes.trans_le (Nat.min_le_left _ _)
      | far => cases hcrossing
    have hlater := ih hrest (by omega) fun e' he' => hes e' (List.mem_cons_of_mem _ he')
    rw [codeSize_cons]
    omega

theorem start_foldl (c : CompileContext) (d : Draft) (es : List Encoding) :
    (es.foldl c.append d).first.start = d.first.start := by
  induction es generalizing d with
  | nil => rfl
  | cons e es ih => exact ih (c.append d e)

/-- Encodings on the first page are added to the first range. -/
theorem length_foldl (hes : ∀ e ∈ es, e.crossing = none)
    (hsize : d.first.length.toNat + codeSize es < 2 ^ 32) :
    (es.foldl c.append d).first.length.toNat = d.first.length.toNat + codeSize es := by
  induction es generalizing d with
  | nil => rfl
  | cons e es ih =>
    rw [codeSize_cons] at hsize
    have htail : e.tail? = none := Encoding.tail_of_near (hes e List.mem_cons_self)
    have hlength : (c.append d e).first.length.toNat = d.first.length.toNat + e.length := by
      have hnat : e.length.toUInt32.toNat = e.length :=
        UInt32.toNat_ofNat_of_lt' (by show _ < 2 ^ 32; omega)
      show (d.first.length + (e.length.toUInt32 - e.tail?.elim 0 CodeRange.length)).toNat = _
      rw [htail, Option.elim_none, UInt32.sub_zero, UInt32.toNat_add, hnat]
      omega
    rw [List.foldl_cons, ih (fun e' he' => hes e' (List.mem_cons_of_mem _ he')) (by omega), hlength,
      codeSize_cons, Nat.add_assoc]

/-- No encoding on the first page opens a second range. -/
theorem second_foldl (hes : ∀ e ∈ es, e.crossing = none) (hd : d.second = none) :
    (es.foldl c.append d).second = none := by
  induction es generalizing d with
  | nil => exact hd
  | cons e es ih =>
    refine ih (fun e' he' => hes e' (List.mem_cons_of_mem _ he')) ?_
    exact Encoding.tail_of_near (hes e List.mem_cons_self)

/-- The addresses of the bytes that encodings take from an offset on. -/
def Takes (c : CompileContext) (page : UInt64) : Nat → List Encoding → Nat → Prop
  | _, [], _ => False
  | o, e :: es, a =>
    (∃ j < e.length, a = e.address (page.toNat + c.place o) j) ∨ Takes c page (o + e.length) es a

/-- Encodings on the first page take adjacent bytes. -/
theorem takes_near (hes : ∀ e ∈ es, e.crossing = none) (a : Nat) :
    c.Takes page o es a ↔
      page.toNat + c.place o ≤ a ∧ a < page.toNat + c.place o + codeSize es := by
  induction es generalizing o with
  | nil =>
    have hempty : codeSize [] = 0 := rfl
    rw [Takes, hempty, false_iff]
    omega
  | cons e es ih =>
    have haddress (j : Nat) :
        e.address (page.toNat + c.place o) j = page.toNat + c.place o + j := by
      unfold Encoding.address
      rw [hes e List.mem_cons_self]
    have hplace : c.place (o + e.length) = c.place o + e.length := (Nat.add_assoc _ _ _).symm
    rw [Takes, ih fun e' he' => hes e' (List.mem_cons_of_mem _ he'), codeSize_cons, hplace]
    simp only [haddress]
    constructor
    · rintro (⟨j, hj, rfl⟩ | h) <;> omega
    · intro h
      by_cases hlt : a < page.toNat + c.place o + e.length
      · exact .inl ⟨a - (page.toNat + c.place o), by omega⟩
      · exact .inr (by omega)

theorem ranges_single (c : CompileContext) (physPc : UInt64) (e : Encoding) :
    (c.append (emptyDraft physPc) e).ranges =
      ⟨physPc, e.length.toUInt32 - e.tail?.elim 0 CodeRange.length⟩ :: e.tail?.toList := by
  have hranges : (c.append (emptyDraft physPc) e).ranges =
      ⟨physPc, 0 + (e.length.toUInt32 - e.tail?.elim 0 CodeRange.length)⟩ :: e.tail?.toList := rfl
  rw [hranges, UInt32.zero_add]

/-- Without a second range the first one has all bytes of the encoding. -/
theorem covers_whole {physPc : UInt64} (he : e.length ≤ maxInstructionLength)
    (htail : e.tail? = none)
    (haddress : ∀ j < e.length, e.address physPc.toNat j = physPc.toNat + j) (a : Nat) :
    (∃ r ∈ (c.append (emptyDraft physPc) e).ranges, r.Covers a) ↔
      ∃ j < e.length, a = e.address physPc.toNat j := by
  simp only [ranges_single, htail, Option.elim_none, UInt32.sub_zero, Option.toList_none,
    List.mem_singleton, exists_eq_left, CodeRange.Covers, toNat_toUInt32 he]
  constructor
  · intro h
    refine ⟨a - physPc.toNat, by omega, ?_⟩
    rw [haddress _ (by omega)]
    omega
  · rintro ⟨j, hj, rfl⟩
    rw [haddress j hj]
    omega

/-- The bytes that an encoding has before those on the next page. -/
theorem toNat_sub_tail {l n : Nat} (hl : l ≤ maxInstructionLength) :
    (l.toUInt32 - (l - n).toUInt32).toNat = l - (l - n) := by
  have hlength := toNat_toUInt32 hl
  have hrest := toNat_toUInt32 (n := l - n) (by omega)
  have hle : (l - n).toUInt32 ≤ l.toUInt32 := by
    rw [UInt32.le_iff_toNat_le]
    omega
  rw [UInt32.toNat_sub_of_le _ _ hle, hlength, hrest]

/-- With a second range the bytes of the encoding are split at the end of the page. -/
theorem covers_split {physPc next : UInt64} {n : Nat} (he : e.length ≤ maxInstructionLength)
    (htail : e.tail? = some ⟨next, (e.length - n).toUInt32⟩)
    (haddress : ∀ j, e.address physPc.toNat j =
      if j < n then physPc.toNat + j else next.toNat + (j - n)) (a : Nat) :
    (∃ r ∈ (c.append (emptyDraft physPc) e).ranges, r.Covers a) ↔
      ∃ j < e.length, a = e.address physPc.toNat j := by
  have hrest := toNat_toUInt32 (n := e.length - n) (by omega)
  have hfirst := toNat_sub_tail (n := n) he
  simp only [ranges_single, htail, Option.elim_some, Option.toList_some, List.mem_cons,
    List.not_mem_nil, or_false, exists_eq_or_imp, exists_eq_left, CodeRange.Covers, hfirst, hrest,
    haddress]
  constructor
  · rintro (h | h)
    · exact ⟨a - physPc.toNat, by omega, by rw [if_pos (by omega)]; omega⟩
    · exact ⟨n + (a - next.toNat), by omega, by rw [if_neg (by omega)]; omega⟩
  · rintro ⟨j, hj, rfl⟩
    split_ifs with hjn
    · exact .inl (by omega)
    · exact .inr (by omega)

/-- The ranges after a single encoding are its bytes. -/
theorem covers_single {physPc : UInt64} (he : e.length ≤ maxInstructionLength)
    (hnear : ∀ next n, e.crossing = some (next, n) → 0 < n) (a : Nat) :
    (∃ r ∈ (c.append (emptyDraft physPc) e).ranges, r.Covers a) ↔
      ∃ j < e.length, a = e.address physPc.toNat j := by
  cases hcrossing : e.crossing with
  | none =>
    refine covers_whole he (Encoding.tail_of_near hcrossing) (fun j _ => ?_) a
    unfold Encoding.address
    rw [hcrossing]
  | some crossing =>
    obtain ⟨next, n⟩ := crossing
    have haddress (j : Nat) : e.address physPc.toNat j =
        if j < n then physPc.toNat + j else next.toNat + (j - n) := by
      unfold Encoding.address
      rw [hcrossing]
    have htail := Encoding.tail_of_crossing hcrossing
    cases hknown : e.knownLength with
    | none =>
      rw [hknown, Option.map_none] at htail
      refine covers_whole he htail (fun j hj => ?_) a
      have hlast := Encoding.length_of_unknown hknown
      have := hnear next n hcrossing
      rw [haddress, if_pos (by omega)]
    | some k =>
      rw [hknown, Option.map_some, ← Encoding.length_of_known hknown] at htail
      exact covers_split he htail haddress a

/-- **The ranges of a block are exactly the bytes that its encodings take.** -/
theorem Chain.covers_iff {physPc : UInt64} (h : c.Chain mem page 0 (e :: es))
    (hphysPc : physPc.toNat = page.toNat + c.place 0) (a : Nat) :
    (∃ r ∈ ((e :: es).foldl c.append (emptyDraft physPc)).ranges, r.Covers a) ↔
      c.Takes page 0 (e :: es) a := by
  have hplace := h.1.1
  obtain hes | rfl := h.sequence.crossing_cases
  · have hsize := h.sequence.size_lt hplace
    unfold maxInstructionLength at hsize
    have hzero : (emptyDraft physPc).first.length.toNat = 0 := rfl
    have hlength := length_foldl (c := c) (d := emptyDraft physPc) hes (by omega)
    have hstart' : ((e :: es).foldl c.append (emptyDraft physPc)).first.start = physPc :=
      c.start_foldl _ _
    rw [Draft.ranges, second_foldl hes rfl, takes_near hes]
    simp only [Option.toList_none, List.mem_singleton, exists_eq_left, CodeRange.Covers, hstart',
      hlength, hzero, hphysPc]
    omega
  · have he := h.2.1
    rw [List.foldl_cons, List.foldl_nil, covers_single (Encoding.length_le he.decoded), hphysPc]
    · rw [Takes, Takes, or_false]
    · intro next n hcrossing
      obtain ⟨rfl, -⟩ := he.shapedAt.crossing_some hplace hcrossing
      omega

/-- Every byte that encodings take has been read. -/
theorem Chain.readsByte_of_takes {a : Nat} (h : c.Chain mem page o es) (ha : c.Takes page o es a) :
    ∃ b, ReadsByte mem a b := by
  induction es generalizing o with
  | nil => exact ha.elim
  | cons e es ih =>
    obtain ⟨hstart, he, -, hes⟩ := h
    obtain ⟨j, hj, rfl⟩ | ha := ha
    · have hlength := he.shapedAt.length_le_bytes hstart.1
      exact ⟨_, he.readsByte (List.getElem?_eq_getElem (by omega))⟩
    · exact ih hes ha

/-! ## Memories that agree -/

/-- The bytes that an encoding takes decide what it is. -/
def Decides (c : CompileContext) (e : Encoding) : Prop :=
  decode c.width (e.bytes.take e.length) ≠ .error .unexpectedEnd

/-- An instruction is decided by the bytes that it takes. -/
theorem Reads.decides_of_ok {i : Instruction} (h : c.Reads mem page o e) (hi : e.decoded = .ok i) :
    c.Decides e := by
  intro hend
  have hdecode := decode_take (h.decoded.symm.trans hi) []
  rw [List.append_nil, ← Encoding.length_ok hi, hend] at hdecode
  cases hdecode

/-- Bytes that begin with those taken show the same encoding. -/
theorem Reads.decode_eq (h : c.Reads mem page o e) (hdec : c.Decides e) {bytes : List UInt8}
    (hbytes : bytes.take e.length = e.bytes.take e.length) :
    decode c.width bytes = e.decoded := by
  have hdecode (l : List UInt8) (hl : l.take e.length = e.bytes.take e.length) :
      decode c.width l = decode c.width (e.bytes.take e.length) := by
    rw [← List.take_append_drop e.length l, hl]
    exact decode_append_of_decides hdec _
  rw [h.decoded, hdecode bytes hbytes, hdecode e.bytes rfl]

/-- What another memory shows of the first page of an encoding, if it agrees on the bytes taken: the
    same encoding, or the same bytes of one that reaches the next page. -/
theorem Reads.first_page (h : c.Reads mem page o e) (hdec : c.Decides e)
    (hagree : ∀ j < e.length, AgreeAt mem mem' (e.address (page.toNat + c.place o) j))
    {bytes : List UInt8} (hlength : bytes.length = min (4096 - c.place o) maxInstructionLength)
    (hholds : HoldsBytes mem' (page.toNat + c.place o) bytes) :
    (e.crossing = none ∧ bytes.take e.length = e.bytes.take e.length ∧
        decode c.width bytes = e.decoded) ∨
      ∃ far next, o = 0 ∧
        e = ⟨bytes ++ far, decode c.width (bytes ++ far), some (next, bytes.length)⟩ ∧
        bytes.length < e.length ∧ decode c.width bytes = .error .unexpectedEnd ∧
        mapForFetch mem (nextPage c.start) c.cpu.cpl = .ok next ∧
        far.length = maxInstructionLength - bytes.length ∧ HoldsBytes mem next.toNat far := by
  cases h with
  | near hlength' hholds' hdecode =>
    have htake := take_eq_of_agree hholds' hholds (hlength.trans hlength'.symm) hagree
    exact .inl ⟨rfl, htake, (Reads.near hlength' hholds' hdecode).decode_eq hdec htake⟩
  | @far near far next ho hlength' hholds' hdecode hnext hfarLength hfarHolds =>
    generalize he : (⟨near ++ far, decode c.width (near ++ far), some (next, near.length)⟩ :
      Encoding) = e at hdec hagree ⊢
    have hbytes : e.bytes = near ++ far := by rw [← he]
    have haddress (j : Nat) (hj : j < near.length) :
        e.address (page.toNat + c.place o) j = page.toNat + c.place o + j := by
      unfold Encoding.address
      rw [← he]
      exact if_pos hj
    -- The bytes of the first page alone do not decide, so all of them have been taken.
    have hlt : near.length < e.length := by
      by_contra hle
      refine hdec ?_
      rw [hbytes, List.take_append_of_le_length (Nat.le_of_not_lt hle)]
      rw [← List.take_append_drop e.length near] at hdecode
      by_contra hne
      rw [decode_append_of_decides hne] at hdecode
      exact hne hdecode
    have htake := take_eq_of_agree (n := near.length) hholds' hholds
      (hlength.trans hlength'.symm) fun j hj => by
        rw [← haddress j hj]
        exact hagree j (by omega)
    rw [List.take_of_length_le (by omega), List.take_length] at htake
    subst htake
    exact .inr ⟨far, next, ho, he.symm, hlt, hdecode, hnext, hfarLength, hfarHolds⟩

/-- Bytes of the next page that agree as far as they are taken show the same encoding. -/
theorem Reads.next_page {near far far' : List UInt8} {next : UInt64}
    (h : c.Reads mem page o e) (hdec : c.Decides e)
    (he : e = ⟨near ++ far, decode c.width (near ++ far), some (next, near.length)⟩)
    (hagree : ∀ j < e.length, AgreeAt mem mem' (e.address (page.toNat + c.place o) j))
    (hlt : near.length < e.length) (hlength : far'.length = far.length)
    (hfar : HoldsBytes mem next.toNat far) (hfar' : HoldsBytes mem' next.toNat far') :
    (near ++ far').take e.length = e.bytes.take e.length ∧
      decode c.width (near ++ far') = e.decoded := by
  have htake := take_eq_of_agree (n := e.length - near.length) hfar hfar' hlength fun j hj => by
    have haddress : e.address (page.toNat + c.place o) (near.length + j) = next.toNat + j := by
      unfold Encoding.address
      rw [he]
      show (if near.length + j < near.length then _
        else next.toNat + (near.length + j - near.length)) = _
      rw [if_neg (by omega), Nat.add_sub_cancel_left]
    rw [← haddress]
    exact hagree _ (by omega)
  have hbytes : (near ++ far').take e.length = e.bytes.take e.length := by
    rw [show e.bytes = near ++ far by rw [he], List.take_append, List.take_append, htake]
  exact ⟨hbytes, h.decode_eq hdec hbytes⟩

/-- **Two memories that agree on the bytes that an encoding takes show the same encoding**, if those
    bytes decide what it is. -/
theorem Reads.congr (h : c.Reads mem page o e) (h' : c.Reads mem' page o e')
    (hdec : c.Decides e)
    (hagree : ∀ j < e.length, AgreeAt mem mem' (e.address (page.toNat + c.place o) j))
    (hmap : mapForFetch mem' (nextPage c.start) c.cpu.cpl =
      mapForFetch mem (nextPage c.start) c.cpu.cpl) :
    e'.bytes.take e.length = e.bytes.take e.length ∧ e'.decoded = e.decoded ∧
      e'.crossing = e.crossing := by
  cases h' with
  | near hlength' hholds' hdecode' =>
    obtain ⟨hcrossing, hbytes, hdecode⟩ | ⟨_, _, _, _, _, hdecode, _⟩ :=
      h.first_page hdec hagree hlength' hholds'
    · exact ⟨hbytes, hdecode, hcrossing.symm⟩
    · exact absurd hdecode hdecode'
  | @far near far' next' ho hlength' hholds' hdecode' hnext' hfarLength' hfarHolds' =>
    obtain ⟨hcrossing, hbytes, hdecode⟩ |
        ⟨far, next, _, he, hlt, _, hnext, hfarLength, hfarHolds⟩ :=
      h.first_page hdec hagree hlength' hholds'
    · refine absurd hdecode'.symm ?_
      rw [hdecode, h.decoded]
      exact h.shapedAt.not_unexpectedEnd.symm
    · rw [hmap, hnext] at hnext'
      cases hnext'
      obtain ⟨hbytes, hdecode⟩ := h.next_page hdec he hagree hlt (hfarLength'.trans hfarLength.symm)
        hfarHolds hfarHolds'
      exact ⟨hbytes, hdecode, by rw [he]⟩

/-! ## Blocks -/

/-- A block that has been made from a chain of encodings in memory. -/
structure Makes (c : CompileContext) (mem : M) (page : UInt64) (e : Encoding) (es : List Encoding)
    (b : Block) : Prop where
  mapped : mapForFetch mem c.start c.cpu.cpl = .ok page
  chain : c.Chain mem page 0 (e :: es)
  calls : b.calls = c.listing 0 (e :: es)
  covers_iff : ∀ a, (∃ r ∈ b.ranges, r.Covers a) ↔ c.Takes page 0 (e :: es) a
  physPc : b.physPc.toNat = page.toNat + c.place 0
  pc : b.pc = c.start
  flags : b.flags = c.flags
  identity : b.identity = .ofCpu c.cpu

/-- **A compiled block is the listing of a chain of encodings, and records their bytes.** -/
theorem makes_of_ok {cpu : Cpu} {s s' : FetchStream} {flags : ModeFlags} {config : Config}
    {b : Block} (hwidth : flags.codeWidth = cpu.codeWidth) (hs : s.Current mem)
    (h : compileBlock cpu mem s flags config = (.ok b, s')) :
    ∃ page e es, Makes ⟨cpu, flags, config⟩ mem page e es b := by
  obtain ⟨page, physPc, e, es, hpage, hphysPc, hchain, rfl⟩ := compileBlock_ok hwidth hs h
  have hstart : start ⟨cpu, flags, config⟩ = cpu.linearPc := start_eq hwidth
  generalize hc : (⟨cpu, flags, config⟩ : CompileContext) = c at hchain hstart ⊢
  have hplace : physPc.toNat = page.toNat + c.place 0 := by
    rw [hphysPc, place, hstart, Nat.add_zero]
  refine ⟨page, e, es, ?_, hchain, ?_, hchain.covers_iff hplace, ?_, ?_, rfl, rfl⟩
  · rw [hstart, ← hc]
    exact hpage
  · show ((e :: es).foldl c.append (emptyDraft physPc)).calls.toList = _
    rw [toList_calls_foldl]
    rfl
  · show ((e :: es).foldl c.append (emptyDraft physPc)).first.start.toNat = _
    rw [start_foldl, ← hplace]
    rfl
  · rw [hstart, ← hc]
    rfl

end CompileContext

end X86Replay

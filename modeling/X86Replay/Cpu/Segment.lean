import X86Replay.Instruction.Basic

/-!
# Segment registers

`SegmentRegister`: a selector with its cached descriptor, and the descriptors that real mode, flat
32-bit code and 64-bit code load. Access rights have the type in bits 0 to 3, S in 4, DPL in 5 and
6, P in 7, L in 13, D/B in 14 and G in 15.

Names in parentheses are those in the emulator, here in its module `state`.
-/

namespace X86Replay

/-- The bits of the access rights of a segment. -/
inductive SegmentAttr where
  | accessed
  | writable
  | code
  | notSystem
  | present
  | long
  | big
  | pageGranular
deriving DecidableEq, Repr

/-- The mask of an access right. -/
def SegmentAttr.mask : SegmentAttr → UInt32
  | .accessed => 0x1
  | .writable => 0x2
  | .code => 0x8
  | .notSystem => 0x10
  | .present => 0x80
  | .long => 0x2000
  | .big => 0x4000
  | .pageGranular => 0x8000

/-- A segment register: its selector and the base, limit and access rights in force
    (`SegmentRegister`). -/
structure SegmentRegister where
  selector : UInt16
  base : UInt64
  limit : UInt32
  attr : UInt32
deriving DecidableEq, Repr

namespace SegmentRegister

/-- Whether an access right is set. -/
def has (s : SegmentRegister) (a : SegmentAttr) : Bool :=
  s.attr &&& a.mask != 0

/-- The access rights that are exactly those of a list. -/
def rights (as : List SegmentAttr) : UInt32 :=
  as.foldl (fun bits a => bits ||| a.mask) 0

/-- The rights of a writable data segment (`DATA_RW`). -/
def dataRights : List SegmentAttr := [.present, .notSystem, .writable, .accessed]

/-- The rights of a readable code segment (`CODE_RX`). -/
def codeRights : List SegmentAttr := .code :: dataRights

/-- A data segment as real mode loads it (`real_mode`). -/
def real (selector : UInt16) : SegmentRegister :=
  ⟨selector, selector.toUInt64 <<< 4, 0xFFFF, rights dataRights⟩

/-- The code segment as real mode loads it (`real_mode_code`). -/
def realCode (selector : UInt16) : SegmentRegister :=
  { real selector with attr := rights codeRights }

/-- A flat 32-bit code segment (`flat_code32`). -/
def flatCode32 (selector : UInt16) : SegmentRegister :=
  ⟨selector, 0, 0xFFFFFFFF, rights (.big :: .pageGranular :: codeRights)⟩

/-- A flat 32-bit data segment (`flat_data32`). -/
def flatData32 (selector : UInt16) : SegmentRegister :=
  ⟨selector, 0, 0xFFFFFFFF, rights (.big :: .pageGranular :: dataRights)⟩

/-- A 64-bit code segment (`code64`). -/
def code64 (selector : UInt16) : SegmentRegister :=
  ⟨selector, 0, 0xFFFFFFFF, rights (.long :: .pageGranular :: codeRights)⟩

/-- Whether the segment covers the first 4 GiB from address zero (`is_flat`). -/
def isFlat (s : SegmentRegister) : Bool :=
  s.base == 0 && s.limit == 0xFFFFFFFF

/-- The privilege level of the descriptor (`dpl`). -/
def dpl (s : SegmentRegister) : UInt8 :=
  ((s.attr >>> 5) &&& 3).toUInt8

/-- Whether code or stack in the segment has 32 bits by default (`default_big`). -/
def isBig (s : SegmentRegister) : Bool :=
  s.has .big

end SegmentRegister

/-! ## The six segment registers -/

/-- The six segment registers. -/
structure Segments where
  es : SegmentRegister
  cs : SegmentRegister
  ss : SegmentRegister
  ds : SegmentRegister
  fs : SegmentRegister
  gs : SegmentRegister
deriving DecidableEq, Repr

namespace Segments

/-- All segment registers hold `s`. -/
def same (s : SegmentRegister) : Segments :=
  ⟨s, s, s, s, s, s⟩

/-- The segment register of a name. -/
def get (s : Segments) : SegmentName → SegmentRegister
  | .es => s.es
  | .cs => s.cs
  | .ss => s.ss
  | .ds => s.ds
  | .fs => s.fs
  | .gs => s.gs

/-- The segment registers with one of them replaced. -/
def set (s : Segments) (n : SegmentName) (r : SegmentRegister) : Segments :=
  match n with
  | .es => { s with es := r }
  | .cs => { s with cs := r }
  | .ss => { s with ss := r }
  | .ds => { s with ds := r }
  | .fs => { s with fs := r }
  | .gs => { s with gs := r }

theorem get_set (s : Segments) (n m : SegmentName) (r : SegmentRegister) :
    (s.set n r).get m = if n = m then r else s.get m := by
  cases n <;> cases m <;> rfl

end Segments

end X86Replay

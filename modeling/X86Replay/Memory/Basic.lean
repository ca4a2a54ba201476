import X86Replay.Bytes
import X86Replay.Exception

/-!
# Guest memory

* `GuestMemory`: translating linear addresses, and reading and writing physical bytes. A write may
  fail and still have changed memory. Translating and reading leave it as it is here; a memory that
  they change (both take the memory by mutable reference in the emulator) is left out, and so is one
  that replaces `mapForAccess` or `commit` by its own.
* `Mapping`: the bytes of one data access, which may span two pages. Both pages are translated
  before any byte is touched, so a fault on the second one leaves memory alone.
* `Mapping.commit`: the write-back, span by span, which logs each span as soon as it has landed.

Names in parentheses are those in the emulator, here in its module `mem`.
-/

namespace X86Replay

/-! ## Pages -/

/-- The size of a page (`PAGE_SIZE`). -/
def pageSize : UInt64 := 0x1000

/-- The start of the page of an address. -/
def pageOf (a : UInt64) : UInt64 := a &&& ~~~(0xFFF : UInt64)

/-- The offset of an address in its page. -/
def pageOffset (a : UInt64) : UInt64 := a &&& 0xFFF

/-- The start of the page after that of an address. -/
def nextPage (a : UInt64) : UInt64 := pageOf a + pageSize

/-- The bytes from an address to the end of its page. -/
def pageRoom (a : UInt64) : Nat := (pageSize - pageOffset a).toNat

/-- The end of `n` bytes from `start`, held at the last address. -/
def spanEnd (start n : UInt64) : UInt64 :=
  if start.toNat + n.toNat < UInt64.size then start + n else 0xFFFFFFFFFFFFFFFF

/-! ## The interface -/

/-- What memory is accessed for (`AccessType`). -/
inductive Access where
  | read
  | write
  | execute
deriving DecidableEq, Repr

/-- A span of physical memory (`PhysWrite`). -/
structure PhysSpan where
  start : UInt64
  length : Nat
deriving DecidableEq, Repr

/-- Guest memory of type `M` (`GuestMemory`). -/
class GuestMemory (M : Type) where
  /-- The physical address that a linear address leads to at a privilege level. -/
  translate : M → UInt64 → Access → UInt8 → Except Exception UInt64
  /-- `n` bytes from a physical address. -/
  read : M → UInt64 → (n : Nat) → Except Exception (Vector UInt8 n)
  /-- Bytes written to a physical address. -/
  write : M → UInt64 → List UInt8 → Except Exception Unit × M

export GuestMemory (translate)

variable {M : Type} [GuestMemory M]

/-- The bytes of a physical span (`read_phys`). -/
def readBytes (mem : M) (start : UInt64) (n : Nat) : Except Exception (List UInt8) :=
  (GuestMemory.read mem start n).map Vector.toList

/-- The physical page that the code page of a linear address is mapped to (`map_for_fetch`). -/
def mapForFetch (mem : M) (linear : UInt64) (cpl : UInt8) : Except Exception UInt64 :=
  (translate mem (pageOf linear) .execute cpl).map pageOf

/-! ## Data accesses -/

/-- The bytes of one data access and where they live (`MappedAccess`). -/
structure Mapping where
  linear : UInt64
  access : Access
  /-- The bytes on the page of the first byte. -/
  first : PhysSpan
  /-- The bytes on the next page, if the access reaches it. -/
  second : Option PhysSpan
  data : List UInt8
deriving Repr

namespace Mapping

/-- The spans in the order of the bytes (`phys_spans`). -/
def spans (m : Mapping) : List PhysSpan :=
  m.first :: m.second.toList

/-- The number of bytes (`len`). -/
def length (m : Mapping) : Nat :=
  m.data.length

/-- The first eight bytes as a word, least significant byte first (`read_le`). -/
def word (m : Mapping) : UInt64 :=
  wordOfBytes m.data

/-- The first bytes overwritten with `bytes`, as far as both reach. -/
def overwrite (m : Mapping) (bytes : List UInt8) : Mapping :=
  { m with data := bytes.take m.data.length ++ m.data.drop bytes.length }

/-- The first eight bytes overwritten with a word (`write_le`). -/
def setWord (m : Mapping) (v : UInt64) : Mapping :=
  m.overwrite (bytesOfWord 8 v)

end Mapping

/-- The spans of an access to `n` bytes (part of `map_for_access`). -/
def mapSpans (mem : M) (linear : UInt64) (n : Nat) (access : Access) (cpl : UInt8) :
    Except Exception (PhysSpan × Option PhysSpan) := do
  let first ← translate mem linear access cpl
  let room := pageRoom linear
  if room < n then
    let second ← translate mem (nextPage linear) access cpl
    return (⟨first, room⟩, some ⟨second, n - room⟩)
  else
    return (⟨first, n⟩, none)

/-- The current bytes of an access to `n` bytes (`map_for_access`). -/
def mapForAccess (mem : M) (linear : UInt64) (n : Nat) (access : Access) (cpl : UInt8) :
    Except Exception Mapping := do
  let (first, second) ← mapSpans mem linear n access cpl
  let head ← readBytes mem first.start first.length
  let tail ←
    match second with
    | some s => readBytes mem s.start s.length
    | none => pure []
  return ⟨linear, access, first, second, head ++ tail⟩

/-! ## Writing back -/

/-- Writes the bytes to the spans in turn and logs each span that has landed (part of
    `commit_and_unmap`). The first failure ends the write. -/
def commitSpans (mem : M) (log : Array PhysSpan) :
    List PhysSpan → List UInt8 → Except Exception Unit × M × Array PhysSpan
  | [], _ => (.ok (), mem, log)
  | s :: spans, data =>
    match GuestMemory.write mem s.start (data.take s.length) with
    | (.ok (), mem) => commitSpans mem (log.push s) spans (data.drop s.length)
    | (.error e, mem) => (.error e, mem, log)

/-- Writes the bytes of an access back (`commit_and_unmap`). Only an access for writing has an
    effect. -/
def Mapping.commit (m : Mapping) (mem : M) (log : Array PhysSpan) :
    Except Exception Unit × M × Array PhysSpan :=
  if m.access = .write then commitSpans mem log m.spans m.data else (.ok (), mem, log)

end X86Replay

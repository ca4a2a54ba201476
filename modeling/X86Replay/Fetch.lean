import X86Replay.Cpu.Basic
import X86Replay.Instruction.Decode
import X86Replay.Memory.Basic

/-!
# Instruction fetch

`FetchStream`: a window on the code page that was fetched from last. While the program counter
stays inside it, its physical address is plain arithmetic; anything else drops the window and
translates again.

* `resolve`: the physical address of a linear program counter.
* `copyBytes`: the code bytes at a resolved program counter, up to the end of the window.
* `dropWritten`: the stream after a write to physical memory.

Bytes are read from memory in chunks of 64, so that a straight run of instructions does not read it
once per instruction.

Names in parentheses are those in the emulator, here in its module `fetch`.
-/

namespace X86Replay

variable {M : Type} [GuestMemory M]

/-- A window on a code page, with the processor state that its mapping depends on (the window of
    `InstrStream`). -/
structure FetchWindow where
  /-- The linear address of the page. -/
  linear : UInt64
  /-- The physical address of the page. -/
  physical : UInt64
  /-- The bytes of the page that have been read, from its start. -/
  loaded : Array UInt8 := #[]
  epoch : UInt64
  cpl : UInt8
deriving Repr

/-- The number of bytes read from memory at a time. -/
def fetchChunk : Nat := 64

namespace FetchWindow

/-- Whether a linear address resolves in the window for a processor state (`in_window`). -/
def covers (w : FetchWindow) (cpu : Cpu) (pc : UInt64) : Bool :=
  w.epoch == cpu.epoch && w.cpl == cpu.cpl && w.linear ≤ pc && pc - w.linear < pageSize

/-- The physical address of a linear address in the window. -/
def physicalOf (w : FetchWindow) (pc : UInt64) : UInt64 :=
  w.physical + (pc - w.linear)

/-- Whether `n` bytes of physical memory from `start` meet the window (the test of
    `invalidate_phys`). -/
def meets (w : FetchWindow) (start n : UInt64) : Bool :=
  n != 0 && start < w.physical + pageSize && w.physical < spanEnd start n

/-- The window with at least its first `n` bytes read, in whole chunks up to the page end
    (`ensure_loaded`). -/
def loadTo (w : FetchWindow) (mem : M) (n : Nat) : Except Exception FetchWindow := do
  if n ≤ w.loaded.size then
    return w
  let target := min ((n + fetchChunk - 1) / fetchChunk * fetchChunk) pageSize.toNat
  let chunk ← GuestMemory.read mem (w.physical + w.loaded.size.toUInt64) (target - w.loaded.size)
  return { w with loaded := w.loaded ++ chunk.toArray }

end FetchWindow

/-- The fetch state of a processor (`InstrStream`, with `FetchStats`). -/
structure FetchStream where
  window : Option FetchWindow := none
  /-- How often a program counter was resolved in the window. -/
  hits : Nat := 0
  /-- How often the window had to be made anew. -/
  misses : Nat := 0
deriving Repr

namespace FetchStream

/-- The stream without its window (`invalidate`). -/
def drop (s : FetchStream) : FetchStream :=
  { s with window := none }

/-- The stream after a write of `n` bytes of physical memory: a window that the write meets is
    dropped (`invalidate_phys`). -/
def dropWritten (s : FetchStream) (start n : UInt64) : FetchStream :=
  if s.window.any (·.meets start n) then s.drop else s

/-- The physical address of a linear program counter, and the stream with a window on it
    (`resolve`). On a miss the old window is lost even if the new one cannot be made. -/
def resolve (s : FetchStream) (cpu : Cpu) (mem : M) (pc : UInt64) :
    Except Exception UInt64 × FetchStream :=
  match s.window.filter (·.covers cpu pc) with
  | some w => (.ok (w.physicalOf pc), { s with hits := s.hits + 1 })
  | none =>
    let missed := { s.drop with misses := s.misses + 1 }
    match mapForFetch mem pc cpu.cpl with
    | .error e => (.error e, missed)
    | .ok page =>
      let w : FetchWindow :=
        { linear := pageOf pc, physical := page, epoch := cpu.epoch, cpl := cpu.cpl }
      (.ok (w.physicalOf pc), { missed with window := some w })

/-- Up to `limit` code bytes from a resolved program counter, at most the longest instruction and no
    further than the window (`copy_bytes`). -/
def copyBytes (s : FetchStream) (mem : M) (pc : UInt64) (limit : Nat) :
    Except Exception (List UInt8) × FetchStream :=
  match s.window with
  | none => (.ok [], s)
  | some w =>
    let offset := (pc - w.linear).toNat
    let n := min (pageSize.toNat - offset) (min limit maxInstructionLength)
    match w.loadTo mem (offset + n) with
    | .error e => (.error e, s)
    | .ok w => (.ok (w.loaded.extract offset (offset + n)).toList, { s with window := some w })

end FetchStream

end X86Replay

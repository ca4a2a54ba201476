import X86Replay.Memory.Basic

/-!
# Sparse memory

`SparseMemory`: memory of all physical addresses, of which only the bytes that are not zero are
listed, behind a table of pages. All pages are mapped, and only an access that passes the last
physical address fails.
-/

namespace X86Replay

/-- Bytes listed by physical address, behind a page table. -/
structure SparseMemory where
  /-- Physical addresses and their bytes, latest first. All other bytes are zero. -/
  bytes : List (UInt64 × UInt8) := []
  /-- Linear pages and the physical pages they lead to. All others lead to themselves. -/
  table : List (UInt64 × UInt64) := []

namespace SparseMemory

/-- The byte at a physical address. -/
def byteAt (m : SparseMemory) (a : UInt64) : UInt8 :=
  (m.bytes.lookup a).getD 0

/-- Bytes with the physical addresses from `start` on. -/
def entries (start : UInt64) (data : List UInt8) : List (UInt64 × UInt8) :=
  data.zipIdx.map fun (b, i) => (start + i.toUInt64, b)

/-- The bytes of a span, which has to end where the address space ends or before. -/
def readSparse (m : SparseMemory) (start : UInt64) (n : Nat) : Except Exception (Vector UInt8 n) :=
  if start.toNat + n ≤ UInt64.size then
    .ok (Vector.ofFn fun i => m.byteAt (start + i.val.toUInt64))
  else
    .error (.generalProtection 0)

/-- Bytes written to a span, which has to end where the address space ends or before. -/
def writeSparse (m : SparseMemory) (start : UInt64) (data : List UInt8) :
    Except Exception Unit × SparseMemory :=
  if start.toNat + data.length ≤ UInt64.size then
    (.ok (), { m with bytes := entries start data ++ m.bytes })
  else
    (.error (.generalProtection 0), m)

instance : GuestMemory SparseMemory where
  translate m a _ _ := .ok ((m.table.lookup (pageOf a)).getD (pageOf a) ||| pageOffset a)
  read := readSparse
  write := writeSparse

end SparseMemory

end X86Replay

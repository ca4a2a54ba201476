import X86Replay.Memory.Flat

/-!
# Remapped memory

`RemappedMemory`: flat memory behind a table of linear pages that lead to other physical pages, and
with physical pages whose writes fail.
-/

namespace X86Replay

/-- Flat memory behind a page table. -/
structure RemappedMemory where
  flat : FlatMemory
  /-- Linear pages and the physical pages they lead to, latest first. -/
  table : List (UInt64 × UInt64) := []
  /-- The physical pages whose writes fail. -/
  bad : List UInt64 := []

namespace RemappedMemory

/-- The memory with a linear page led to a physical one. -/
def remap (m : RemappedMemory) (linear physical : UInt64) : RemappedMemory :=
  { m with table := (linear, physical) :: m.table }

/-- The memory with one more page whose writes fail. -/
def markBad (m : RemappedMemory) (page : UInt64) : RemappedMemory :=
  { m with bad := m.bad.insert page }

/-- Addresses on a remapped page translate without a check, all others as in flat memory. -/
def translateRemapped (m : RemappedMemory) (linear : UInt64) (access : Access) (cpl : UInt8) :
    Except Exception UInt64 :=
  match m.table.lookup (pageOf linear) with
  | some page => .ok (page ||| pageOffset linear)
  | none => translate m.flat linear access cpl

/-- Bytes written to a span, unless it starts on a page whose writes fail. -/
def writeRemapped (m : RemappedMemory) (start : UInt64) (data : List UInt8) :
    Except Exception Unit × RemappedMemory :=
  if m.bad.contains (pageOf start) then (.error (.generalProtection 0), m)
  else
    let ⟨flat, table, bad⟩ := m
    let (result, flat) := GuestMemory.write flat start data
    (result, ⟨flat, table, bad⟩)

instance : GuestMemory RemappedMemory where
  translate := translateRemapped
  read m := GuestMemory.read m.flat
  write := writeRemapped

end RemappedMemory

end X86Replay

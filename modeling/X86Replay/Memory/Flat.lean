import X86Replay.Memory.Basic

/-!
# Flat memory

`FlatMemory`: an array of bytes in which linear and physical addresses agree. Pages can be unmapped
or protected from writes; both show when an address is translated, not when bytes are read or
written.

Names in parentheses are those in the emulator, here in its module `mem`.
-/

namespace X86Replay

/-- Memory whose linear addresses are its physical ones (`FlatTestMemory`). -/
structure FlatMemory where
  bytes : Array UInt8
  /-- The pages that no access can be translated to. -/
  unmapped : List UInt64 := []
  /-- The pages that no write can be translated to. -/
  writeProtected : List UInt64 := []

/-- The bits of a page fault code. -/
inductive PageFaultBit where
  | present
  | write
  | user
  | fetch

/-- The mask of a bit of a page fault code. -/
def PageFaultBit.mask : PageFaultBit → UInt32
  | .present => 0x1
  | .write => 0x2
  | .user => 0x4
  | .fetch => 0x10

/-- The page fault code of an access to a page that is not present. -/
def pageFaultCode (access : Access) (cpl : UInt8) : UInt32 :=
  (if access = .write then PageFaultBit.write.mask else 0)
    ||| (if access = .execute then PageFaultBit.fetch.mask else 0)
    ||| (if cpl = 3 then PageFaultBit.user.mask else 0)

namespace FlatMemory

/-- `n` zero bytes, all mapped and writable (`new`). -/
def zeros (n : Nat) : FlatMemory where
  bytes := Array.replicate n 0

/-- The memory without the page of an address (`unmap_page`). -/
def unmap (m : FlatMemory) (a : UInt64) : FlatMemory :=
  { m with unmapped := m.unmapped.insert (pageOf a) }

/-- The memory with the page of an address mapped again (`map_page`). -/
def map (m : FlatMemory) (a : UInt64) : FlatMemory :=
  { m with unmapped := m.unmapped.filter (· != pageOf a) }

/-- The memory with the page of an address protected from writes (`write_protect_page`). -/
def protect (m : FlatMemory) (a : UInt64) : FlatMemory :=
  { m with writeProtected := m.writeProtected.insert (pageOf a) }

/-- The array with the elements from `i` on replaced by those of a list, as far as it reaches. -/
def splice (a : Array UInt8) (i : Nat) : List UInt8 → Array UInt8
  | [] => a
  | b :: bs => splice (a.setIfInBounds i b) (i + 1) bs

/-- The memory with bytes stored from an address on (`load`). -/
def load (m : FlatMemory) (a : UInt64) (data : List UInt8) : FlatMemory :=
  { m with bytes := splice m.bytes a.toNat data }

/-- Addresses translate to themselves (`translate`). Unmapped pages and addresses past the end fault
    as not present, writes to protected pages as violations. -/
def translateFlat (m : FlatMemory) (linear : UInt64) (access : Access) (cpl : UInt8) :
    Except Exception UInt64 :=
  let code := pageFaultCode access cpl
  if m.unmapped.contains (pageOf linear) || m.bytes.size ≤ linear.toNat then
    .error (.pageFault linear code)
  else if access = .write && m.writeProtected.contains (pageOf linear) then
    .error (.pageFault linear (code ||| PageFaultBit.present.mask))
  else
    .ok linear

/-- The bytes of a span, which has to lie inside the memory (`read_phys`). -/
def readFlat (m : FlatMemory) (start : UInt64) (n : Nat) : Except Exception (Vector UInt8 n) :=
  if h : start.toNat + n ≤ m.bytes.size then
    .ok (Vector.ofFn fun i => m.bytes[start.toNat + i])
  else
    .error (.generalProtection 0)

/-- Bytes written to a span, which has to lie inside the memory (`write_phys`). -/
def writeFlat (m : FlatMemory) (start : UInt64) (data : List UInt8) :
    Except Exception Unit × FlatMemory :=
  if start.toNat + data.length ≤ m.bytes.size then (.ok (), m.load start data)
  else (.error (.generalProtection 0), m)

instance : GuestMemory FlatMemory where
  translate := translateFlat
  read := readFlat
  write := writeFlat

end FlatMemory

end X86Replay

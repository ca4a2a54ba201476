import X86Replay.Block.Call
import X86Replay.Cpu.Mode

/-!
# Blocks

`Block`: a straight-line run of instructions as a list of calls, with what tells it apart from other
blocks and the physical memory that it was compiled from.

* `CodeIdentity.agrees`: two code segments under which the same code is the same block.
* `CodeRange.meets`: a write that touches code; ranges are half open.
* `Block.codePages`: the physical pages that hold code of a block.

Names in parentheses are those in the emulator, here in its module `tb`.
-/

namespace X86Replay

/-! ## Identity -/

/-- The code segment that a block was compiled under (`ArchIdentity`). -/
structure CodeIdentity where
  base : UInt64
  limit : UInt32
  selector : UInt16
  attr : UInt32
deriving DecidableEq, Repr

namespace CodeIdentity

/-- The identity of the current code segment (`from_cpu`). -/
def ofCpu (cpu : Cpu) : CodeIdentity :=
  let cs := cpu.seg .cs
  ⟨cs.base, cs.limit, cs.selector, cs.attr⟩

/-- Access rights have to be equal; base, limit and selector only where segmentation matters
    (`matches`). -/
def agrees (a b : CodeIdentity) (flat : Bool) : Bool :=
  a.attr == b.attr
    && (flat || a.base == b.base && a.limit == b.limit && a.selector == b.selector)

end CodeIdentity

/-! ## Ranges -/

/-- A range of physical memory that holds code (`PhysRange`). -/
structure CodeRange where
  start : UInt64
  length : UInt32
deriving DecidableEq, Repr

namespace CodeRange

/-- The address after the last byte (`end`). -/
def finish (r : CodeRange) : UInt64 :=
  r.start + r.length.toUInt64

/-- Whether `n` bytes from `start` meet the range (`overlaps`). An empty span or range meets
    nothing. -/
def meets (r : CodeRange) (start n : UInt64) : Bool :=
  n != 0 && r.length != 0 && start < r.finish && r.start < spanEnd start n

/-- The numbers of the pages of the range, ascending (part of `code_pages`). An empty range has the
    page that it lies inside of, and none if it starts a page other than the first. -/
def pages (r : CodeRange) : List UInt64 :=
  let first := r.start >>> 12
  let last := (if r.finish = 0 then 0 else r.finish - 1) >>> 12
  (List.range' first.toNat (last.toNat + 1 - first.toNat)).map Nat.toUInt64

end CodeRange

/-! ## Blocks -/

/-- A run of instructions, compiled (`TranslationBlock`). -/
structure Block where
  /-- The physical address of the first byte. -/
  physPc : UInt64
  /-- The linear address that the block was compiled at. -/
  pc : UInt64
  flags : ModeFlags
  /-- Whether every instruction is preceded by a check of the code limit. -/
  checksLimit : Bool
  identity : CodeIdentity
  /-- The number of code bytes. -/
  size : UInt16
  /-- The memory that holds the code. A second range exists only if the first instruction crosses a
      page boundary. -/
  ranges : List CodeRange
  calls : List Call
  instructions : UInt16
deriving DecidableEq, Repr

namespace Block

/-- The mode flags that tell the block apart (`key`). -/
def key (b : Block) : UInt32 :=
  b.flags.key

/-- Whether `n` bytes from `start` meet the code of the block (`overlaps`). -/
def meets (b : Block) (start n : UInt64) : Bool :=
  b.ranges.any (·.meets start n)

/-- The physical page of the second range (`second_page`). The first page alone is part of the
    identity of a block, so this one has to be checked before the block is used again. -/
def secondPage? (b : Block) : Option UInt64 :=
  b.ranges[1]?.map fun r => pageOf r.start

/-- The numbers of the pages that hold code, range by range (`code_pages`). -/
def codePages (b : Block) : List UInt64 :=
  b.ranges.flatMap CodeRange.pages

/-- Whether the block is the one for a physical address, mode flags and code segment (the test of
    `find`). -/
def isFor (b : Block) (physPc : UInt64) (flags : ModeFlags) (identity : CodeIdentity) : Bool :=
  b.physPc == physPc && b.key == flags.key && b.identity.agrees identity flags.isFlat

end Block

end X86Replay

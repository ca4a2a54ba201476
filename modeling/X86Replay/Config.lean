import X86Replay.Instruction.Decode

/-!
# Configuration

`Config`: the caps on blocks, cache and runs, and the processor to be emulated. `Config.validate`
says which setting, taken in a fixed order, is the first one out of range.

Names in parentheses are those in the emulator, here in its module `config`.
-/

namespace X86Replay

/-- The processor generation to be emulated (`CpuTarget`). -/
inductive CpuTarget where
  | i8086
  | i286
  | i386
  | current
deriving DecidableEq, Repr

/-- Whether the processor is older than the 386 (`is_pre_386`). -/
def CpuTarget.isPre386 : CpuTarget → Bool
  | .i8086 | .i286 => true
  | .i386 | .current => false

/-- The settings of a machine (`IemConfig`, with `TbLimits`). -/
structure Config where
  /-- The most calls in one block. -/
  maxCalls : Nat := 256
  /-- The most opcode bytes in one block. -/
  maxOpcodeBytes : Nat := 1024
  /-- The most blocks in the cache. -/
  cacheCapacity : Nat := 4096
  /-- The number of hash buckets as a power of two. -/
  hashBits : Nat := 12
  target : CpuTarget := .current
  /-- The guest has one processor only, so a lock has no effect. -/
  disregardLock : Bool := false
  /-- The most blocks executed by one run. -/
  maxBlocks : Nat := 4096
deriving DecidableEq, Repr

/-- Why settings are refused (`ConfigError`). -/
inductive ConfigError where
  | maxCallsTooSmall (n : Nat)
  | maxOpcodeBytesTooSmall (n : Nat)
  | maxOpcodeBytesTooLarge (n : Nat)
  | zeroCacheCapacity
  | hashBitsOutOfRange (n : Nat)
  | zeroBlockBudget
deriving DecidableEq, Repr

/-- The refusal in words. -/
def ConfigError.message : ConfigError → String
  | .maxCallsTooSmall n => "max_calls must be at least 2 (got " ++ toString n ++ ")"
  | .maxOpcodeBytesTooSmall n =>
    "max_opcode_bytes must be at least " ++ toString maxInstructionLength
      ++ " (got " ++ toString n ++ ")"
  | .maxOpcodeBytesTooLarge n =>
    "max_opcode_bytes must fit in a u16 offset (got " ++ toString n ++ ")"
  | .zeroCacheCapacity => "cache_capacity must be non-zero"
  | .hashBitsOutOfRange n => "hash_bits must be in 1..=24 (got " ++ toString n ++ ")"
  | .zeroBlockBudget => "max_blocks must be non-zero"

/-- Refuses settings under which a block could not hold a checked instruction, an offset in a block
    would not fit in 16 bits, or nothing could be cached, hashed or run (`validate`). -/
def Config.validate (c : Config) : Except ConfigError Unit := do
  if c.maxCalls < 2 then
    throw (.maxCallsTooSmall c.maxCalls)
  if c.maxOpcodeBytes < maxInstructionLength then
    throw (.maxOpcodeBytesTooSmall c.maxOpcodeBytes)
  if 0xFFFF < c.maxOpcodeBytes then
    throw (.maxOpcodeBytesTooLarge c.maxOpcodeBytes)
  if c.cacheCapacity = 0 then
    throw .zeroCacheCapacity
  if c.hashBits < 1 ∨ 24 < c.hashBits then
    throw (.hashBitsOutOfRange c.hashBits)
  if c.maxBlocks = 0 then
    throw .zeroBlockBudget

end X86Replay

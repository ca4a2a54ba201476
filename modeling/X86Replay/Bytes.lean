/-!
# Little-endian words

* `wordOfBytes`: the word whose least significant byte comes first; bytes past the eighth have no
  effect.
* `bytesOfWord`: the `n` least significant bytes of a word, in the same order.

Names in parentheses are those in the emulator, here in its module `mem`.
-/

namespace X86Replay

/-- The word stored as `bytes`, least significant byte first (`read_le`). Bytes past the eighth are
    shifted out. -/
def wordOfBytes : List UInt8 → UInt64
  | [] => 0
  | b :: bs => b.toUInt64 ||| (wordOfBytes bs <<< 8)

/-- The `n` least significant bytes of `v`, least significant byte first (`write_le`). -/
def bytesOfWord : Nat → UInt64 → List UInt8
  | 0, _ => []
  | n + 1, v => v.toUInt8 :: bytesOfWord n (v >>> 8)

@[simp]
theorem length_bytesOfWord (n : Nat) (v : UInt64) : (bytesOfWord n v).length = n := by
  induction n generalizing v with
  | zero => rfl
  | succ n ih => simp [bytesOfWord, ih]

end X86Replay

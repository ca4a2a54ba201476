/-!
# Hexadecimal text

Addresses and codes in messages are written with the mark `0x`, lower-case digits and no leading
zeros; zero is `0x0`.
-/

namespace X86Replay

/-- `n` in hexadecimal with the mark `0x`. -/
def hexText (n : Nat) : String :=
  "0x" ++ String.ofList (Nat.toDigits 16 n)

end X86Replay

import X86Replay.Flags.Basic
import X86Replay.Instruction.Basic

/-!
# Conditions

`Cond.eval`: whether a condition holds of RFLAGS. Conditions come in pairs of opposites; `L` and
`LE` compare the sign with the overflow flag, so that they decide the signed order after a
comparison.

Names in parentheses are those in the emulator, here in its module `alu`.
-/

namespace X86Replay

/-- Whether the condition holds under `flags` (`eval_cond`). -/
def Cond.eval (c : Cond) (flags : UInt64) : Bool :=
  let carry := RFlags.has flags RFlags.carry
  let zero := RFlags.has flags RFlags.zero
  let sign := RFlags.has flags RFlags.sign
  let overflow := RFlags.has flags RFlags.overflow
  let parity := RFlags.has flags RFlags.parity
  match c with
  | .o => overflow
  | .no => !overflow
  | .b => carry
  | .ae => !carry
  | .e => zero
  | .ne => !zero
  | .be => carry || zero
  | .a => !carry && !zero
  | .s => sign
  | .ns => !sign
  | .p => parity
  | .np => !parity
  | .l => sign != overflow
  | .ge => sign == overflow
  | .le => zero || sign != overflow
  | .g => !zero && sign == overflow

end X86Replay

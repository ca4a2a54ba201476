import X86Replay.Exec.Step

/-!
# Equations of computations

A computation is a function from a machine to an answer, or an exception, and another machine. The
equations below say what the building blocks do on a given machine, so that no other proof has to
open the monad.

* `Exec.bind_apply`: computations one after the other; an exception ends them.
* `Exec.bind_ok`, `Exec.bind_error`: how a sequence has succeeded or failed.
* `except_bind_eq_ok`: how a sequence of checks has succeeded.
-/

namespace X86Replay

/-- A sequence of checks has succeeded if and only if both have. -/
theorem except_bind_eq_ok {ε α β : Type} {x : Except ε α} {f : α → Except ε β} {b : β} :
    (x >>= f) = .ok b ↔ ∃ a, x = .ok a ∧ f a = .ok b := by
  cases x with
  | error e =>
    constructor
    · rintro ⟨⟩
    · rintro ⟨_, ⟨⟩, _⟩
  | ok a =>
    constructor
    · exact fun h => ⟨a, rfl, h⟩
    · rintro ⟨_, ⟨⟩, h⟩
      exact h

namespace Exec

variable {M α β : Type}

/-- Computations one after the other. -/
theorem bind_apply (f : Exec M α) (g : α → Exec M β) (m : Machine M) :
    (f >>= g) m =
      match f m with
      | (.ok a, m') => g a m'
      | (.error e, m') => (.error e, m') := by
  show (ExceptT.bindCont g (f m).1) (f m).2 = _
  rcases f m with ⟨_ | _, _⟩ <;> rfl

theorem pure_apply (a : α) (m : Machine M) : (pure a : Exec M α) m = (.ok a, m) :=
  rfl

theorem throw_apply (e : Exception) (m : Machine M) :
    (throw e : Exec M α) m = (.error e, m) :=
  rfl

theorem cpu_apply (m : Machine M) : (cpu : Exec M Cpu) m = (.ok m.cpu, m) :=
  rfl

theorem check_apply (f : Machine M → Except Exception α) (m : Machine M) :
    (check f : Exec M α) m = (f m, m) :=
  rfl

theorem require_apply (p : Cpu → Bool) (m : Machine M) :
    (require p : Exec M Unit) m =
      (if p m.cpu then .ok () else .error (.generalProtection 0), m) :=
  rfl

/-- A sequence has succeeded if and only if both parts have. -/
theorem bind_ok {f : Exec M α} {g : α → Exec M β} {m m' : Machine M} {b : β} :
    (f >>= g) m = (.ok b, m') ↔ ∃ a m₁, f m = (.ok a, m₁) ∧ g a m₁ = (.ok b, m') := by
  rw [bind_apply]
  rcases f m with ⟨e | a, m₁⟩
  · constructor
    · rintro ⟨⟩
    · rintro ⟨_, _, ⟨⟩, _⟩
  · constructor
    · exact fun h => ⟨a, m₁, rfl, h⟩
    · rintro ⟨_, _, ⟨⟩, h⟩
      exact h

/-- A sequence has failed if and only if one of its parts has. -/
theorem bind_error {f : Exec M α} {g : α → Exec M β} {m m' : Machine M} {e : Exception} :
    (f >>= g) m = (.error e, m') ↔
      f m = (.error e, m') ∨ ∃ a m₁, f m = (.ok a, m₁) ∧ g a m₁ = (.error e, m') := by
  rw [bind_apply]
  rcases f m with ⟨e | a, m₁⟩
  · constructor
    · rintro ⟨⟩
      exact .inl rfl
    · rintro (⟨⟨⟩⟩ | ⟨_, _, ⟨⟩, _⟩)
      rfl
  · constructor
    · exact fun h => .inr ⟨a, m₁, rfl, h⟩
    · rintro (h | ⟨_, _, ⟨⟩, h⟩)
      · cases h
      · exact h

end Exec

end X86Replay

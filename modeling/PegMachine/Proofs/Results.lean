import Mathlib
import PegMachine.Machine.State

/-! When a part of a computation ends with a result, each of its steps has ended with one. -/
namespace PegMachine

variable {ε σ τ α β : Type}

theorem except_bind_eq_ok {x : Except ε α} {f : α → Except ε β} {b : β} :
    x >>= f = .ok b ↔ ∃ a, x = .ok a ∧ f a = .ok b := by
  cases x with
  | error e => simp [bind, Except.bind]
  | ok a => simp [bind, Except.bind]

theorem estate_bind_eq_ok {m : EStateM ε τ α} {f : α → EStateM ε τ β} {s t : τ} {b : β} :
    (m >>= f) s = .ok b t ↔ ∃ a u, m s = .ok a u ∧ f a u = .ok b t := by
  change EStateM.bind m f s = _ ↔ _
  unfold EStateM.bind
  cases m s <;> simp

theorem estate_pure_eq_ok {s t : τ} {a b : α} :
    (pure a : EStateM ε τ α) s = .ok b t ↔ a = b ∧ s = t := by
  change EStateM.Result.ok a s = _ ↔ _
  simp

namespace Run

theorem bind_eq_ok {m : Run σ α} {f : α → Run σ β} {s t : State σ} {b : β} :
    (m >>= f) s = .ok b t ↔ ∃ a u, m s = .ok a u ∧ f a u = .ok b t :=
  estate_bind_eq_ok

theorem bind_eq_error {m : Run σ α} {f : α → Run σ β} {s t : State σ} {x : Stop} :
    (m >>= f) s = .error x t ↔
      m s = .error x t ∨ ∃ a u, m s = .ok a u ∧ f a u = .error x t := by
  change EStateM.bind m f s = _ ↔ _
  unfold EStateM.bind
  cases m s <;> simp

theorem pure_eq_ok {s t : State σ} {a b : α} :
    (pure a : Run σ α) s = .ok b t ↔ a = b ∧ s = t :=
  estate_pure_eq_ok

theorem ofExcept_eq_ok {x : Except Fault α} {s t : State σ} {a : α} :
    ofExcept x s = .ok a t ↔ x = .ok a ∧ s = t := by
  cases x with
  | ok a => simp [ofExcept, pure_eq_ok]
  | error f =>
    simp only [ofExcept, fault, reduceCtorEq, false_and, iff_false]
    intro h
    cases h

end Run
end PegMachine

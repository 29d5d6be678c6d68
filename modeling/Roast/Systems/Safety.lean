import Mathlib.Logic.Function.Iterate
import Mathlib.Order.Basic

/-! Safety of a deterministic system for a number of steps. Some steps may be disallowed: nothing is
promised after them. -/
namespace Systems

def SafeFor {σ : Type*} (step : σ → σ) (allowed good : σ → Prop) : Nat → σ → Prop
  | 0, s => good s
  | n + 1, s => good s ∧ (allowed s → SafeFor step allowed good n (step s))

section
variable {σ : Type*} {step : σ → σ} {allowed good : σ → Prop}

/-- A state is safe when it is good and the next state is safe for fewer steps. -/
theorem safeFor_of_step {n : Nat} {s : σ} (here : good s)
    (next : ∀ m < n, allowed s → SafeFor step allowed good m (step s)) : SafeFor step allowed good n s := by
  cases n with
  | zero => exact here
  | succ n => exact ⟨here, next n (Nat.lt_succ_self n)⟩

/-- A good state that does not move is safe. -/
theorem safeFor_of_fixed {s : σ} (here : good s) (fixed : step s = s) (n : Nat) :
    SafeFor step allowed good n s := by
  induction n with
  | zero => exact here
  | succ n ih => exact ⟨here, fun _ => fixed.symm ▸ ih⟩

/-- Every state of a run whose steps are allowed is good. -/
theorem SafeFor.run_good {n : Nat} {s : σ} (h : SafeFor step allowed good n s)
    (ok : ∀ m < n, allowed (step^[m] s)) : good (step^[n] s) := by
  induction n generalizing s with
  | zero => exact h
  | succ n ih =>
    rw [Function.iterate_succ_apply]
    refine ih (h.2 (ok 0 (Nat.succ_pos n))) fun m hm => ?_
    rw [← Function.iterate_succ_apply]
    exact ok (m + 1) (Nat.succ_lt_succ hm)

end

end Systems

import Mathlib.Logic.Function.Iterate
import Mathlib.Order.Basic

/-! Simulation of a deterministic system by another one that leaves out some of its steps. -/
namespace Systems

/-- A step of the first system is a step of the second one or none, and then the rank goes down. -/
def StutterSimulation {σ τ : Type*} (step : σ → σ) (step' : τ → τ) (allowed : σ → Prop) (related : σ → τ → Prop)
    (rank : σ → ℕ) : Prop :=
  ∀ s t, allowed s → related s t → related (step s) (step' t) ∨ related (step s) t ∧ rank (step s) < rank s

section
variable {σ τ : Type*} {step : σ → σ} {step' : τ → τ} {allowed : σ → Prop} {related : σ → τ → Prop} {rank : σ → ℕ}
  {s : σ} {t : τ}

/-- Whatever the first system does, the second one can follow. -/
theorem StutterSimulation.forward (h : StutterSimulation step step' allowed related rank)
    (ok : ∀ n, allowed (step^[n] s)) (start : related s t) (n : ℕ) : ∃ m, related (step^[n] s) (step'^[m] t) := by
  induction n with
  | zero => exact ⟨0, start⟩
  | succ n ih =>
    obtain ⟨m, before⟩ := ih
    rw [Function.iterate_succ_apply']
    obtain both | ⟨alone, -⟩ := h _ _ (ok n) before
    · refine ⟨m + 1, ?_⟩
      rw [Function.iterate_succ_apply']
      exact both
    · exact ⟨m, alone⟩

/-- The first system comes to a step that the second one makes too. -/
private theorem StutterSimulation.catchUp (h : StutterSimulation step step' allowed related rank)
    (ok : ∀ n, allowed (step^[n] s)) (start : related s t) : ∃ n, related (step^[n] s) (step' t) := by
  induction bound : rank s using Nat.strongRecOn generalizing s with
  | _ bound' ih =>
    obtain both | ⟨alone, smaller⟩ := h s t (ok 0) start
    · exact ⟨1, both⟩
    · obtain ⟨n, later⟩ := ih (rank (step s)) (bound ▸ smaller) (fun n => ok (n + 1)) alone rfl
      exact ⟨n + 1, later⟩

/-- The second system does nothing else. -/
theorem StutterSimulation.backward (h : StutterSimulation step step' allowed related rank)
    (ok : ∀ n, allowed (step^[n] s)) (start : related s t) (m : ℕ) : ∃ n, related (step^[n] s) (step'^[m] t) := by
  induction m with
  | zero => exact ⟨0, start⟩
  | succ m ih =>
    obtain ⟨n, before⟩ := ih
    have later (k : ℕ) : allowed (step^[k] (step^[n] s)) := by
      rw [← Function.iterate_add_apply]
      exact ok (k + n)
    obtain ⟨k, after⟩ := h.catchUp later before
    refine ⟨k + n, ?_⟩
    rw [Function.iterate_add_apply, Function.iterate_succ_apply']
    exact after

end

end Systems

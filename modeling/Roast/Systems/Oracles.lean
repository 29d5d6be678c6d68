import Mathlib.Data.Set.Basic
import Roast.Systems.Runs

/-! A deterministic system that asks an oracle now and then. When every step can be followed for some answer, there is an
oracle for which the whole run can be followed. -/
namespace Systems

section
variable {σ τ κ α : Type*}

/-- A step depends on the answer only if it asks a question, and no question comes up twice in a run. -/
structure Questions (stepWith : α → σ → σ) (question : σ → Option κ) (past : σ → Set κ) : Prop where
  silent : ∀ s, question s = none → ∀ a b, stepWith a s = stepWith b s
  fresh : ∀ s k, question s = some k → k ∉ past s
  asked : ∀ s k, question s = some k → ∀ a, k ∈ past (stepWith a s)
  kept : ∀ s a, past s ⊆ past (stepWith a s)

def answeredStep [Inhabited α] (stepWith : α → σ → σ) (question : σ → Option κ) (answers : κ → α) (s : σ) : σ :=
  stepWith ((question s).elim default answers) s

variable {stepWith : α → σ → σ} {question : σ → Option κ} {past : σ → Set κ}

private theorem Questions.past_mono (h : Questions stepWith question past) {states : ℕ → σ} {given : ℕ → α}
    (steps : ∀ n, states (n + 1) = stepWith (given n) (states n)) {i j : ℕ} (later : i ≤ j) :
    past (states i) ⊆ past (states j) := by
  induction later with
  | refl => exact subset_rfl
  | step _ ih =>
    rw [steps]
    exact ih.trans (h.kept _ _)

theorem Questions.once (h : Questions stepWith question past) {states : ℕ → σ} {given : ℕ → α}
    (steps : ∀ n, states (n + 1) = stepWith (given n) (states n)) {i j : ℕ} {k : κ}
    (first : question (states i) = some k) (second : question (states j) = some k) : i = j := by
  have earlier {i j : ℕ} (first : question (states i) = some k) (second : question (states j) = some k) : ¬ i < j := by
    intro before
    have mem : k ∈ past (states (i + 1)) := by
      rw [steps]
      exact h.asked _ k first _
    exact h.fresh _ k second (h.past_mono steps before mem)
  exact Nat.le_antisymm (not_lt.mp (earlier second first)) (not_lt.mp (earlier first second))

/-- The answers along a run are those of one oracle. -/
private theorem Questions.exists_answers [Inhabited α] (h : Questions stepWith question past) {states : ℕ → σ}
    {given : ℕ → α}
    (steps : ∀ n, states (n + 1) = stepWith (given n) (states n)) :
    ∃ answers : κ → α, ∀ n, (answeredStep stepWith question answers)^[n] (states 0) = states n := by
  classical
  have known (k : κ) : ∃ a, ∀ n, question (states n) = some k → a = given n := by
    by_cases some_n : ∃ n, question (states n) = some k
    · obtain ⟨n, asks⟩ := some_n
      refine ⟨given n, fun m asks' => ?_⟩
      rw [h.once steps asks asks']
    · exact ⟨default, fun n asks => absurd ⟨n, asks⟩ some_n⟩
  choose answers given_of using known
  refine ⟨answers, fun n => ?_⟩
  induction n with
  | zero => rfl
  | succ n ih =>
    rw [Function.iterate_succ_apply', ih, steps, answeredStep]
    cases asks : question (states n) with
    | none => exact h.silent _ asks _ _
    | some k =>
      rw [Option.elim_some]
      rw [given_of k n asks]

/-- The second system makes at least as many steps as the first one. -/
theorem Questions.exists_oracle [Inhabited α] (h : Questions stepWith question past) {step' : τ → τ}
    {within : σ → Prop} {related : σ → τ → Prop}
    (follows : ∀ s t, within s → related s t → ∃ a, within (stepWith a s) →
      ∃ t', LeadsTo step' (step' t) t' ∧ related (stepWith a s) t')
    {s : σ} {t : τ} (start : related s t) :
    ∃ answers : κ → α, ∀ n, (∀ i ≤ n, within ((answeredStep stepWith question answers)^[i] s)) →
      ∃ m, n ≤ m ∧ related ((answeredStep stepWith question answers)^[n] s) (step'^[m] t) := by
  classical
  have choices (p : σ × τ) : ∃ (a : α) (t' : τ), within p.1 → related p.1 p.2 → within (stepWith a p.1) →
      LeadsTo step' (step' p.2) t' ∧ related (stepWith a p.1) t' := by
    by_cases ready : within p.1 ∧ related p.1 p.2
    · obtain ⟨a, follow⟩ := follows p.1 p.2 ready.1 ready.2
      by_cases inside : within (stepWith a p.1)
      · obtain ⟨t', leads, after⟩ := follow inside
        exact ⟨a, t', fun _ _ _ => ⟨leads, after⟩⟩
      · exact ⟨a, p.2, fun _ _ inside' => absurd inside' inside⟩
    · exact ⟨default, p.2, fun ok before => absurd ⟨ok, before⟩ ready⟩
  choose answer after follow using choices
  obtain ⟨pair, first, steps⟩ : ∃ pair : ℕ → σ × τ, pair 0 = (s, t) ∧
      ∀ n, pair (n + 1) = (stepWith (answer (pair n)) (pair n).1, after (pair n)) :=
    ⟨fun n => (fun p => (stepWith (answer p) p.1, after p))^[n] (s, t), rfl,
      fun n => Function.iterate_succ_apply' _ n (s, t)⟩
  obtain ⟨answers, same⟩ := @Questions.exists_answers _ _ _ _ _ _ _ h (fun n => (pair n).1) (fun n => answer (pair n))
    fun n => congrArg Prod.fst (steps n)
  rw [first] at same
  have run (n : ℕ) (inside : ∀ i ≤ n, within (pair i).1) :
      related (pair n).1 (pair n).2 ∧ ∃ m, n ≤ m ∧ step'^[m] t = (pair n).2 := by
    induction n with
    | zero =>
      rw [first]
      exact ⟨start, 0, le_rfl, rfl⟩
    | succ n ih =>
      obtain ⟨before, m, many, reached⟩ := ih fun i small => inside i (Nat.le_succ_of_le small)
      have next := inside (n + 1) le_rfl
      rw [steps] at next
      obtain ⟨⟨k, leads⟩, related'⟩ := follow _ (inside n (Nat.le_succ n)) before next
      rw [steps]
      refine ⟨related', k + 1 + m, by omega, ?_⟩
      rw [Function.iterate_add_apply, reached, Function.iterate_succ_apply]
      exact leads
  refine ⟨answers, fun n inside => ?_⟩
  obtain ⟨before, m, many, reached⟩ := run n fun i small => same i ▸ inside i small
  refine ⟨m, many, ?_⟩
  rw [same n, reached]
  exact before

end

end Systems

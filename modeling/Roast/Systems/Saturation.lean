import Mathlib.Data.List.Nodup
import Mathlib.Data.List.Perm.Subperm
import Mathlib.Order.Bounds.Basic

/-! Least closed sets by saturation: a list without repetitions grows by sweeps over a list of rules until its length
stays the same. -/
namespace Systems

section
variable {α : Type} [DecidableEq α]

def insertNew (set : List α) (element : α) : List α := if element ∈ set then set else set ++ [element]

def insertAll (set : List α) (elements : List α) : List α := elements.foldl insertNew set

def applyRule (set : List α) (rule : α × List α) : List α := if rule.1 ∈ set then insertAll set rule.2 else set

def sweepRules (rules : List (α × List α)) (set : List α) : List α := rules.foldl applyRule set

/-- Sweeps until one does not change the length, at most `n` of them. -/
def saturate (sweep : List α → List α) : Nat → List α → Option (List α)
  | 0, _ => none
  | n + 1, set => if (sweep set).length ≠ set.length then saturate sweep n (sweep set) else some (sweep set)

/-- The set contains the elements that a rule adds whenever it contains its trigger. -/
def ClosedUnder (rules : List (α × List α)) (set : Set α) : Prop :=
  ∀ rule ∈ rules, rule.1 ∈ set → ∀ element ∈ rule.2, element ∈ set

theorem insertNew_extends (set : List α) (element : α) : set <+: insertNew set element := by
  unfold insertNew
  split
  · exact List.prefix_rfl
  · exact List.prefix_append _ _

theorem mem_insertNew {set : List α} {element other : α} :
    other ∈ insertNew set element ↔ other ∈ set ∨ other = element := by
  unfold insertNew
  split
  · rename_i known
    exact ⟨.inl, fun either => either.elim id fun same => same ▸ known⟩
  · simp

theorem nodup_insertNew {set : List α} (nodup : set.Nodup) (element : α) : (insertNew set element).Nodup := by
  unfold insertNew
  split
  · exact nodup
  · rename_i fresh
    exact nodup.append (List.nodup_singleton element) (by simpa using fresh)

private theorem insertAll_extends (set elements : List α) : set <+: insertAll set elements := by
  induction elements generalizing set with
  | nil => exact List.prefix_rfl
  | cons element rest ih => exact (insertNew_extends set element).trans (ih _)

theorem mem_insertAll {set elements : List α} {other : α} :
    other ∈ insertAll set elements ↔ other ∈ set ∨ other ∈ elements := by
  induction elements generalizing set with
  | nil => simp [insertAll]
  | cons element rest ih =>
    rw [insertAll, List.foldl_cons, ← insertAll, ih, mem_insertNew, List.mem_cons, or_assoc]

theorem nodup_insertAll {set : List α} (nodup : set.Nodup) (elements : List α) : (insertAll set elements).Nodup := by
  induction elements generalizing set with
  | nil => exact nodup
  | cons element rest ih => exact ih (nodup_insertNew nodup element)

theorem insertAll_append (set first second : List α) :
    insertAll set (first ++ second) = insertAll (insertAll set first) second := List.foldl_append

private theorem applyRule_extends (set : List α) (rule : α × List α) : set <+: applyRule set rule := by
  unfold applyRule
  split
  · exact insertAll_extends _ _
  · exact List.prefix_rfl

private theorem nodup_applyRule {set : List α} (nodup : set.Nodup) (rule : α × List α) :
    (applyRule set rule).Nodup := by
  unfold applyRule
  split
  · exact nodup_insertAll nodup _
  · exact nodup

private theorem sweepRules_extends (rules : List (α × List α)) (set : List α) : set <+: sweepRules rules set := by
  induction rules generalizing set with
  | nil => exact List.prefix_rfl
  | cons rule rest ih => exact (applyRule_extends set rule).trans (ih _)

private theorem nodup_sweepRules {set : List α} (nodup : set.Nodup) (rules : List (α × List α)) :
    (sweepRules rules set).Nodup := by
  induction rules generalizing set with
  | nil => exact nodup
  | cons rule rest ih => exact ih (nodup_applyRule nodup rule)

/-- A sweep stays inside every closed set. -/
private theorem sweepRules_subset {rules : List (α × List α)} {set : List α} {bound : Set α}
    (closed : ClosedUnder rules bound)
    (inside : ∀ element ∈ set, element ∈ bound) : ∀ element ∈ sweepRules rules set, element ∈ bound := by
  induction rules generalizing set with
  | nil => exact inside
  | cons rule rest ih =>
    refine ih (fun other mem => closed other (List.mem_cons_of_mem _ mem)) fun element mem => ?_
    unfold applyRule at mem
    split at mem
    · rename_i trigger
      rcases mem_insertAll.mp mem with mem | mem
      · exact inside element mem
      · exact closed rule List.mem_cons_self (inside _ trigger) element mem
    · exact inside element mem

/-- A sweep that adds nothing leaves a closed set. -/
private theorem closedUnder_of_sweepRules {rules : List (α × List α)} {set : List α}
    (same : sweepRules rules set = set) :
    ClosedUnder rules {element | element ∈ set} := by
  induction rules with
  | nil =>
    intro rule mem
    cases mem
  | cons rule rest ih =>
    have first : applyRule set rule = set := by
      refine ((applyRule_extends set rule).eq_of_length_le ?_).symm
      have step := (sweepRules_extends rest (applyRule set rule)).length_le
      rw [sweepRules, List.foldl_cons, ← sweepRules] at same
      rwa [same] at step
    have others : sweepRules rest set = set := by
      rw [sweepRules, List.foldl_cons, ← sweepRules, first] at same
      exact same
    intro other mem trigger element added
    rcases List.mem_cons.mp mem with rfl | mem
    · have known : element ∈ applyRule set other := by
        rw [applyRule, if_pos (show other.1 ∈ set from trigger)]
        exact mem_insertAll.mpr (.inr added)
      rwa [first] at known
    · exact ih others other mem trigger element added

/-- Enough sweeps reach the least closed set above the given one. -/
theorem saturate_spec {rules : List (α × List α)} {bound : List α} (closed : ClosedUnder rules {element | element ∈ bound})
    (missing : Nat) {set : List α} (nodup : set.Nodup) (inside : set ⊆ bound)
    (left : bound.length ≤ set.length + missing) :
    ∃ result, (∀ n, missing < n → saturate (sweepRules rules) n set = some result) ∧
      IsLeast {s : Set α | (∀ element ∈ set, element ∈ s) ∧ ClosedUnder rules s} {element | element ∈ result} := by
  induction missing generalizing set with
  | zero =>
    have inside' : sweepRules rules set ⊆ bound := sweepRules_subset closed inside
    have full : (sweepRules rules set).length ≤ set.length :=
      ((nodup_sweepRules nodup rules).subperm inside').length_le.trans left
    have same := ((sweepRules_extends rules set).eq_of_length_le full).symm
    refine ⟨set, fun n enough => ?_, ⟨fun element mem => mem, closedUnder_of_sweepRules same⟩, fun s h element mem => h.1 element mem⟩
    obtain ⟨n, rfl⟩ : ∃ m, n = m + 1 := ⟨n - 1, by omega⟩
    rw [saturate, same, if_neg (not_not.mpr rfl)]
  | succ missing ih =>
    by_cases same : sweepRules rules set = set
    · refine ⟨set, fun n enough => ?_, ⟨fun element mem => mem, closedUnder_of_sweepRules same⟩, fun s h element mem => h.1 element mem⟩
      obtain ⟨n, rfl⟩ : ∃ m, n = m + 1 := ⟨n - 1, by omega⟩
      rw [saturate, same, if_neg (not_not.mpr rfl)]
    · have grown : set.length < (sweepRules rules set).length := by
        by_contra short
        exact same ((sweepRules_extends rules set).eq_of_length_le (not_lt.mp short)).symm
      obtain ⟨result, ends, least⟩ := ih (nodup_sweepRules nodup rules) (sweepRules_subset closed inside) (by omega)
      refine ⟨result, fun n enough => ?_, ⟨fun element mem => ?_, least.1.2⟩, fun s h => ?_⟩
      · obtain ⟨n, rfl⟩ : ∃ m, n = m + 1 := ⟨n - 1, by omega⟩
        rw [saturate, if_pos (by omega), ends n (by omega)]
      · exact least.1.1 element ((sweepRules_extends rules set).subset mem)
      · exact least.2 ⟨sweepRules_subset h.2 h.1, h.2⟩

end

end Systems

import Mathlib.Data.List.Basic
import Mathlib.Data.List.Induction
import Mathlib.Data.List.Nodup

/-! Invariants of loops: over the first numbers, and over a list with a body that may fail. What the parts of a computation
keep is kept by the computation, if it succeeds. A search by a key finds the item that has it, if no two items share one. -/
namespace Systems

section
variable {σ α : Type*}

/-- The invariant may speak of the number of turns that are done. -/
theorem foldl_range_keeps {step : σ → ℕ → σ} {good : ℕ → σ → Prop} {s : σ} {n : ℕ} (start : good 0 s)
    (next : ∀ m < n, ∀ s, good m s → good (m + 1) (step s m)) : good n ((List.range n).foldl step s) := by
  induction n with
  | zero => exact start
  | succ n ih =>
    rw [List.range_succ, List.foldl_append]
    exact next n (Nat.lt_succ_self n) _ (ih fun m hm => next m (Nat.lt_succ_of_lt hm))

/-- A loop whose body succeeds in every good state succeeds. -/
theorem foldlM_keeps {step : σ → α → Option σ} {good : σ → Prop} {s : σ} {l : List α} (start : good s)
    (next : ∀ a ∈ l, ∀ s, good s → ∃ s', step s a = some s' ∧ good s') :
    ∃ s', l.foldlM step s = some s' ∧ good s' := by
  induction l generalizing s with
  | nil => exact ⟨s, rfl, start⟩
  | cons a l ih =>
    obtain ⟨s', here, good'⟩ := next a List.mem_cons_self s start
    obtain ⟨final, later, done⟩ := ih good' fun b mem => next b (List.mem_cons_of_mem a mem)
    refine ⟨final, ?_, done⟩
    rw [List.foldlM_cons, here]
    exact later

/-- A map whose function succeeds on every item succeeds. -/
theorem mapM_eq_some {β : Type*} {f : α → Option β} {g : α → β} {items : List α}
    (each : ∀ item ∈ items, f item = some (g item)) : items.mapM f = some (items.map g) := by
  induction items with
  | nil => rfl
  | cons item rest ih =>
    rw [List.mapM_cons, each item List.mem_cons_self, ih fun other mem => each other (List.mem_cons_of_mem _ mem)]
    rfl

end

theorem except_bind_eq_ok {ε α β : Type} {x : Except ε α} {f : α → Except ε β} {b : β} (h : x >>= f = .ok b) :
    ∃ a, x = .ok a ∧ f a = .ok b := by
  cases x with
  | error error => cases h
  | ok a => exact ⟨a, rfl, h⟩

structure Fallible (m : Type → Type) [Monad m] : Prop where
  pure {α : Type} {a b : α} : (Pure.pure a : m α) = Pure.pure b → a = b
  bind {α β : Type} {x : m α} {f : α → m β} {b : β} : x >>= f = Pure.pure b → ∃ a, x = Pure.pure a ∧ f a = Pure.pure b

theorem option_fallible : Fallible Option := ⟨Option.some.inj, Option.bind_eq_some_iff.mp⟩

theorem except_fallible (ε : Type) : Fallible (Except ε) := ⟨Except.ok.inj, except_bind_eq_ok⟩

section
variable {m : Type → Type} [Monad m] [LawfulMonad m] (fallible : Fallible m) {σ α : Type}
include fallible

/-- The invariant, which may speak of the turns that are done, holds after each part of a loop that succeeds. -/
theorem Fallible.foldlM_prefix {step : σ → α → m σ} (good : List α → σ → Prop) {start : σ} {l : List α} (init : good [] start)
    (next : ∀ done a rest s s', l = done ++ a :: rest → done.foldlM step start = Pure.pure s → good done s →
      step s a = Pure.pure s' → good (done ++ [a]) s') {done rest : List α} {s : σ} (split : l = done ++ rest)
    (run : done.foldlM step start = Pure.pure s) : good done s := by
  induction done using List.reverseRecOn generalizing rest s with
  | nil => exact fallible.pure run ▸ init
  | append_singleton done a ih =>
    rw [List.foldlM_append] at run
    obtain ⟨before, run, last⟩ := fallible.bind run
    simp only [List.foldlM_cons, List.foldlM_nil, bind_pure] at last
    rw [List.append_assoc, List.singleton_append] at split
    exact next done a rest before s split run (ih split run) last

/-- A loop that succeeds does so up to each of its turns. -/
theorem Fallible.foldlM_done {step : σ → α → m σ} {start final : σ} {done rest : List α}
    (run : (done ++ rest).foldlM step start = Pure.pure final) : ∃ s, done.foldlM step start = Pure.pure s := by
  rw [List.foldlM_append] at run
  obtain ⟨s, run, -⟩ := fallible.bind run
  exact ⟨s, run⟩

theorem Fallible.foldlM_keeps {step : σ → α → m σ} (good : σ → Prop)
    (next : ∀ a s s', step s a = Pure.pure s' → good s → good s') {s s' : σ} {l : List α} (run : l.foldlM step s = Pure.pure s')
    (start : good s) : good s' :=
  fallible.foldlM_prefix (fun _ => good) start (fun _ a _ s s' _ _ before stepped => next a s s' stepped before) (List.append_nil l).symm run

theorem Fallible.mapM_cons {β : Type} {f : α → m β} {a : α} {l : List α} {l' : List β}
    (run : (a :: l).mapM f = Pure.pure l') : ∃ b rest, f a = Pure.pure b ∧ l.mapM f = Pure.pure rest ∧ l' = b :: rest := by
  rw [List.mapM_cons] at run
  obtain ⟨b, here, run⟩ := fallible.bind run
  obtain ⟨rest, later, run⟩ := fallible.bind run
  exact ⟨b, rest, here, later, (fallible.pure run).symm⟩

/-- A map that succeeds does so on every item. -/
theorem Fallible.mapM_mem {β : Type} {f : α → m β} {l : List α} {l' : List β} (run : l.mapM f = Pure.pure l') {a : α}
    (mem : a ∈ l) : ∃ b ∈ l', f a = Pure.pure b := by
  induction l generalizing l' with
  | nil => cases mem
  | cons first l ih =>
    obtain ⟨b, rest, here, later, rfl⟩ := fallible.mapM_cons run
    obtain rfl | mem := List.mem_cons.mp mem
    · exact ⟨b, List.mem_cons_self, here⟩
    · obtain ⟨b', mem', there⟩ := ih later mem
      exact ⟨b', List.mem_cons_of_mem b mem', there⟩

theorem Fallible.mapM_map {β γ : Type} {f : α → m β} {g : α → γ} {g' : β → γ}
    {l : List α} {l' : List β} (same : ∀ a ∈ l, ∀ b, f a = Pure.pure b → g' b = g a) (run : l.mapM f = Pure.pure l') :
    l'.map g' = l.map g := by
  induction l generalizing l' with
  | nil => exact fallible.pure run ▸ rfl
  | cons a l ih =>
    obtain ⟨b, rest, here, later, rfl⟩ := fallible.mapM_cons run
    rw [List.map_cons, List.map_cons, same a List.mem_cons_self b here,
      ih (fun a mem => same a (List.mem_cons_of_mem _ mem)) later]

end

section
variable {α κ : Type*} [BEq κ] [LawfulBEq κ] {key : α → κ} {items : List α}

theorem find?_key (distinct : (items.map key).Nodup) {item : α} (mem : item ∈ items) :
    items.find? (fun other => key other == key item) = some item := by
  cases found : items.find? (fun other => key other == key item) with
  | none =>
    have other := List.find?_eq_none.mp found item mem
    exact absurd (beq_self_eq_true (key item)) other
  | some other =>
    have same : key other = key item := by simpa using List.find?_some found
    exact congrArg some (List.inj_on_of_nodup_map distinct (List.mem_of_find?_eq_some found) mem same)

/-- After an item is replaced by one with its key, the search for this key finds the new one. -/
theorem find?_key_set [DecidableEq κ] (distinct : (items.map key).Nodup) {position : ℕ} {old new : α}
    (here : items[position]? = some old) (same : key new = key old) (wanted : κ) :
    (items.set position new).find? (fun other => key other == wanted) =
      if key old = wanted then some new else items.find? fun other => key other == wanted := by
  induction items generalizing position with
  | nil => cases here
  | cons first rest ih =>
    obtain ⟨fresh, distinct⟩ := List.nodup_cons.mp distinct
    cases position with
    | zero =>
      obtain rfl : first = old := Option.some.inj here
      rw [List.set_cons_zero, List.find?_cons, List.find?_cons, same]
      by_cases found : key first = wanted
      · rw [if_pos found, beq_iff_eq.mpr found]
      · rw [if_neg found, beq_eq_false_iff_ne.mpr found]
    | succ position =>
      have later : rest[position]? = some old := here
      rw [List.set_cons_succ, List.find?_cons, List.find?_cons, ih distinct later]
      by_cases found : key first = wanted
      · have other : key old ≠ wanted := by
          rintro rfl
          exact fresh (found ▸ List.mem_map_of_mem (List.mem_of_getElem? later))
        rw [if_neg other, if_neg other, beq_iff_eq.mpr found]
      · rw [beq_eq_false_iff_ne.mpr found]

end

end Systems

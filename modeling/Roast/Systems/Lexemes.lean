import Roast.Systems.Regex

/-! The texts that expressions match: what lies between the place where a match begins and the place where it ends. -/
namespace Systems

namespace Regex

section
variable {accepts : Char → Bool} {place stop : Place}

/-- A character consumes one that it accepts. -/
theorem character_text (mem : stop ∈ (character accepts).ends place) :
    ∃ first, accepts first = true ∧ place.after = first :: stop.after := by
  rw [ends] at mem
  split at mem
  · cases mem
  · rename_i first rest after
    by_cases accepted : accepts first = true
    · rw [if_pos accepted] at mem
      rw [List.mem_singleton.mp mem]
      exact ⟨first, accepted, after⟩
    · rw [if_neg accepted] at mem
      cases mem

/-- Rounds of a character consume a text of accepted ones. -/
private theorem greedyEnds_text {n : Nat} (mem : stop ∈ greedyEnds (character accepts).ends n place) :
    ∃ text, (∀ head ∈ text, accepts head = true) ∧ place.after = text ++ stop.after := by
  induction n generalizing place with
  | zero =>
    rw [List.mem_singleton.mp mem]
    exact ⟨[], by simp, rfl⟩
  | succ n ih =>
    obtain further | here := List.mem_append.mp mem
    · obtain ⟨next, reached, mem⟩ := List.mem_flatMap.mp further
      obtain ⟨first, accepted, after⟩ := character_text reached
      obtain ⟨text, accepts, same⟩ := ih mem
      refine ⟨first :: text, List.forall_mem_cons.mpr ⟨accepted, accepts⟩, ?_⟩
      rw [after, same, List.cons_append]
    · rw [List.mem_singleton.mp here]
      exact ⟨[], by simp, rfl⟩

/-- A character and then a repetition. -/
theorem sequence_greedy_text (first : Char → Bool)
    (mem : stop ∈ (sequence (character first) (greedy (character accepts))).ends place) : ∃ head text, first head = true ∧
      (∀ other ∈ text, accepts other = true) ∧ place.after = head :: text ++ stop.after := by
  obtain ⟨next, reached, mem⟩ := List.mem_flatMap.mp mem
  obtain ⟨head, accepted, after⟩ := character_text reached
  obtain ⟨text, accepts, same⟩ := greedyEnds_text mem
  exact ⟨head, text, accepted, accepts, by rw [after, same, List.cons_append]⟩

theorem text_text {characters : List Char} (mem : stop ∈ (text characters).ends place) :
    place.after = characters ++ stop.after := by
  rw [text_ends] at mem
  split at mem
  · next begins =>
    rw [List.mem_singleton.mp mem]
    obtain ⟨rest, same⟩ := begins
    rw [← same, List.drop_left]
  · cases mem

end

end Regex

end Systems

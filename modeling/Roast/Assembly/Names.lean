import Roast.Assembly.Layout

/-! Storage names. Fields at different levels, temporaries and globals never share a name. -/
namespace Roast
open LlirGenerator

theorem toString_inj {m n : Nat} (h : toString m = toString n) : m = n := by
  rw [Nat.toString_eq_ofList_toDigits, Nat.toString_eq_ofList_toDigits, String.ofList_inj] at h
  rw [← Nat.ofDigitChars_ten_toDigits (n := m), h, Nat.ofDigitChars_ten_toDigits]

def TemporaryName (k : Nat) (name : String) : Prop :=
  ∃ i, k ≤ i ∧ ∃ character : Char, (character = '$' ∨ character = '#') ∧
    name = character.toString ++ toString i

theorem TemporaryName.mono {k k' : Nat} {name : String} (hk : k ≤ k') (h : TemporaryName k' name) :
    TemporaryName k name := by
  obtain ⟨i, hi, rest⟩ := h
  exact ⟨i, hk.trans hi, rest⟩

/-- A temporary has a number of its own. -/
theorem not_temporaryName_of_lt {k i : Nat} (hi : i < k) (character : Char) :
    ¬ TemporaryName k (character.toString ++ toString i) := by
  rintro ⟨j, hj, other, -, same⟩
  have lists := congrArg String.toList same
  simp only [String.toList_append, Char.toString, String.toList_singleton, List.singleton_append] at lists
  have := toString_inj (String.toList_inj.mp (List.cons.inj lists).2)
  omega

private theorem IsIdentifier.not_temporaryName {identifier : String} (h : IsIdentifier identifier) (k : Nat) :
    ¬ TemporaryName k identifier := by
  rintro ⟨i, -, character, kind, same⟩
  exact temporary_not_identifier kind (toString i) h same

theorem IsIdentifier.at_not_mem {identifier : String} (h : IsIdentifier identifier) :
    '@' ∉ identifier.toList := by
  intro mem
  exact absurd (h.2.2 '@' mem) (by decide)

/-- The storage name of a field below the outermost scope. -/
theorem llirField_identifier {level : Nat} (positive : 0 < level) (field : IrField) :
    (field.llirField level).identifier = field.identifier ++ "@" ++ toString level :=
  if_neg (by omega)

theorem llirField_identifier_zero (field : IrField) : (field.llirField 0).identifier = field.identifier := rfl

/-- A list is cut at the first occurrence of an element in one way only. -/
theorem append_cons_inj {α : Type*} {a : α} {front front' rest rest' : List α} (h : a ∉ front) (h' : a ∉ front')
    (same : front ++ a :: rest = front' ++ a :: rest') : front = front' ∧ rest = rest' := by
  induction front generalizing front' with
  | nil =>
    cases front' with
    | nil => exact ⟨rfl, (List.cons.inj same).2⟩
    | cons head tail => exact absurd ((List.cons.inj same).1 ▸ List.mem_cons_self ..) h'
  | cons head tail ih =>
    cases front' with
    | nil => exact absurd ((List.cons.inj same).1 ▸ List.mem_cons_self ..) h
    | cons head' tail' =>
      obtain ⟨rfl, tails⟩ := List.cons.inj same
      obtain ⟨rfl, rests⟩ := ih (fun mem => h (List.mem_cons_of_mem _ mem))
        (fun mem => h' (List.mem_cons_of_mem _ mem)) tails
      exact ⟨rfl, rests⟩

theorem llirField_identifier_inj {level level' : Nat} (positive : 0 < level) (positive' : 0 < level')
    {field field' : IrField} (name : IsIdentifier field.identifier) (name' : IsIdentifier field'.identifier)
    (same : (field.llirField level).identifier = (field'.llirField level').identifier) :
    level = level' ∧ field.identifier = field'.identifier := by
  rw [llirField_identifier positive, llirField_identifier positive'] at same
  have lists := congrArg String.toList same
  simp only [String.toList_append, List.append_assoc] at lists
  obtain ⟨front, rest⟩ := append_cons_inj name.at_not_mem name'.at_not_mem lists
  exact ⟨toString_inj (String.toList_inj.mp rest), String.toList_inj.mp front⟩

theorem llirField_not_identifier {level : Nat} (positive : 0 < level) (field : IrField) :
    ¬ IsIdentifier (field.llirField level).identifier := by
  intro name
  refine name.at_not_mem ?_
  rw [llirField_identifier positive]
  simp

theorem llirField_not_temporaryName {field : IrField} (name : IsIdentifier field.identifier) (level k : Nat) :
    ¬ TemporaryName k (field.llirField level).identifier := by
  obtain rfl | positive := Nat.eq_zero_or_pos level
  · exact name.not_temporaryName k
  · rintro ⟨i, -, character, kind, same⟩
    obtain ⟨first, rest, characters⟩ := List.exists_cons_of_ne_nil name.1
    rw [llirField_identifier positive] at same
    have lists := congrArg String.toList same
    simp only [String.toList_append, characters, Char.toString, String.toList_singleton, List.cons_append,
      List.nil_append] at lists
    obtain rfl := (List.cons.inj lists).1
    have := name.2.2 first (by simp [characters])
    obtain rfl | rfl := kind <;> revert this <;> decide

theorem temporaryName_not_identifier {k : Nat} {name : String} (h : TemporaryName k name) : ¬ IsIdentifier name :=
  fun identifier => identifier.not_temporaryName k h

end Roast

import Mathlib.Data.List.Basic

/-! A stretch of a list at a position of it. -/
namespace Systems

section
variable {α : Type*}

def Placed (list : List α) (position : ℕ) (segment : List α) : Prop := segment <+: list.drop position

variable {list segment segment' : List α} {position : ℕ} {item : α}

theorem placed_of_eq {front back : List α} (split : list = front ++ segment ++ back) : Placed list front.length segment := by
  rw [Placed, split, List.append_assoc, List.drop_left]
  exact List.prefix_append _ _

theorem Placed.left (h : Placed list position (segment ++ segment')) : Placed list position segment :=
  (List.prefix_append _ _).trans h

theorem Placed.right (h : Placed list position (segment ++ segment')) :
    Placed list (position + segment.length) segment' := by
  obtain ⟨rest, split⟩ := h
  rw [Placed, ← List.drop_drop, ← split, List.append_assoc, List.drop_left]
  exact List.prefix_append _ _

theorem Placed.head (h : Placed list position (item :: segment)) : list[position]? = some item := by
  obtain ⟨rest, split⟩ := h
  rw [← List.head?_drop, ← split]
  rfl

theorem Placed.tail (h : Placed list position (item :: segment)) : Placed list (position + 1) segment :=
  @Placed.right _ _ [item] _ _ h

end

end Systems

import Mathlib
import Roast.Assembly.Layout

/-! The stack frame that `generate_stack_allocation` lays out. Fields that share a storage name share the
offset of the one that is declared last, so the frame is injective only when the others fit there. -/
namespace Roast

/-- The hash table `offsets`; a missing key is looked up as 0. -/
abbrev Offsets := String → Nat

/-- One turn of the loops over arguments and fields: the frame grows and the offset is inserted. -/
def allocateField (frame : Nat × Offsets) (field : LlirField) : Nat × Offsets :=
  let stackSize := frame.1 + (field.valueCount * 8).toNat
  (stackSize, Function.update frame.2 field.identifier stackSize)

/-- `generate_stack_allocation`, with the size of the frame that it subtracts from `rsp`. -/
def generateStackAllocation (offsets : Offsets) (method : LlirMethod) : Nat × Offsets :=
  let frame := method.arguments.foldl allocateField (0, offsets)
  let frame := method.blocks.foldl (fun frame block => block.fields.foldl allocateField frame) frame
  (if frame.1 % 16 ≠ 0 then frame.1 + 8 else frame.1, frame.2)

def LlirField.slot (offsets : Offsets) (field : LlirField) : Set Int :=
  Set.Ico (-(offsets field.identifier : Int)) (-(offsets field.identifier : Int) + 8 * field.valueCount)

/-- Every field lies in the frame, and fields of different names do not overlap. -/
structure FrameInjective (frame : Nat × Offsets) (fields : List LlirField) : Prop where
  inside : ∀ field ∈ fields, field.slot frame.2 ⊆ Set.Ico (-(frame.1 : Int)) 0
  disjoint : ∀ field ∈ fields, ∀ other ∈ fields, field.identifier ≠ other.identifier →
    Disjoint (field.slot frame.2) (other.slot frame.2)

/-- A field is not larger than the fields that are declared after the last declaration of any other name,
up to the last declaration of its own. -/
def LastDeclarationsFit (fields : List LlirField) : Prop :=
  ∀ front other middle last rest, fields = front ++ other :: (middle ++ last :: rest) →
    last.identifier ∉ rest.map LlirField.identifier →
    other.identifier ∉ (middle ++ last :: rest).map LlirField.identifier →
    ∀ field ∈ fields, field.identifier = last.identifier →
      field.valueCount ≤ ((middle ++ [last]).map LlirField.valueCount).sum

def frameWords (fields : List LlirField) : Int := (fields.map LlirField.valueCount).sum

@[simp] theorem frameWords_append (fields fields' : List LlirField) :
    frameWords (fields ++ fields') = frameWords fields + frameWords fields' := by
  simp [frameWords]

@[simp] theorem frameWords_cons (field : LlirField) (fields : List LlirField) :
    frameWords (field :: fields) = field.valueCount + frameWords fields := by
  simp [frameWords]

@[simp] theorem frameWords_nil : frameWords [] = 0 := rfl

theorem frameWords_nonneg {fields : List LlirField} (positive : ∀ field ∈ fields, 0 < field.valueCount) :
    0 ≤ frameWords fields := by
  refine List.sum_nonneg fun count mem => ?_
  obtain ⟨field, declared, rfl⟩ := List.mem_map.mp mem
  exact (positive field declared).le

private theorem valueCount_le_frameWords {fields : List LlirField} (positive : ∀ field ∈ fields, 0 < field.valueCount)
    {field : LlirField} (mem : field ∈ fields) : field.valueCount ≤ frameWords fields := by
  obtain ⟨front, rest, rfl⟩ := List.append_of_mem mem
  have := frameWords_nonneg fun other mem => positive other (List.mem_append_left _ mem)
  have := frameWords_nonneg fun other mem =>
    positive other (List.mem_append_right front (List.mem_cons_of_mem _ mem))
  simp only [frameWords_append, frameWords_cons]
  omega

section
variable {fields : List LlirField} (positive : ∀ field ∈ fields, 0 < field.valueCount)
include positive

theorem foldl_allocateField_size (frame : Nat × Offsets) :
    ((fields.foldl allocateField frame).1 : Int) = frame.1 + 8 * frameWords fields := by
  induction fields generalizing frame with
  | nil => simp
  | cons field rest ih =>
    have := positive field (by simp)
    rw [List.foldl_cons, ih (fun other mem => positive other (List.mem_cons_of_mem _ mem)), frameWords_cons]
    simp only [allocateField]
    omega

omit positive in
theorem foldl_allocateField_other {identifier : String} (absent : identifier ∉ fields.map LlirField.identifier)
    (frame : Nat × Offsets) : (fields.foldl allocateField frame).2 identifier = frame.2 identifier := by
  induction fields generalizing frame with
  | nil => rfl
  | cons field rest ih =>
    rw [List.map_cons, List.mem_cons, not_or] at absent
    rw [List.foldl_cons, ih absent.2]
    exact Function.update_of_ne absent.1 _ _

end

theorem generateStackAllocation_eq (offsets : Offsets) (method : LlirMethod) :
    let frame := method.fields.foldl allocateField (0, offsets)
    generateStackAllocation offsets method =
      (if frame.1 % 16 ≠ 0 then frame.1 + 8 else frame.1, frame.2) := by
  simp only [generateStackAllocation, LlirMethod.fields, List.foldl_append, List.foldl_flatMap]

/-- A name has the offset of its last declaration. -/
theorem foldl_allocateField_last {front rest : List LlirField} {last : LlirField}
    (positive : ∀ field ∈ front ++ last :: rest, 0 < field.valueCount)
    (absent : last.identifier ∉ rest.map LlirField.identifier) (offsets : Offsets) :
    (((front ++ last :: rest).foldl allocateField (0, offsets)).2 last.identifier : Int) =
      8 * frameWords (front ++ [last]) := by
  have positive' : ∀ field ∈ front ++ [last], 0 < field.valueCount :=
    fun field mem => positive field (by simp at mem ⊢; tauto)
  have first := foldl_allocateField_size positive' (0, offsets)
  have split : front ++ last :: rest = (front ++ [last]) ++ rest := by simp
  rw [split, List.foldl_append, foldl_allocateField_other absent]
  rw [List.foldl_append, List.foldl_cons, List.foldl_nil] at first ⊢
  rw [show (allocateField (front.foldl allocateField (0, offsets)) last).2 last.identifier =
    (allocateField (front.foldl allocateField (0, offsets)) last).1 from Function.update_self ..]
  simpa using first

/-- The last declaration of a declared name. -/
theorem exists_last {fields : List LlirField} {field : LlirField} (mem : field ∈ fields) :
    ∃ front last rest, fields = front ++ last :: rest ∧ last.identifier = field.identifier ∧
      last.identifier ∉ rest.map LlirField.identifier ∧ field ∈ front ++ [last] := by
  induction fields generalizing field with
  | nil => simp at mem
  | cons head tail ih =>
    by_cases later : ∃ other ∈ tail, other.identifier = field.identifier
    · obtain ⟨other, declared, same⟩ := later
      obtain ⟨front, last, rest, rfl, name, absent, _⟩ := ih declared
      refine ⟨head :: front, last, rest, rfl, name.trans same, absent, ?_⟩
      obtain rfl | mem := List.mem_cons.mp mem
      · simp
      · have notRest : field ∉ rest := fun inRest =>
          absent (List.mem_map.mpr ⟨field, inRest, (name.trans same).symm⟩)
        simp at mem ⊢
        tauto
    · obtain rfl | mem := List.mem_cons.mp mem
      · exact ⟨[], field, tail, rfl, rfl, fun mem => later (List.mem_map.mp mem), by simp⟩
      · exact absurd ⟨field, mem, rfl⟩ later

/-- Of two different elements one comes first. -/
theorem append_cons_order {front rest front' rest' : List LlirField} {field field' : LlirField}
    (same : front ++ field :: rest = front' ++ field' :: rest') (differ : field ≠ field') :
    (∃ middle, front = front' ++ field' :: middle ∧ rest' = middle ++ field :: rest) ∨
      ∃ middle, front' = front ++ field :: middle ∧ rest = middle ++ field' :: rest' := by
  obtain ⟨middle, hfront, htail⟩ | ⟨middle, hfront, htail⟩ := List.append_eq_append_iff.mp same
  · cases middle with
    | nil => exact absurd (List.cons.inj htail).1 differ
    | cons head middle =>
      obtain ⟨rfl, rfl⟩ := List.cons.inj htail
      exact .inr ⟨middle, hfront, rfl⟩
  · cases middle with
    | nil => exact absurd (List.cons.inj htail).1.symm differ
    | cons head middle =>
      obtain ⟨rfl, rfl⟩ := List.cons.inj htail
      exact .inl ⟨middle, hfront, rfl⟩

section
variable {fields : List LlirField} (positive : ∀ field ∈ fields, 0 < field.valueCount) (offsets : Offsets)
include positive

private theorem slot_subset {size : Nat} (large : 8 * frameWords fields ≤ size) {field : LlirField}
    (mem : field ∈ fields) :
    field.slot (fields.foldl allocateField (0, offsets)).2 ⊆ Set.Ico (-(size : Int)) 0 := by
  obtain ⟨front, last, rest, rfl, name, absent, mem'⟩ := exists_last mem
  have offset := foldl_allocateField_last positive absent offsets
  have count := valueCount_le_frameWords (fun other mem => positive other (by simp at mem ⊢; tauto)) mem'
  have others : 0 ≤ frameWords rest := frameWords_nonneg fun other mem => positive other (by simp [mem])
  simp only [frameWords_append, frameWords_cons, frameWords_nil] at large offset count
  rw [name] at offset
  refine Set.Ico_subset_Ico ?_ ?_ <;> omega

/-- Two names of which one is declared last before the other one. -/
private theorem slots_disjoint_iff {front middle rest : List LlirField} {other last : LlirField}
    (split : fields = front ++ other :: (middle ++ last :: rest))
    (lastAbsent : last.identifier ∉ rest.map LlirField.identifier)
    (otherAbsent : other.identifier ∉ (middle ++ last :: rest).map LlirField.identifier)
    {field field' : LlirField} (mem : field ∈ fields) (mem' : field' ∈ fields) (name : field.identifier = last.identifier)
    (name' : field'.identifier = other.identifier) :
    Disjoint (field.slot (fields.foldl allocateField (0, offsets)).2)
        (field'.slot (fields.foldl allocateField (0, offsets)).2) ↔
      field.valueCount ≤ frameWords (middle ++ [last]) := by
  have split' : fields = (front ++ other :: middle) ++ last :: rest := by simp [split]
  have lastOffset := foldl_allocateField_last (split' ▸ positive) lastAbsent offsets
  have otherOffset := foldl_allocateField_last (split ▸ positive) otherAbsent offsets
  rw [← split'] at lastOffset
  rw [← split] at otherOffset
  have := positive field mem
  have := positive field' mem'
  have between : 0 < frameWords (middle ++ [last]) := by
    have : 0 ≤ frameWords middle := frameWords_nonneg fun field mem => positive field (by simp [split, mem])
    have := positive last (by simp [split])
    simp only [frameWords_append, frameWords_cons, frameWords_nil]
    omega
  simp only [frameWords_append, frameWords_cons, frameWords_nil] at lastOffset otherOffset between ⊢
  rw [LlirField.slot, LlirField.slot, name, name', Set.Ico_disjoint_Ico]
  omega

/-- The frame is injective exactly when the last declarations fit. -/
theorem frameInjective_iff {size : Nat} (large : 8 * frameWords fields ≤ size) :
    FrameInjective (size, (fields.foldl allocateField (0, offsets)).2) fields ↔ LastDeclarationsFit fields := by
  constructor
  · intro injective front other middle last rest split lastAbsent otherAbsent field mem name
    have mem' : other ∈ fields := by simp [split]
    refine (slots_disjoint_iff positive offsets split lastAbsent otherAbsent mem mem' name rfl).mp
      (injective.disjoint field mem other mem' ?_)
    rw [name]
    exact fun same => otherAbsent (by simp [same])
  · intro fit
    refine ⟨fun field mem => slot_subset positive offsets large mem, fun field mem field' mem' differ => ?_⟩
    obtain ⟨front, last, rest, split, name, absent, -⟩ := exists_last mem
    obtain ⟨front', last', rest', split', name', absent', -⟩ := exists_last mem'
    have names : last.identifier ≠ last'.identifier := by rwa [name, name']
    obtain ⟨middle, rfl, rfl⟩ | ⟨middle, rfl, rfl⟩ :=
      append_cons_order (split.symm.trans split') fun same => names (congrArg _ same)
    · rw [List.append_assoc, List.cons_append] at split
      exact (slots_disjoint_iff positive offsets split absent absent' mem mem' name.symm name'.symm).mpr
        (fit _ _ _ _ _ split absent absent' field mem name.symm)
    · rw [List.append_assoc, List.cons_append] at split'
      exact ((slots_disjoint_iff positive offsets split' absent' absent mem' mem name'.symm name.symm).mpr
        (fit _ _ _ _ _ split' absent' absent field' mem' name'.symm)).symm

end

/-- In a lowered program the frame of a method is injective exactly when the last declarations fit. -/
theorem generateStackAllocation_injective_iff {program analyzed : IrProgram} (source : program.FromSource)
    (accepted : Accepts program analyzed) {llir : Llir} (lowered : llirGeneratorGenerateLlir analyzed = some llir)
    {method : LlirMethod} (mem : method ∈ llir.methods) (offsets : Offsets) :
    FrameInjective (generateStackAllocation offsets method) method.fields ↔ LastDeclarationsFit method.fields := by
  obtain ⟨rfl, -⟩ := llirGeneratorGenerateLlir_eq lowered
  have positive := ((accepts_ready source accepted).wellFormed.methods method mem).positive
  rw [generateStackAllocation_eq]
  refine frameInjective_iff positive offsets ?_
  have size := foldl_allocateField_size positive (0, offsets)
  split <;> push_cast <;> omega

/-- `void main() { if (true) { int a[9]; int z; } if (true) { int a[1]; } }` -/
def siblings : IrProgram where
  imports := []
  fields := []
  methods := [{
    imported := false, returnType := .void, identifier := "main", arguments := []
    block := .mk [] (.cons (.ifStatement condition (.mk [array 0 '9' 9, scalar] .nil))
      (.cons (.ifStatement condition (.mk [array 2 '1' 1] .nil)) .nil)) }]
where
  condition : IrExpression := .literal { negate := false, type := .bool, value := 1, token := none }
  array (node : Nat) (digit : Char) (length : Int) : IrField :=
    { node := node, type := .intArray, constant := false, identifier := "a", arrayLength := length,
      lengthToken := some ⟨false, [digit]⟩, initializer := none }
  scalar : IrField :=
    { node := 1, type := .int, constant := false, identifier := "z", arrayLength := 1,
      lengthToken := none, initializer := none }

def siblingsLlir : Llir := (generateLlir (semanticsAnalyze siblings).2).1

private theorem siblings_lowered : siblings.FromSource ∧ Accepts siblings (semanticsAnalyze siblings).2 ∧
    llirGeneratorGenerateLlir (semanticsAnalyze siblings).2 = some siblingsLlir :=
  ⟨by decide +kernel, Prod.ext (by decide +kernel) rfl, by decide +kernel⟩

/-- The array of nine words reaches over the slot of `z`. -/
theorem siblings_overlap : siblings.FromSource ∧ Accepts siblings (semanticsAnalyze siblings).2 ∧
    llirGeneratorGenerateLlir (semanticsAnalyze siblings).2 = some siblingsLlir ∧
    ∃ method ∈ siblingsLlir.methods,
      ¬ FrameInjective (generateStackAllocation (fun _ => 0) method) method.fields := by
  have overlap : ∃ method ∈ siblingsLlir.methods, ∃ field ∈ method.fields, ∃ other ∈ method.fields,
      field.identifier ≠ other.identifier ∧ field.valueCount = 9 ∧ other.valueCount = 1 ∧
      (generateStackAllocation (fun _ => 0) method).2 field.identifier = 104 ∧
      (generateStackAllocation (fun _ => 0) method).2 other.identifier = 88 := by decide +kernel
  obtain ⟨method, mem, field, hfield, other, hother, differ, nine, one, offset, offset'⟩ := overlap
  refine ⟨siblings_lowered.1, siblings_lowered.2.1, siblings_lowered.2.2, method, mem, fun injective => ?_⟩
  have disjoint := injective.disjoint field hfield other hother differ
  rw [LlirField.slot, LlirField.slot, Set.Ico_disjoint_Ico, offset, offset', nine, one] at disjoint
  exact absurd disjoint (by decide)

theorem generateStackAllocation_injective_iff_siblings : ∃ method ∈ siblingsLlir.methods,
    (FrameInjective (generateStackAllocation (fun _ => 0) method) method.fields ↔
      LastDeclarationsFit method.fields) := by
  obtain ⟨method, mem⟩ := List.exists_mem_of_ne_nil siblingsLlir.methods (by decide +kernel)
  exact ⟨method, mem, generateStackAllocation_injective_iff siblings_lowered.1 siblings_lowered.2.1
    siblings_lowered.2.2 mem (fun _ => 0)⟩

end Roast
